import BeastOs.Fs.FileOps

/-!
# The Merkle tree

`MerkleTree` of `fs/merkle.rs` and the updates `save_file` makes to it. `update_hash` hashes a token
(a folder from the hashes of its children, which it looks up or computes on the way) and, if the
token has no parent, makes the hash the root of the tree.

No token that `save_file` makes has a parent: the parent directory lists the new token among its
children, but the link back is never set. So every file in turn becomes the root, and the root hash
is that of the file saved last. `root_independent_iff` says what is left of the law that the root
depends on the files only: any two orders of saving a set of files give the same root exactly if all
of them have the same hash.
-/

namespace BeastOs.Fs

open Option Lib Storage

/-- The path in UTF-8. -/
def pathBytes (path : Path) : List U8 :=
  path.flatMap fun c => (String.utf8EncodeChar c).map UInt8.toBitVec

structure MerkleNode where
  hash : Hash
  tokenId : TokenId
  name : Path
  parentHash : Option Hash
  children : SortedMap Path Hash
  isDirectory : Bool
  size : Nat

structure MerkleTree where
  rootHash : Option Hash
  nodeCache : SortedMap Hash MerkleNode
  pathToHash : SortedMap Path Hash

inductive MerkleError
  | tokenNotFound
  | nodeNotFound
  | noRoot
  | hashMismatch
  deriving DecidableEq, Repr

namespace MerkleTree

def new : MerkleTree := ⟨none, SortedMap.empty, SortedMap.empty⟩

/-! ## Hashes -/

/-- Byte `i` is xored into place `i % 32`. -/
def mix (hash : List U8) (data : List (U8 × Nat)) : List U8 :=
  data.foldl (fun hash b => hash.modify (b.2 % 32) (· ^^^ b.1)) hash

theorem length_mix (hash : List U8) (data : List (U8 × Nat)) :
    (mix hash data).length = hash.length := by
  induction data generalizing hash with
  | nil => rfl
  | cons b data ih =>
    show (mix (hash.modify (b.2 % 32) (· ^^^ b.1)) data).length = hash.length
    rw [ih, List.length_modify]

def simpleHash (data : List U8) : Hash :=
  ⟨mix (List.replicate 32 0) data.zipIdx, by rw [length_mix, List.length_replicate]⟩

def parentBytes (parentHash : Option Hash) : List U8 := (parentHash.map (·.val)).getD []

def hashFile (contentHash : Hash) (name : Path) (parentHash : Option Hash) : Hash :=
  simpleHash (parentBytes parentHash ++ pathBytes name ++ contentHash.val)

def hashFolder (name : Path) (parentHash : Option Hash) (children : SortedMap Path Hash) : Hash :=
  simpleHash (parentBytes parentHash ++ pathBytes name ++
    children.entries.flatMap fun child => pathBytes child.1 ++ child.2.val)

/-! ## Updates -/

/-- The last part of `update_hash`, once the hash is known. -/
def record (tree : MerkleTree) (tokenId : TokenId) (token : Token) (newHash : Hash) :
    MerkleTree where
  nodeCache :=
    match tree.nodeCache.lookup newHash with
    | some node => tree.nodeCache.insert newHash { node with hash := newHash }
    | none =>
      tree.nodeCache.insert newHash
        ⟨newHash, tokenId, token.path, none, SortedMap.empty, token.tokenType = .folder, token.size⟩
  pathToHash := tree.pathToHash.insert token.path newHash
  rootHash := if token.parent = none then some newHash else tree.rootHash

/-- A computation on the tree; `none` when it does not end. -/
abbrev Update (α : Type) := MerkleTree → Option (Except MerkleError α × MerkleTree)

/-- A node of the cache with this token gives the hash; `update` computes it otherwise. -/
def getHashForToken (update : TokenId → Update Hash) (tokenId : TokenId) : Update Hash :=
  fun tree =>
    match tree.nodeCache.entries.find? fun e => e.2.tokenId = tokenId with
    | some (hash, _) => some (.ok hash, tree)
    | none => update tokenId tree

/-- The hashes of the children, by path, on top of those found so far. -/
def getChildrenHashes (hashOf : TokenId → Update Hash) (registry : Registry) :
    List TokenId → SortedMap Path Hash → Update (SortedMap Path Hash)
  | [], hashes, tree => some (.ok hashes, tree)
  | childId :: children, hashes, tree =>
    match registry.lookup childId with
    | none => some (.error .tokenNotFound, tree)
    | some child =>
      (hashOf childId tree).bind fun r =>
        match r.1 with
        | .error e => some (.error e, r.2)
        | .ok hash =>
          getChildrenHashes hashOf registry children (hashes.insert child.path hash) r.2

/-- The hash of a token, from the hashes of its children if it is not a file. -/
def tokenHash (hashOf : TokenId → Update Hash) (registry : Registry) (token : Token) :
    Update Hash := fun tree =>
  if token.tokenType = .file then
    some (.ok (hashFile token.contentHash token.path none), tree)
  else
    (getChildrenHashes hashOf registry token.children SortedMap.empty tree).map fun r =>
      (r.1.map (hashFolder token.path none), r.2)

/-- `none` when a folder is met below itself: folders nest at most `fuel` deep. -/
def updateHash (registry : Registry) : Nat → TokenId → Update Hash
  | 0, _, _ => none
  | fuel + 1, tokenId, tree =>
    match registry.lookup tokenId with
    | none => some (.error .tokenNotFound, tree)
    | some token =>
      (tokenHash (getHashForToken (updateHash registry fuel)) registry token tree).map fun r =>
        match r.1 with
        | .error e => (.error e, r.2)
        | .ok newHash => (.ok newHash, r.2.record tokenId token newHash)

/-- More folders than there are tokens do not nest. -/
def depthBound (registry : Registry) : Nat := registry.entries.length + 1

variable {registry : Registry} {tokenId : TokenId} {token : Token}

/-- **A file without a parent becomes the root.** -/
theorem updateHash_file (tree : MerkleTree) (hlookup : registry.lookup tokenId = some token)
    (hfile : token.tokenType = .file) (hparent : token.parent = none) :
    ∃ tree', updateHash registry (depthBound registry) tokenId tree =
        some (.ok (hashFile token.contentHash token.path none), tree') ∧
      tree'.rootHash = some (hashFile token.contentHash token.path none) := by
  refine ⟨tree.record tokenId token (hashFile token.contentHash token.path none), ?_, ?_⟩
  · rw [depthBound, updateHash, hlookup]
    simp only [tokenHash, if_pos hfile, map_some]
  · simp only [record, if_pos hparent]

end MerkleTree

/-! ## Saving files -/

/-- The file system with its tree. -/
structure HashedFileSystem where
  files : FileSystem
  merkleTree : MerkleTree

namespace HashedFileSystem

def new : HashedFileSystem := ⟨.new, .new⟩

/-- The result of an update is not looked at. -/
def updateHash (tree : MerkleTree) (registry : Registry) (tokenId : TokenId) : Option MerkleTree :=
  (MerkleTree.updateHash registry (MerkleTree.depthBound registry) tokenId tree).map (·.2)

/-- The update for the directory that `path` is in, if there is one. -/
def updateParent (tree : MerkleTree) (fs : FileSystem) (path : Path) : Option MerkleTree :=
  match (PathNormalizer.parent path).bind fs.pathCache.resolve with
  | some parentToken => updateHash tree fs.registry parentToken
  | none => some tree

/-- `save_file` with its two updates of the tree. -/
def saveFile (s : HashedFileSystem) (ticks : Nat) (id : TokenId) (path : Path) (data : List U8)
    (owner : Nat) (permissions : Permissions) :
    Option (Except FileError TokenId × HashedFileSystem) :=
  (s.files.saveFile ticks id path data owner permissions).bind fun r =>
    match r.1 with
    | .error e => some (.error e, { s with files := r.2 })
    | .ok tokenId =>
      (updateParent s.merkleTree r.2 path).bind fun tree =>
        (updateHash tree r.2.registry tokenId).map fun tree => (.ok tokenId, ⟨r.2, tree⟩)

/-- One call of `save_file`: when, with which random id, and what is saved. -/
structure Save where
  ticks : Nat
  id : TokenId
  path : Path
  data : List U8

/-- Save one file after the other; `none` when a save fails. -/
def saveAll (owner : Nat) (permissions : Permissions) (s : HashedFileSystem) :
    List Save → Option HashedFileSystem
  | [] => some s
  | save :: saves =>
    (s.saveFile save.ticks save.id save.path save.data owner permissions).bind fun r =>
      match r.1 with
      | .error _ => none
      | .ok _ => saveAll owner permissions r.2 saves

/-- What is saved, and where. -/
def Save.entry (save : Save) : Path × List U8 := (save.path, save.data)

/-- The hash of a file as `save_file` makes it. -/
def entryHash (entry : Path × List U8) : Hash :=
  MerkleTree.hashFile (Hash.ofData entry.2) entry.1 none

/-! ## The root is the file saved last -/

/-- What the tree reads of a token. -/
structure Leaf where
  id : TokenId
  path : Path
  contentHash : Hash
  tokenType : TokenType
  parent : Option TokenId

def leafOf (token : Token) : Leaf :=
  ⟨token.id, token.path, token.contentHash, token.tokenType, token.parent⟩

/-- The registry reduced to that. -/
def leaves (fs : FileSystem) : SortedMap TokenId Leaf := fs.registry.mapValues leafOf

/-- Every token is a file without a parent and registered under its id, every path leads to a token,
and the store has room. Two tokens may have drawn the same id. -/
structure Flat (fs : FileSystem) : Prop where
  accounted : fs.cas.Accounted
  unlimited : fs.cas.maxBytes = 0
  leaf : ∀ id leaf, (leaves fs).lookup id = some leaf →
    leaf.id = id ∧ leaf.tokenType = .file ∧ leaf.parent = none
  cached : ∀ path id, fs.pathCache.resolve path = some id → ((leaves fs).lookup id).isSome

theorem flat_new : Flat FileSystem.new where
  accounted := ContentAddressableStorage.accounted_new
  unlimited := rfl
  leaf := by intro id leaf h; cases h
  cached := by intro path id h; cases h

variable {fs fs' : FileSystem} {s s' : HashedFileSystem}

theorem lookup_leaves (id : TokenId) : (leaves fs).lookup id = (fs.registry.lookup id).map leafOf :=
  SortedMap.lookup_mapValues _ _ _

section

variable (h : Flat fs)
include h

theorem Flat.key (id : TokenId) (token : Token)
    (htoken : fs.registry.lookup id = some token) : token.id = id :=
  (h.leaf id (leafOf token) (by rw [lookup_leaves, htoken, map_some])).1

theorem Flat.registered (path : Path) (id : TokenId)
    (hresolve : fs.pathCache.resolve path = some id) : (fs.registry.lookup id).isSome := by
  have hsome := h.cached path id hresolve
  rwa [lookup_leaves, isSome_map] at hsome

/-- A new file takes its place among the others, or the place of the one that has its id. -/
theorem Flat.enter {cas : ContentAddressableStorage} (haccounted : cas.Accounted)
    (hmax : cas.maxBytes = 0) (id : TokenId) (path : Path) (contentHash : Hash)
    (hleaves : leaves fs' = (leaves fs).insert id ⟨id, path, contentHash, .file, none⟩)
    (hcas : fs'.cas = cas) (hcache : fs'.pathCache = fs.pathCache.insert path id) : Flat fs' where
  accounted := hcas ▸ haccounted
  unlimited := hcas ▸ hmax
  leaf := by
    intro id' leaf hlookup
    rw [hleaves, SortedMap.lookup_insert] at hlookup
    split at hlookup
    next heq =>
      obtain rfl := some.inj hlookup
      exact ⟨heq.symm, rfl, rfl⟩
    · exact h.leaf _ _ hlookup
  cached := by
    intro path' id' hresolve
    rw [hcache, PathCache.resolve_insert] at hresolve
    rw [hleaves, SortedMap.lookup_insert]
    split
    · rfl
    next hid =>
      split at hresolve
      · exact absurd (some.inj hresolve).symm hid
      · exact h.cached _ _ hresolve

/-- `save_file` adds one file. -/
theorem Flat.saveFile (ticks : Nat) (id : TokenId) (path : Path) (data : List U8)
    (owner : Nat) (permissions : Permissions) :
    ∃ fs', fs.saveFile ticks id path data owner permissions = some (.ok id, fs') ∧ Flat fs' ∧
      (leaves fs').lookup id = some ⟨id, path, Hash.ofData data, .file, none⟩ := by
  obtain ⟨cas, hput, haccounted, hmax, -⟩ := ContentAddressableStorage.put_of_unlimited h.accounted
    h.unlimited (FileSystem.currentTime ticks) data
  let token := Token.newFile id path (Hash.ofData data) owner data.length permissions
  let saved : FileSystem := ⟨cas, fs.pathCache.insert path id, token.register fs.registry⟩
  have hleaves : leaves saved =
      (leaves fs).insert id ⟨id, path, Hash.ofData data, .file, none⟩ :=
    SortedMap.mapValues_insert _ _ _ _
  have hsaved : Flat saved := h.enter haccounted hmax id path _ hleaves rfl rfl
  obtain ⟨fs', hedit, hcas', hcache', hleaves'⟩ := FileSystem.editParent_mapValues leafOf
    (fun parent => { FileSystem.addChild id parent with modified := 0 }) (fun _ => rfl)
    (fun _ => rfl) hsaved.key hsaved.registered path
  refine ⟨fs', ?_, h.enter haccounted hmax id path _ (hleaves'.trans hleaves) hcas' hcache', ?_⟩
  · rw [FileSystem.saveFile, hput, bind_some]
    show (saved.editParent path _).map _ = _
    rw [hedit]
    rfl
  · rw [show leaves fs' = _ from hleaves'.trans hleaves, SortedMap.lookup_insert_self]

/-- Updating a registered token makes it the root. -/
theorem Flat.updateHash {id : TokenId} {leaf : Leaf} (hleaf : (leaves fs).lookup id = some leaf)
    (tree : MerkleTree) : ∃ tree', HashedFileSystem.updateHash tree fs.registry id = some tree' ∧
      tree'.rootHash = some (MerkleTree.hashFile leaf.contentHash leaf.path none) := by
  obtain ⟨-, hfile, hparent⟩ := h.leaf id leaf hleaf
  rw [lookup_leaves] at hleaf
  obtain ⟨token, htoken, rfl⟩ := map_eq_some_iff.mp hleaf
  obtain ⟨tree', hupdate, hroot⟩ := MerkleTree.updateHash_file tree htoken hfile hparent
  exact ⟨tree', by rw [HashedFileSystem.updateHash, hupdate, map_some], hroot⟩

/-- The directory, if it is registered, is a file like any other. -/
theorem Flat.updateParent (tree : MerkleTree) (path : Path) :
    ∃ tree', HashedFileSystem.updateParent tree fs path = some tree' := by
  unfold HashedFileSystem.updateParent
  split
  next parentToken hresolve =>
    obtain ⟨parentPath, -, hparent⟩ := bind_eq_some_iff.mp hresolve
    obtain ⟨leaf, hleaf⟩ := isSome_iff_exists.mp (h.cached _ _ hparent)
    obtain ⟨tree', hupdate, -⟩ := h.updateHash hleaf tree
    exact ⟨tree', hupdate⟩
  · exact ⟨tree, rfl⟩

end

variable (owner : Nat) (permissions : Permissions)

/-- **One save** succeeds and makes the file the root. -/
theorem saveFile_spec (h : Flat s.files) (ticks : Nat) (id : TokenId) (path : Path)
    (data : List U8) :
    ∃ s', s.saveFile ticks id path data owner permissions = some (.ok id, s') ∧ Flat s'.files ∧
      s'.merkleTree.rootHash = some (entryHash (path, data)) := by
  obtain ⟨fs', hsave, hflat, hleaf⟩ := h.saveFile ticks id path data owner permissions
  obtain ⟨tree, htree⟩ := hflat.updateParent s.merkleTree path
  obtain ⟨tree', hupdate, hroot⟩ := hflat.updateHash hleaf tree
  refine ⟨⟨fs', tree'⟩, ?_, hflat, hroot⟩
  rw [saveFile, hsave, bind_some]
  dsimp only
  rw [htree, bind_some, hupdate, map_some]

/-- **Any number of saves** succeed, and the root is the file saved last. -/
theorem saveAll_spec (h : Flat s.files) (saves : List Save) :
    ∃ s', s.saveAll owner permissions saves = some s' ∧
      s'.merkleTree.rootHash =
        ((saves.map Save.entry).getLast?.map entryHash).or s.merkleTree.rootHash := by
  induction saves generalizing s with
  | nil => exact ⟨s, rfl, rfl⟩
  | cons save saves ih =>
    obtain ⟨s₁, hsave, hflat, hroot⟩ :=
      saveFile_spec owner permissions h save.ticks save.id save.path save.data
    obtain ⟨s', hall, hroot'⟩ := ih hflat
    refine ⟨s', ?_, ?_⟩
    · rw [saveAll, hsave, bind_some]
      exact hall
    · rw [hroot', hroot, List.map_cons, List.getLast?_cons]
      cases (saves.map Save.entry).getLast? <;> rfl

/-- The root after some saves is the hash of the last. -/
theorem rootHash_saveAll {saves : List Save}
    (hsaves : new.saveAll owner permissions saves = some s) :
    s.merkleTree.rootHash = (saves.map Save.entry).getLast?.map entryHash := by
  obtain ⟨s', hs', hroot⟩ := saveAll_spec owner permissions (s := new) flat_new saves
  obtain rfl := some.inj (hsaves.symm.trans hs')
  rw [hroot]
  exact or_none

/-- Any entry can be the last one saved. -/
theorem exists_saves_last {entries : List (Path × List U8)} {entry : Path × List U8}
    (hentry : entry ∈ entries) : ∃ saves : List Save, (saves.map Save.entry).Perm entries ∧
      (saves.map Save.entry).getLast? = some entry := by
  obtain ⟨before, after, rfl⟩ := List.append_of_mem hentry
  let saves : List Save := (before ++ after ++ [entry]).map fun e => ⟨0, 0, e.1, e.2⟩
  have hentries : saves.map Save.entry = before ++ after ++ [entry] := by
    rw [List.map_map]
    exact List.map_id _
  refine ⟨saves, ?_, by rw [hentries, List.getLast?_concat]⟩
  rw [hentries, List.append_assoc]
  exact List.perm_append_comm.append_left before

/-- Where all entries have one hash, it does not matter which comes last. -/
theorem map_getLast?_of_perm {entries order order' : List (Path × List U8)}
    (hsame : ∀ entry ∈ entries, ∀ entry' ∈ entries, entryHash entry = entryHash entry')
    (hperm : order.Perm entries) (hperm' : order'.Perm entries) :
    order.getLast?.map entryHash = order'.getLast?.map entryHash := by
  have hlasts : ∀ l : List (Path × List U8), l.Perm entries → ∀ entry ∈ entries,
      l.getLast?.map entryHash = some (entryHash entry) := by
    intro l hl entry hentry
    obtain ⟨last, hlast⟩ : ∃ last, l.getLast? = some last := by
      apply ne_none_iff_exists'.mp
      intro hnone
      rw [List.getLast?_eq_none_iff.mp hnone] at hl
      rw [← hl.nil_eq] at hentry
      cases hentry
    rw [hlast, map_some, hsame last (hl.subset (List.mem_of_getLast? hlast)) entry hentry]
  cases entries with
  | nil => rw [hperm.eq_nil, hperm'.eq_nil]
  | cons entry entries =>
    rw [hlasts order hperm entry List.mem_cons_self, hlasts order' hperm' entry List.mem_cons_self]

/-- **The root depends on the order of the saves.** Starting from an empty file system, any two
orders of saving a set of files, with any random ids, give the same root exactly if all the files
have the same hash. -/
theorem root_independent_iff (entries : List (Path × List U8)) :
    (∀ saves saves' s s', (saves.map Save.entry).Perm entries →
        (saves'.map Save.entry).Perm entries → new.saveAll owner permissions saves = some s →
        new.saveAll owner permissions saves' = some s' →
        s.merkleTree.rootHash = s'.merkleTree.rootHash) ↔
      ∀ entry ∈ entries, ∀ entry' ∈ entries, entryHash entry = entryHash entry' := by
  constructor
  · intro hindependent entry hentry entry' hentry'
    obtain ⟨saves, hperm, hlast⟩ := exists_saves_last hentry
    obtain ⟨saves', hperm', hlast'⟩ := exists_saves_last hentry'
    obtain ⟨s, hs, -⟩ := saveAll_spec owner permissions (s := new) flat_new saves
    obtain ⟨s', hs', -⟩ := saveAll_spec owner permissions (s := new) flat_new saves'
    have hroots := hindependent saves saves' s s' hperm hperm' hs hs'
    rw [rootHash_saveAll owner permissions hs, rootHash_saveAll owner permissions hs', hlast,
      hlast'] at hroots
    exact some.inj hroots
  · intro hsame saves saves' s s' hperm hperm' hs hs'
    rw [rootHash_saveAll owner permissions hs, rootHash_saveAll owner permissions hs']
    exact map_getLast?_of_perm hsame hperm hperm'

/-- Two files with the same content. -/
def twoFiles : List Save := [⟨0, 1, "/a".toList, [7]⟩, ⟨0, 2, "/b".toList, [7]⟩]

/-- The last file saved decides the root. -/
theorem root_depends_on_order :
    ∃ s s', new.saveAll 5 Permissions.all twoFiles = some s ∧
      new.saveAll 5 Permissions.all twoFiles.reverse = some s' ∧
      s.merkleTree.rootHash ≠ s'.merkleTree.rootHash := by
  obtain ⟨s, hs, -⟩ := saveAll_spec 5 Permissions.all (s := new) flat_new twoFiles
  obtain ⟨s', hs', -⟩ := saveAll_spec 5 Permissions.all (s := new) flat_new twoFiles.reverse
  refine ⟨s, s', hs, hs', ?_⟩
  rw [rootHash_saveAll 5 Permissions.all hs, rootHash_saveAll 5 Permissions.all hs']
  decide +kernel

end HashedFileSystem

end BeastOs.Fs
