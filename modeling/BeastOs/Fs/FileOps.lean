import BeastOs.Fs.Token

/-!
# File operations

`FileSystem` of `fs/file_ops.rs`, together with the global token registry it works on. The Merkle
tree is left out: every operation writes to it and none looks at it or at the results of its
updates.

An operation has no result (`none`) when it panics, at the `unwrap` of a missing parent token or at
an underflow in the store. Every `Err` keeps the state reached so far.

The operations update children lists, paths and times of tokens on their way. What matters of a
token is its `File`, the part that says whose file it is and where its content is; `files` is the
registry reduced to that. One lemma for each operation says what it does to the store, the files and
the paths.
-/

namespace BeastOs.Fs

open Function Option Lib Storage ContentAddressableStorage

inductive FileError
  | notFound
  | permissionDenied
  | corrupted
  | outOfSpace
  | alreadyExists
  | invalidPath
  deriving DecidableEq, Repr

structure FileSystem where
  cas : ContentAddressableStorage
  pathCache : PathCache
  registry : Registry

namespace FileSystem

/-- An empty file system and an empty registry. -/
def new : FileSystem := ⟨.new, .new, SortedMap.empty⟩

/-- The time the store uses, from the timer's ticks. -/
def currentTime (ticks : Nat) : Nat := ticks / 100

/-- Change the token of the directory that `path` is in, if there is one, and register it again. -/
def editParent (fs : FileSystem) (path : Path) (edit : Token → Token) : Option FileSystem :=
  match PathNormalizer.parent path with
  | none => some fs
  | some parentPath =>
    match fs.pathCache.resolve parentPath with
    | none => some fs
    | some parentToken =>
      -- the `unwrap`
      (fs.registry.lookup parentToken).map fun parent =>
        { fs with registry := (edit parent).register fs.registry }

def addChild (id : TokenId) (parent : Token) : Token :=
  { parent with children := parent.children ++ [id] }

def removeChild (id : TokenId) (parent : Token) : Token :=
  { parent with children := parent.children.filter fun child => child ≠ id }

/-- The first steps of every operation on an existing file. -/
def authorize (fs : FileSystem) (ticks : Nat) (path : Path) (required : Permissions)
    (userId : Nat) : Option (Except FileError (TokenId × Token)) :=
  match fs.pathCache.resolve path with
  | none => some (.error .notFound)
  | some tokenId =>
    match fs.registry.lookup tokenId with
    | none => some (.error .notFound)
    | some token =>
      (token.checkPermission fs.registry ticks required userId (Token.chainBound fs.registry)).map
        fun allowed => if allowed then .ok (tokenId, token) else .error .permissionDenied

/-- `id` is the random id of the new token. -/
def saveFile (fs : FileSystem) (ticks : Nat) (id : TokenId) (path : Path) (data : List U8)
    (owner : Nat) (permissions : Permissions) : Option (Except FileError TokenId × FileSystem) :=
  (fs.cas.put (currentTime ticks) data).bind fun r =>
    match r.1 with
    | .error _ => some (.error .outOfSpace, { fs with cas := r.2 })
    | .ok contentHash =>
      let token := Token.newFile id path contentHash owner data.length permissions
      let saved : FileSystem :=
        ⟨r.2, fs.pathCache.insert path id, token.register fs.registry⟩
      (saved.editParent path fun parent => { addChild id parent with modified := 0 }).map
        fun fs => (.ok id, fs)

def readFile (fs : FileSystem) (ticks : Nat) (path : Path) (userId : Nat) :
    Option (Except FileError (List U8) × FileSystem) :=
  (fs.authorize ticks path Permissions.read userId).map fun r =>
    match r with
    | .error e => (.error e, fs)
    | .ok (_, token) =>
      let got := fs.cas.get (currentTime ticks) token.contentHash
      match got.1 with
      | some data => (.ok data, { fs with cas := got.2 })
      | none => (.error .corrupted, { fs with cas := got.2 })

def moveFile (fs : FileSystem) (ticks : Nat) (oldPath newPath : Path) (userId : Nat) :
    Option (Except FileError Unit × FileSystem) :=
  (fs.authorize ticks oldPath Permissions.write userId).bind fun r =>
    match r with
    | .error e => some (.error e, fs)
    | .ok (tokenId, token) =>
      let moved : FileSystem := { fs with
        pathCache := fs.pathCache.updatePath oldPath newPath
        registry := { token with path := newPath, modified := 0 }.register fs.registry }
      (moved.editParent oldPath (removeChild tokenId)).bind fun fs =>
        (fs.editParent newPath (addChild tokenId)).map fun fs => (.ok (), fs)

def copyFile (fs : FileSystem) (ticks : Nat) (id : TokenId) (srcPath dstPath : Path)
    (userId : Nat) : Option (Except FileError TokenId × FileSystem) :=
  (fs.authorize ticks srcPath Permissions.read userId).bind fun r =>
    match r with
    | .error e => some (.error e, fs)
    | .ok (_, srcToken) =>
      let newToken :=
        Token.newFile id dstPath srcToken.contentHash userId srcToken.size srcToken.permissions
      let copied : FileSystem :=
        ⟨(fs.cas.refInc srcToken.contentHash).2, fs.pathCache.insert dstPath id,
          newToken.register fs.registry⟩
      (copied.editParent dstPath (addChild id)).map fun fs => (.ok id, fs)

def deleteFile (fs : FileSystem) (ticks : Nat) (path : Path) (userId : Nat) :
    Option (Except FileError Unit × FileSystem) :=
  (fs.authorize ticks path Permissions.delete userId).bind fun r =>
    match r with
    | .error e => some (.error e, fs)
    | .ok (tokenId, token) =>
      (fs.cas.refDec token.contentHash).bind fun dropped =>
        (editParent { fs with cas := dropped.2 } path (removeChild tokenId)).map fun fs =>
          (.ok (), { fs with
            pathCache := fs.pathCache.remove path
            registry := fs.registry.erase tokenId })

end FileSystem

/-! ## Files -/

/-- A token without its children, path and times. -/
structure File where
  id : TokenId
  contentHash : Hash
  tokenType : TokenType
  permissions : Permissions
  owner : Nat
  expires : Option Nat
  deriving DecidableEq

def Token.file (token : Token) : File :=
  ⟨token.id, token.contentHash, token.tokenType, token.permissions, token.owner, token.expires⟩

/-- The file of a token made by `new_file`. -/
def File.fresh (id : TokenId) (contentHash : Hash) (owner : Nat) (permissions : Permissions) :
    File := ⟨id, contentHash, .file, permissions, owner, none⟩

/-- Whether the user has a right on the file. -/
def File.grants (file : File) (required : Permissions) (userId : Nat) : Prop :=
  file.owner = userId ∧ file.permissions.has required

namespace FileSystem

variable {fs fs' : FileSystem} {ticks userId : Nat} {path : Path} {id : TokenId}
  {required : Permissions}

def files (fs : FileSystem) : SortedMap TokenId File := fs.registry.mapValues Token.file

theorem lookup_files : fs.files.lookup id = (fs.registry.lookup id).map Token.file :=
  SortedMap.lookup_mapValues _ _ _

theorem files_registered {token : Token} (h : fs.registry.lookup id = some token) :
    fs.files.lookup id = some token.file := by
  rw [lookup_files, h, map_some]

/-- Every registered token is a file token that does not expire, registered under its own id; every
token the path cache knows is registered, and no two paths lead to one token. -/
structure Links (files : SortedMap TokenId File) (cache : PathCache) : Prop where
  file : ∀ id file, files.lookup id = some file →
    file.id = id ∧ file.tokenType = .file ∧ file.expires = none
  cached : ∀ path id, cache.resolve path = some id → (files.lookup id).isSome
  reverse : ∀ id path, cache.tokenToPath.lookup id = some path → (files.lookup id).isSome
  injective : ∀ path path' id, cache.resolve path = some id → cache.resolve path' = some id →
    path = path'

/-- The links are in order, the store's books are right and it has no limit. -/
structure Wired (fs : FileSystem) : Prop where
  accounted : fs.cas.Accounted
  unlimited : fs.cas.maxBytes = 0
  links : Links fs.files fs.pathCache

theorem wired_new : Wired new where
  accounted := accounted_new
  unlimited := rfl
  links :=
    { file := by intro id file h; cases h
      cached := by intro path id h; cases h
      reverse := by intro id path h; cases h
      injective := by intro path path' id h; cases h }

section Links

variable {files : SortedMap TokenId File} {cache : PathCache}

section

variable (h : Links files cache)
include h

theorem Links.not_resolved (hfresh : files.lookup id = none) (path : Path) :
    cache.resolve path ≠ some id := by
  intro hresolve
  have hsome := h.cached _ _ hresolve
  rw [hfresh] at hsome
  cases hsome

/-- A new file, not yet under any path. -/
theorem Links.register {hash : Hash} {owner : Nat} {permissions : Permissions} :
    Links (files.insert id (.fresh id hash owner permissions)) cache where
  file := by
    intro id' file hlookup
    rw [SortedMap.lookup_insert] at hlookup
    split at hlookup
    next heq =>
      obtain rfl := some.inj hlookup
      exact ⟨heq.symm, rfl, rfl⟩
    · exact h.file _ _ hlookup
  cached := by
    intro path id' hresolve
    rw [SortedMap.lookup_insert]
    split
    · rfl
    · exact h.cached _ _ hresolve
  reverse := by
    intro id' path hlookup
    rw [SortedMap.lookup_insert]
    split
    · rfl
    · exact h.reverse _ _ hlookup
  injective := h.injective

/-- A registered file that is under no path yet is put under one. -/
theorem Links.enter (hsome : (files.lookup id).isSome)
    (hnew : ∀ path, cache.resolve path ≠ some id) : Links files (cache.insert path id) where
  file := h.file
  cached := by
    intro path' id' hresolve
    rw [PathCache.resolve_insert] at hresolve
    split at hresolve
    · exact some.inj hresolve ▸ hsome
    · exact h.cached _ _ hresolve
  reverse := by
    intro id' path' hlookup
    by_cases hid : id' = id
    · exact hid ▸ hsome
    · exact h.reverse id' path' ((SortedMap.lookup_insert_of_ne _ _ hid).symm.trans hlookup)
  injective := by
    intro path₁ path₂ id' h₁ h₂
    rw [PathCache.resolve_insert] at h₁ h₂
    split at h₁
    next heq₁ =>
      split at h₂
      next heq₂ => exact heq₁.trans heq₂.symm
      · exact absurd (h₂.trans h₁.symm) (hnew path₂)
    · split at h₂
      · exact absurd (h₁.trans h₂.symm) (hnew path₁)
      · exact h.injective _ _ _ h₁ h₂

/-- A file moves to another path; what was there is under no path any more. -/
theorem Links.move {old new : Path} (hold : cache.resolve old = some id) :
    Links files (cache.updatePath old new) where
  file := h.file
  cached := by
    intro path id' hresolve
    rw [PathCache.resolve_updatePath hold] at hresolve
    split_ifs at hresolve
    · exact some.inj hresolve ▸ h.cached _ _ hold
    · exact h.cached _ _ hresolve
  reverse := by
    intro id' path hlookup
    have hupdate : (cache.updatePath old new).tokenToPath = cache.tokenToPath.insert id new := by
      have hlookup : cache.pathToToken.lookup old = some id := hold
      rw [PathCache.updatePath, hlookup]
    rw [hupdate, SortedMap.lookup_insert] at hlookup
    split at hlookup
    next heq => exact heq ▸ h.cached _ _ hold
    · exact h.reverse _ _ hlookup
  injective := by
    intro path₁ path₂ id' h₁ h₂
    rw [PathCache.resolve_updatePath hold] at h₁ h₂
    split_ifs at h₁ h₂ with e₁ e₂ e₃ e₄ e₅
    · exact e₁.trans e₂.symm
    · exact absurd (h.injective _ _ _ (h₂.trans h₁.symm) hold) e₃
    · exact absurd (h.injective _ _ _ (h₁.trans h₂.symm) hold) e₄
    · exact h.injective _ _ _ h₁ h₂

/-- A file and its path go. -/
theorem Links.remove (hpath : cache.resolve path = some id) :
    Links (files.erase id) (cache.remove path) where
  file := by
    intro id' file hlookup
    rw [SortedMap.lookup_erase] at hlookup
    split at hlookup
    · cases hlookup
    · exact h.file _ _ hlookup
  cached := by
    intro path' id' hresolve
    rw [PathCache.resolve_remove] at hresolve
    split at hresolve
    · cases hresolve
    next hne =>
      -- another path leads to another file
      have hid : id' ≠ id := fun heq => hne (h.injective _ _ _ (heq ▸ hresolve) hpath)
      rw [SortedMap.lookup_erase_of_ne _ hid]
      exact h.cached _ _ hresolve
  reverse := by
    intro id' path' hlookup
    have hremove : (cache.remove path).tokenToPath = cache.tokenToPath.erase id := by
      have hlookup : cache.pathToToken.lookup path = some id := hpath
      rw [PathCache.remove, hlookup]
    rw [hremove, SortedMap.lookup_erase] at hlookup
    split at hlookup
    · cases hlookup
    next hid =>
      rw [SortedMap.lookup_erase_of_ne _ hid]
      exact h.reverse _ _ hlookup
  injective := by
    intro path₁ path₂ id' h₁ h₂
    rw [PathCache.resolve_remove] at h₁ h₂
    split at h₁
    · cases h₁
    · split at h₂
      · cases h₂
      · exact h.injective _ _ _ h₁ h₂

end

end Links

/-- The edited parent is the token it was before up to what the edit changes, so nothing else does.
-/
theorem editParent_mapValues {α : Type} (g : Token → α) (edit : Token → Token)
    (hid : ∀ token, (edit token).id = token.id) (hedit : ∀ token, g (edit token) = g token)
    (hkey : ∀ id token, fs.registry.lookup id = some token → token.id = id)
    (hcached : ∀ path id, fs.pathCache.resolve path = some id → (fs.registry.lookup id).isSome)
    (path : Path) : ∃ fs', fs.editParent path edit = some fs' ∧ fs'.cas = fs.cas ∧
      fs'.pathCache = fs.pathCache ∧ fs'.registry.mapValues g = fs.registry.mapValues g := by
  unfold editParent
  split
  · exact ⟨fs, rfl, rfl, rfl, rfl⟩
  next parentPath _ =>
    split
    · exact ⟨fs, rfl, rfl, rfl, rfl⟩
    next parentToken hresolve =>
      obtain ⟨parent, hparent⟩ := isSome_iff_exists.mp (hcached _ _ hresolve)
      rw [hparent, map_some]
      refine ⟨_, rfl, rfl, rfl, ?_⟩
      -- the token is registered under its own id, which the edit keeps
      show (fs.registry.insert (edit parent).id (edit parent)).mapValues g = fs.registry.mapValues g
      rw [SortedMap.mapValues_insert, hid, hkey _ _ hparent, hedit]
      apply SortedMap.insert_eq_self
      rw [SortedMap.lookup_mapValues, hparent, map_some]

/-- The edited parent is the same file as before, so nothing that matters changes. -/
theorem editParent_spec (h : Links fs.files fs.pathCache) (path : Path) (edit : Token → Token)
    (hedit : ∀ token, (edit token).file = token.file) :
    ∃ fs', fs.editParent path edit = some fs' ∧ fs'.cas = fs.cas ∧
      fs'.pathCache = fs.pathCache ∧ fs'.files = fs.files := by
  apply editParent_mapValues Token.file edit (fun token => congrArg File.id (hedit token)) hedit
  · intro id token htoken
    have hfile := files_registered htoken
    exact (h.file _ _ hfile).1
  · intro path id hresolve
    have hsome := h.cached _ _ hresolve
    rwa [lookup_files, isSome_map] at hsome

/-- Nothing but the right the user has on the file decides. -/
theorem Wired.authorize (h : Wired fs) (ticks : Nat) (path : Path) (required : Permissions)
    (userId : Nat) : (∃ e, fs.authorize ticks path required userId = some (.error e)) ∨
      ∃ id token, fs.authorize ticks path required userId = some (.ok (id, token)) ∧
        fs.pathCache.resolve path = some id ∧ fs.registry.lookup id = some token ∧
        token.file.grants required userId := by
  unfold FileSystem.authorize
  split
  · exact .inl ⟨_, rfl⟩
  next id hresolve =>
    split
    · exact .inl ⟨_, rfl⟩
    next token htoken =>
      have hlookup := files_registered htoken
      obtain ⟨-, htype, hexpires⟩ := h.links.file _ _ hlookup
      have hshare : token.tokenType ≠ .share := by
        intro hshare
        have hfile : token.tokenType = .file := htype
        rw [hshare] at hfile
        cases hfile
      rw [Token.checkPermission_of_ne_share hshare hexpires, map_some]
      by_cases hgrants : token.owner = userId ∧ token.permissions.has required
      · exact .inr ⟨id, token, by simp [hgrants], hresolve, htoken, hgrants⟩
      · exact .inl ⟨.permissionDenied, by simp [hgrants]⟩

/-! ## What each operation does -/

theorem saveFile_spec (h : Wired fs) (hfresh : fs.files.lookup id = none) (ticks : Nat)
    (path : Path) (data : List U8) (owner : Nat) (permissions : Permissions) :
    ∃ fs', fs.saveFile ticks id path data owner permissions = some (.ok id, fs') ∧ Wired fs' ∧
      fs'.cas.held = update fs.cas.held (Hash.ofData data)
        (some (referenced data (fs.cas.held (Hash.ofData data)))) ∧
      fs'.files = fs.files.insert id (.fresh id (Hash.ofData data) owner permissions) ∧
      fs'.pathCache = fs.pathCache.insert path id := by
  obtain ⟨cas, hput, haccounted, hmax, hheld⟩ :=
    put_of_unlimited h.accounted h.unlimited (currentTime ticks) data
  let token := Token.newFile id path (Hash.ofData data) owner data.length permissions
  let saved : FileSystem := ⟨cas, fs.pathCache.insert path id, token.register fs.registry⟩
  have hfiles : saved.files = fs.files.insert id (.fresh id (Hash.ofData data) owner permissions) :=
    SortedMap.mapValues_insert _ _ _ _
  have hlinks : Links saved.files saved.pathCache := by
    rw [hfiles]
    exact h.links.register.enter (by simp) (h.links.not_resolved hfresh)
  obtain ⟨fs', hedit, hcas', hcache', hfiles'⟩ := editParent_spec hlinks path
    (fun parent => { addChild id parent with modified := 0 }) (fun _ => rfl)
  refine ⟨fs', ?_, ⟨?_, ?_, ?_⟩, ?_, hfiles'.trans hfiles, hcache'⟩
  · rw [saveFile, hput, bind_some]
    show (saved.editParent path _).map _ = _
    rw [hedit]
    rfl
  · rw [hcas']; exact haccounted
  · rw [hcas']; exact hmax
  · rw [hfiles', hcache']; exact hlinks
  · rw [hcas']; exact hheld

theorem readFile_spec (h : Wired fs) (ticks : Nat) (path : Path) (userId : Nat) :
    ∃ r, fs.readFile ticks path userId = some r ∧ Wired r.2 ∧ r.2.cas.held = fs.cas.held ∧
      r.2.files = fs.files ∧ r.2.pathCache = fs.pathCache := by
  unfold readFile
  obtain ⟨e, herror⟩ | ⟨id, token, hok, -⟩ := h.authorize ticks path Permissions.read userId
  · rw [herror, map_some]
    exact ⟨_, rfl, h, rfl, rfl, rfl⟩
  · rw [hok, map_some]
    refine ⟨_, rfl, ?_⟩
    have hwired : Wired { fs with cas := (fs.cas.get (currentTime ticks) token.contentHash).2 } :=
      { accounted := get_spec h.accounted _ _
        unlimited := (maxBytes_get _ _).trans h.unlimited
        links := h.links }
    have hheld : (fs.cas.get (currentTime ticks) token.contentHash).2.held = fs.cas.held :=
      held_get _ _
    dsimp only
    split
    · exact ⟨hwired, hheld, rfl, rfl⟩
    · exact ⟨hwired, hheld, rfl, rfl⟩

/-- What `move_file` does when it succeeds. -/
theorem moveFile_spec (h : Wired fs) (ticks : Nat) (old new : Path) (userId : Nat) :
    (∃ e, fs.moveFile ticks old new userId = some (.error e, fs)) ∨
      ∃ id fs', fs.moveFile ticks old new userId = some (.ok (), fs') ∧ Wired fs' ∧
        fs.pathCache.resolve old = some id ∧ fs'.cas = fs.cas ∧ fs'.files = fs.files ∧
        fs'.pathCache = fs.pathCache.updatePath old new := by
  unfold moveFile
  obtain ⟨e, herror⟩ | ⟨id, token, hok, hold, htoken, -⟩ :=
    h.authorize ticks old Permissions.write userId
  · rw [herror, bind_some]
    exact .inl ⟨e, rfl⟩
  · right
    rw [hok, bind_some]
    have hlookup := files_registered htoken
    let moved : FileSystem := { fs with
      pathCache := fs.pathCache.updatePath old new
      registry := { token with path := new, modified := 0 }.register fs.registry }
    have hfiles : moved.files = fs.files := by
      have hid : token.id = id := (h.links.file _ _ hlookup).1
      show (fs.registry.insert token.id _).mapValues Token.file = fs.files
      rw [SortedMap.mapValues_insert]
      show fs.files.insert token.id token.file = fs.files
      rw [hid]
      exact SortedMap.insert_eq_self hlookup
    have hlinks : Links moved.files moved.pathCache := by
      rw [hfiles]
      exact h.links.move hold
    obtain ⟨fs₁, hedit₁, hcas₁, hcache₁, hfiles₁⟩ :=
      editParent_spec hlinks old (removeChild id) (fun _ => rfl)
    obtain ⟨fs₂, hedit₂, hcas₂, hcache₂, hfiles₂⟩ :=
      editParent_spec (hfiles₁ ▸ hcache₁ ▸ hlinks) new (addChild id) (fun _ => rfl)
    have hcas : fs₂.cas = fs.cas := hcas₂.trans hcas₁
    have hcache : fs₂.pathCache = moved.pathCache := hcache₂.trans hcache₁
    have hfiles' : fs₂.files = moved.files := hfiles₂.trans hfiles₁
    refine ⟨id, fs₂, ?_, ⟨hcas ▸ h.accounted, hcas ▸ h.unlimited, ?_⟩, hold, hcas,
      hfiles'.trans hfiles, hcache⟩
    · show ((moved.editParent old _).bind _) = _
      rw [hedit₁, bind_some, hedit₂]
      rfl
    · rw [hfiles', hcache]
      exact hlinks

/-- What `copy_file` does when it succeeds. -/
theorem copyFile_spec (h : Wired fs) (hfresh : fs.files.lookup id = none) (ticks : Nat)
    (src dst : Path) (userId : Nat) :
    (∃ e, fs.copyFile ticks id src dst userId = some (.error e, fs)) ∨
      ∃ srcId file fs', fs.copyFile ticks id src dst userId = some (.ok id, fs') ∧ Wired fs' ∧
        fs.pathCache.resolve src = some srcId ∧ fs.files.lookup srcId = some file ∧
        fs'.cas.held = update fs.cas.held file.contentHash
          ((fs.cas.held file.contentHash).map fun e => (e.1, e.2 + 1)) ∧
        fs'.files = fs.files.insert id (.fresh id file.contentHash userId file.permissions) ∧
        fs'.pathCache = fs.pathCache.insert dst id := by
  unfold copyFile
  obtain ⟨e, herror⟩ | ⟨srcId, token, hok, hsrc, htoken, -⟩ :=
    h.authorize ticks src Permissions.read userId
  · rw [herror, bind_some]
    exact .inl ⟨e, rfl⟩
  · right
    rw [hok, bind_some]
    have hlookup := files_registered htoken
    let newToken := Token.newFile id dst token.contentHash userId token.size token.permissions
    let copied : FileSystem :=
      ⟨(fs.cas.refInc token.contentHash).2, fs.pathCache.insert dst id,
        newToken.register fs.registry⟩
    have hfiles : copied.files =
        fs.files.insert id (.fresh id token.contentHash userId token.permissions) :=
      SortedMap.mapValues_insert _ _ _ _
    have hlinks : Links copied.files copied.pathCache := by
      rw [hfiles]
      exact h.links.register.enter (by simp) (h.links.not_resolved hfresh)
    obtain ⟨fs', hedit, hcas, hcache, hfiles'⟩ :=
      editParent_spec hlinks dst (addChild id) (fun _ => rfl)
    refine ⟨srcId, token.file, fs', ?_, ⟨?_, ?_, ?_⟩, hsrc, hlookup, ?_, hfiles'.trans hfiles,
      hcache⟩
    · show (copied.editParent dst _).map _ = _
      rw [hedit]
      rfl
    · rw [hcas]; exact refInc_spec h.accounted _
    · rw [hcas]; exact (maxBytes_refInc _).trans h.unlimited
    · rw [hfiles', hcache]; exact hlinks
    · rw [hcas]; exact held_refInc _

/-- What `delete_file` does when it succeeds. -/
theorem deleteFile_spec (h : Wired fs) (ticks : Nat) (path : Path) (userId : Nat) :
    (∃ e, fs.deleteFile ticks path userId = some (.error e, fs)) ∨
      ∃ id file fs', fs.deleteFile ticks path userId = some (.ok (), fs') ∧ Wired fs' ∧
        fs.pathCache.resolve path = some id ∧ fs.files.lookup id = some file ∧
        fs'.cas.held = update fs.cas.held file.contentHash
          ((fs.cas.held file.contentHash).bind fun e =>
            if e.2 = 1 then none else some (e.1, e.2 - 1)) ∧
        fs'.files = fs.files.erase id ∧ fs'.pathCache = fs.pathCache.remove path := by
  unfold deleteFile
  obtain ⟨e, herror⟩ | ⟨id, token, hok, hpath, htoken, -⟩ :=
    h.authorize ticks path Permissions.delete userId
  · rw [herror, bind_some]
    exact .inl ⟨e, rfl⟩
  · right
    rw [hok, bind_some]
    have hlookup := files_registered htoken
    obtain ⟨dropped, hdec, haccounted, hmax, hheld⟩ :=
      held_refDec h.accounted token.contentHash
    let released : FileSystem := { fs with cas := dropped.2 }
    have hlinks : Links released.files released.pathCache := h.links
    obtain ⟨fs₁, hedit, hcas, hcache, hfiles⟩ :=
      editParent_spec hlinks path (removeChild id) (fun _ => rfl)
    have hfiles' : FileSystem.files
        { fs₁ with pathCache := fs₁.pathCache.remove path, registry := fs₁.registry.erase id } =
        fs.files.erase id := by
      show (fs₁.registry.erase id).mapValues Token.file = fs.files.erase id
      rw [SortedMap.mapValues_erase]
      exact congrArg (·.erase id) hfiles
    have hcache' : fs₁.pathCache.remove path = fs.pathCache.remove path :=
      congrArg (·.remove path) hcache
    refine ⟨id, token.file, _, ?_, ⟨?_, ?_, ?_⟩, hpath, hlookup, ?_, hfiles', hcache'⟩
    · show (fs.cas.refDec token.contentHash).bind _ = _
      rw [hdec, bind_some]
      show (released.editParent path _).map _ = _
      rw [hedit]
      rfl
    · show fs₁.cas.Accounted
      rw [hcas]
      exact haccounted
    · show fs₁.cas.maxBytes = 0
      rw [hcas]
      exact hmax.trans h.unlimited
    · rw [hfiles']
      show Links _ (fs₁.pathCache.remove path)
      rw [hcache']
      exact h.links.remove hpath
    · show fs₁.cas.held = _
      rw [hcas]
      exact hheld

end FileSystem

end BeastOs.Fs
