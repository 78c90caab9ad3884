import BeastOs.Fs.FileOps

/-!
# Reference counts match tokens

Calls of the file system's operations in any order, from an empty file system and registry. `Effect`
says once what a call can do; the count of an object is compared with the number of tokens that
refer to it in one lemma for each effect.

Main result: `refCounts_match_tokens`.
-/

namespace BeastOs.Fs

open Option Lib Storage ContentAddressableStorage

/-- A call; `id` is the random id of the token it creates. -/
inductive Op
  | save (id : TokenId) (path : Path) (data : List U8) (owner : Nat) (permissions : Permissions)
  | read (path : Path) (userId : Nat)
  | move (oldPath newPath : Path) (userId : Nat)
  | copy (id : TokenId) (srcPath dstPath : Path) (userId : Nat)
  | delete (path : Path) (userId : Nat)

/-- A call at a time. -/
structure Call where
  ticks : Nat
  op : Op

/-- The id a call draws is not in use. -/
def Op.Fresh (fs : FileSystem) : Op → Prop
  | .save id .. | .copy id .. => fs.registry.lookup id = none
  | _ => True

instance (fs : FileSystem) : (op : Op) → Decidable (op.Fresh fs)
  | .save id .. | .copy id .. => inferInstanceAs (Decidable (fs.registry.lookup id = none))
  | .read .. | .move .. | .delete .. => inferInstanceAs (Decidable True)

namespace FileSystem

/-- Whether the call succeeded, and the state after it. -/
def run (fs : FileSystem) (call : Call) : Option (Except FileError Unit × FileSystem) :=
  match call.op with
  | .save id path data owner permissions =>
    (fs.saveFile call.ticks id path data owner permissions).map fun r => (r.1.map fun _ => (), r.2)
  | .read path userId =>
    (fs.readFile call.ticks path userId).map fun r => (r.1.map fun _ => (), r.2)
  | .move oldPath newPath userId => fs.moveFile call.ticks oldPath newPath userId
  | .copy id srcPath dstPath userId =>
    (fs.copyFile call.ticks id srcPath dstPath userId).map fun r => (r.1.map fun _ => (), r.2)
  | .delete path userId => fs.deleteFile call.ticks path userId

def step (fs : FileSystem) (call : Call) : Option FileSystem :=
  if call.op.Fresh fs then (fs.run call).map (·.2) else none

/-- What a call can do to the store, the files and the paths. -/
inductive Effect (fs : FileSystem) : Op → Except FileError Unit → FileSystem → Prop
  | kept {op r fs'} (hquiet : (∃ path userId, op = .read path userId) ∨ ∃ e, r = .error e)
      (hheld : fs'.cas.held = fs.cas.held) (hfiles : fs'.files = fs.files)
      (hcache : fs'.pathCache = fs.pathCache) : Effect fs op r fs'
  | saved {id path data owner permissions fs'} (hfresh : fs.files.lookup id = none)
      (hheld : fs'.cas.held = Function.update fs.cas.held (Hash.ofData data)
        (some (referenced data (fs.cas.held (Hash.ofData data)))))
      (hfiles : fs'.files = fs.files.insert id (.fresh id (Hash.ofData data) owner permissions))
      (hcache : fs'.pathCache = fs.pathCache.insert path id) :
      Effect fs (.save id path data owner permissions) (.ok ()) fs'
  | moved {old new userId id fs'} (hold : fs.pathCache.resolve old = some id)
      (hheld : fs'.cas.held = fs.cas.held) (hfiles : fs'.files = fs.files)
      (hcache : fs'.pathCache = fs.pathCache.updatePath old new) :
      Effect fs (.move old new userId) (.ok ()) fs'
  | copied {id src dst userId srcId file fs'} (hfresh : fs.files.lookup id = none)
      (hsrc : fs.pathCache.resolve src = some srcId) (hfile : fs.files.lookup srcId = some file)
      (hheld : fs'.cas.held = Function.update fs.cas.held file.contentHash
        ((fs.cas.held file.contentHash).map fun e => (e.1, e.2 + 1)))
      (hfiles : fs'.files = fs.files.insert id (.fresh id file.contentHash userId file.permissions))
      (hcache : fs'.pathCache = fs.pathCache.insert dst id) :
      Effect fs (.copy id src dst userId) (.ok ()) fs'
  | deleted {path userId id file fs'} (hpath : fs.pathCache.resolve path = some id)
      (hfile : fs.files.lookup id = some file)
      (hheld : fs'.cas.held = Function.update fs.cas.held file.contentHash
        ((fs.cas.held file.contentHash).bind fun e =>
          if e.2 = 1 then none else some (e.1, e.2 - 1)))
      (hfiles : fs'.files = fs.files.erase id)
      (hcache : fs'.pathCache = fs.pathCache.remove path) :
      Effect fs (.delete path userId) (.ok ()) fs'

variable {fs fs' : FileSystem} {call : Call} {op : Op} {r : Except FileError Unit} {id : TokenId}

theorem Effect.failed (e : FileError) : Effect fs op (.error e) fs :=
  .kept (.inr ⟨e, rfl⟩) rfl rfl rfl

theorem files_fresh (h : fs.registry.lookup id = none) : fs.files.lookup id = none := by
  rw [lookup_files, h, map_none]

/-- No call panics, and each does one of the things above. -/
theorem run_spec (h : Wired fs) (hfresh : call.op.Fresh fs) :
    ∃ r fs', fs.run call = some (r, fs') ∧ Wired fs' ∧ Effect fs call.op r fs' := by
  obtain ⟨ticks, op⟩ := call
  unfold run
  cases op with
  | save id path data owner permissions =>
    obtain ⟨fs', hsave, hwired, hheld, hfiles, hcache⟩ :=
      saveFile_spec h (files_fresh hfresh) ticks path data owner permissions
    refine ⟨.ok (), fs', ?_, hwired, .saved (files_fresh hfresh) hheld hfiles hcache⟩
    dsimp only
    rw [hsave]
    rfl
  | read path userId =>
    obtain ⟨r, hread, hwired, hheld, hfiles, hcache⟩ := readFile_spec h ticks path userId
    refine ⟨r.1.map fun _ => (), r.2, ?_, hwired,
      .kept (.inl ⟨path, userId, rfl⟩) hheld hfiles hcache⟩
    dsimp only
    rw [hread]
    rfl
  | move old new userId =>
    obtain ⟨e, he⟩ | ⟨id, fs', hmove, hwired, hold, hcas, hfiles, hcache⟩ :=
      moveFile_spec h ticks old new userId
    · exact ⟨_, fs, he, h, .failed e⟩
    · exact ⟨_, fs', hmove, hwired, .moved hold (congrArg _ hcas) hfiles hcache⟩
  | copy id src dst userId =>
    dsimp only
    obtain ⟨e, he⟩ | ⟨srcId, file, fs', hcopy, hwired, hsrc, hfile, hheld, hfiles, hcache⟩ :=
      copyFile_spec h (files_fresh hfresh) ticks src dst userId
    · exact ⟨.error e, fs, by rw [he]; rfl, h, .failed e⟩
    · exact ⟨.ok (), fs', by rw [hcopy]; rfl, hwired,
        .copied (files_fresh hfresh) hsrc hfile hheld hfiles hcache⟩
  | delete path userId =>
    obtain ⟨e, he⟩ | ⟨id, file, fs', hdelete, hwired, hpath, hfile, hheld, hfiles, hcache⟩ :=
      deleteFile_spec h ticks path userId
    · exact ⟨_, fs, he, h, .failed e⟩
    · exact ⟨_, fs', hdelete, hwired, .deleted hpath hfile hheld hfiles hcache⟩

/-! ## Counting references -/

/-- A file counts for the hash of its content. -/
def refersTo (hash : Hash) (file : File) : Nat :=
  if file.tokenType = .file ∧ file.contentHash = hash then 1 else 0

/-- The number of registered file tokens whose content is `hash`. -/
def references (fs : FileSystem) (hash : Hash) : Nat := fs.files.weight fun _ => refersTo hash

def Counted (fs : FileSystem) : Prop := ∀ hash, fs.cas.refCount hash = fs.references hash

theorem refersTo_fresh (hash hash' : Hash) (id : TokenId) (owner : Nat)
    (permissions : Permissions) :
    refersTo hash (.fresh id hash' owner permissions) = if hash = hash' then 1 else 0 := by
  unfold refersTo File.fresh
  simp [eq_comm]

theorem references_eq_countP (hash : Hash) : fs.references hash =
      fs.registry.entries.countP fun e => e.2.tokenType = .file ∧ e.2.contentHash = hash := by
  rw [← SortedMap.weight_indicator (m := fs.registry) fun _ token =>
    token.tokenType = .file ∧ token.contentHash = hash]
  simp only [references, SortedMap.weight, files, SortedMap.mapValues, List.map_map]
  congr 1
  apply List.map_congr_left
  intro e _
  simp [refersTo, Token.file]

theorem Wired.refersTo_file (h : Wired fs) {file : File} {hash : Hash}
    (hfile : fs.files.lookup id = some file) (hhash : file.contentHash = hash) :
    refersTo hash file = 1 := by
  rw [refersTo, if_pos ⟨(h.links.file _ _ hfile).2.1, hhash⟩]

/-- The content of every file is held, by at least one reference. -/
theorem Counted.held (hcount : Counted fs) (h : Wired fs) {file : File}
    (hfile : fs.files.lookup id = some file) :
    ∃ data n, fs.cas.held file.contentHash = some (data, n + 1) := by
  have hone := h.refersTo_file hfile rfl
  have hle : refersTo file.contentHash file ≤ fs.references file.contentHash :=
    SortedMap.le_weight (fun _ => refersTo file.contentHash) hfile
  rw [← hcount, refCount_eq_held, hone] at hle
  cases hheld : fs.cas.held file.contentHash with
  | none => simp [hheld] at hle
  | some e =>
    obtain ⟨data, n⟩ := e
    rw [hheld] at hle
    exact ⟨data, n - 1, by simp at hle; simp; omega⟩

/-- Two files with one content are two references. -/
theorem Counted.two_le (hcount : Counted fs) (h : Wired fs) {id' : TokenId} {file file' : File}
    (hne : id' ≠ id) (hfile : fs.files.lookup id = some file)
    (hfile' : fs.files.lookup id' = some file') (hhash : file'.contentHash = file.contentHash) :
    2 ≤ fs.cas.refCount file.contentHash := by
  have herase : (fs.files.erase id).lookup id' = some file' := by
    rw [SortedMap.lookup_erase_of_ne _ hne, hfile']
  have hle := SortedMap.le_weight (fun _ => refersTo file.contentHash) herase
  rw [hcount, references, SortedMap.weight_erase _ hfile, h.refersTo_file hfile rfl]
  rw [h.refersTo_file hfile' hhash] at hle
  omega

/-- The count of `hash` after an update of what is held at `hash'`. -/
theorem refCount_update {hash hash' : Hash} {entry : Option (List U8 × Nat)}
    (hheld : fs'.cas.held = Function.update fs.cas.held hash' entry) : fs'.cas.refCount hash =
      if hash = hash' then (entry.map (·.2)).getD 0 else fs.cas.refCount hash := by
  rw [refCount_eq_held, hheld, Function.update_apply]
  split
  · rfl
  · rw [refCount_eq_held]

/-- Every call keeps the counts equal to the numbers of tokens. -/
theorem Counted.effect (hcount : Counted fs) (h : Wired fs) (heffect : Effect fs op r fs') :
    Counted fs' := by
  intro hash
  have hcounted := hcount hash
  cases heffect with
  | kept _ hheld hfiles | moved _ hheld hfiles =>
    rw [references, hfiles, refCount_eq_held, hheld,
      ← refCount_eq_held]
    exact hcounted
  | @saved id path data owner permissions fs' hfresh hheld hfiles =>
    rw [references, hfiles, SortedMap.weight_insert_new _ _ hfresh, refersTo_fresh,
      refCount_update hheld, ← references, ← hcounted]
    split
    next heq =>
      rw [heq, refCount_eq_held]
      cases fs.cas.held (Hash.ofData data) with
      | none => rfl
      | some e => simp [referenced, add_comm]
    · rw [zero_add]
  | @copied id src dst userId srcId file fs' hfresh hsrc hfile hheld hfiles =>
    rw [references, hfiles, SortedMap.weight_insert_new _ _ hfresh, refersTo_fresh,
      refCount_update hheld, ← references, ← hcounted]
    split
    next heq =>
      -- the source refers to its content, so there is an object whose count goes up
      obtain ⟨data, n, hsome⟩ := hcount.held h hfile
      rw [heq, refCount_eq_held, hsome]
      simp [add_comm]
    · rw [zero_add]
  | @deleted path userId id file fs' hpath hfile hheld hfiles =>
    have hweight : fs.references hash = refersTo hash file + fs'.references hash := by
      rw [references, references, hfiles]
      exact SortedMap.weight_erase _ hfile
    rw [refCount_update hheld]
    split
    next heq =>
      obtain ⟨data, n, hsome⟩ := hcount.held h hfile
      rw [heq, refCount_eq_held, hsome] at hcounted
      rw [hsome, heq]
      rw [heq, h.refersTo_file hfile rfl] at hweight
      have hn : n + 1 = 1 + fs'.references file.contentHash := hcounted.trans hweight
      rw [bind_some]
      split
      next hlast =>
        show 0 = fs'.references file.contentHash
        omega
      · show n + 1 - 1 = fs'.references file.contentHash
        omega
    next hne =>
      rw [refersTo, if_neg (fun hc => hne hc.2.symm)] at hweight
      omega

/-! ## Any sequence of calls -/

/-- The state any sequence of calls leads to. -/
structure Consistent (fs : FileSystem) : Prop where
  wired : Wired fs
  counted : Counted fs

theorem consistent_new : Consistent new := ⟨wired_new, fun _ => rfl⟩

theorem Consistent.step (h : Consistent fs) (hstep : fs.step call = some fs') : Consistent fs' := by
  unfold FileSystem.step at hstep
  split at hstep
  next hfresh =>
    obtain ⟨r, fs₁, hrun, hwired, heffect⟩ := run_spec h.wired hfresh
    rw [hrun] at hstep
    obtain rfl := some.inj hstep
    exact ⟨hwired, h.counted.effect h.wired heffect⟩
  · cases hstep

theorem consistent_of_run {τ : List (Transition FileSystem Call)}
    (hrun : Run (Steps FileSystem.step) new τ fs) : Consistent fs :=
  hrun.invariant' consistent_new fun _ _ _ h hstep => h.step hstep

/-- **Reference counts match tokens.** After any sequence of calls the count of every object is the
number of registered file tokens that refer to it, so that every registered token's content is in
the store; every token id in the path cache is registered; and no further call panics. -/
theorem refCounts_match_tokens {τ : List (Transition FileSystem Call)}
    (hrun : Run (Steps FileSystem.step) new τ fs) :
    (∀ hash, fs.cas.refCount hash =
        fs.registry.entries.countP fun e => e.2.tokenType = .file ∧ e.2.contentHash = hash) ∧
      (∀ id token, fs.registry.lookup id = some token → fs.cas.exists token.contentHash) ∧
      (∀ path id, fs.pathCache.pathToToken.lookup path = some id →
        (fs.registry.lookup id).isSome) ∧
      (∀ id path, fs.pathCache.tokenToPath.lookup id = some path →
        (fs.registry.lookup id).isSome) ∧
      ∀ call : Call, call.op.Fresh fs → (fs.run call).isSome := by
  obtain ⟨hwired, hcounted⟩ := consistent_of_run hrun
  refine ⟨fun hash => ?_, fun id token htoken => ?_, fun path id hpath => ?_,
    fun id path hpath => ?_, fun call hfresh => ?_⟩
  · rw [hcounted, references_eq_countP]
  · have hfile := files_registered htoken
    obtain ⟨data, n, hheld⟩ := hcounted.held hwired hfile
    show (fs.cas.objects.lookup token.file.contentHash).isSome
    rw [← isSome_map, ← held, hheld]
    rfl
  · have hsome := hwired.links.cached path id hpath
    rwa [lookup_files, isSome_map] at hsome
  · have hsome := hwired.links.reverse id path hpath
    rwa [lookup_files, isSome_map] at hsome
  · obtain ⟨r, fs', hcall, -⟩ := run_spec hwired hfresh
    rw [hcall]
    rfl

/-- A file is saved, copied, and the copy moved onto the original, which stays registered without a
path; the copy is then deleted. -/
def moveOntoExisting : List Call :=
  [⟨0, .save 1 "/a".toList [7] 5 Permissions.all⟩, ⟨0, .copy 2 "/a".toList "/a/b".toList 5⟩,
    ⟨0, .move "/a/b".toList "/a".toList 5⟩, ⟨0, .delete "/a".toList 5⟩]

/-- One token is left, and one reference. -/
theorem refCounts_match_tokens_moveOntoExisting :
    ∃ fs, perform FileSystem.step new moveOntoExisting = some fs ∧
      fs.cas.refCount (Hash.ofData [7]) = 1 ∧
      fs.registry.entries.countP
        (fun e => e.2.tokenType = .file ∧ e.2.contentHash = Hash.ofData [7]) = 1 := by
  obtain ⟨fs, hfs⟩ : ∃ fs, perform FileSystem.step new moveOntoExisting = some fs :=
    isSome_iff_exists.mp (by decide +kernel)
  have hcount : (perform FileSystem.step new moveOntoExisting).map
      (fun fs => fs.cas.refCount (Hash.ofData [7])) = some 1 := by decide +kernel
  rw [hfs] at hcount
  obtain ⟨τ, hrun, -⟩ := exists_run_of_perform hfs
  have hmatch := (refCounts_match_tokens hrun).1 (Hash.ofData [7])
  exact ⟨fs, hfs, some.inj hcount, hmatch.symm.trans (some.inj hcount)⟩

end FileSystem

end BeastOs.Fs
