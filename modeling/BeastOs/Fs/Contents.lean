import BeastOs.Fs.References

/-!
# What was saved is what is read

For its users a file system is a map from paths to contents: `save_file` sets a path, `move_file`
and `copy_file` carry the content of a path to another one, `delete_file` clears a path. This map is
recorded next to the file system, call by call. The file system's own way from a path to its content
goes through the path cache, the registry and the store (`stored`).

The two agree as long as no two files with different contents share a hash. They do not in general:
the store takes data whose hash it already holds for data it already has.

Main result: `readsBack_of_unambiguous`, with `readsBack_fails` for a run that saves two files.
-/

namespace BeastOs.Fs

open Option Function Lib Storage ContentAddressableStorage

/-- The contents a user expects. -/
abbrev Contents := Path → Option (List U8)

/-- What a call does to them; a call that fails does nothing. -/
def Contents.after (contents : Contents) : Op → Except FileError Unit → Contents
  | .save _ path data _ _, .ok () => Function.update contents path (some data)
  | .move old new _, .ok () =>
    Function.update (Function.update contents old none) new (contents old)
  | .copy _ src dst _, .ok () => Function.update contents dst (contents src)
  | .delete path _, .ok () => Function.update contents path none
  | _, _ => contents

/-- The file system and the contents expected of it. -/
structure Tracked where
  fs : FileSystem
  contents : Contents

namespace Tracked

def new : Tracked := ⟨.new, fun _ => none⟩

def step (s : Tracked) (call : Call) : Option Tracked :=
  if call.op.Fresh s.fs then
    (s.fs.run call).map fun r => ⟨r.2, s.contents.after call.op r.1⟩
  else none

/-- A user who may read the file at a path gets the content expected there. -/
def ReadsBack (s : Tracked) : Prop :=
  ∀ path data, s.contents path = some data → ∀ id token, s.fs.pathCache.resolve path = some id →
    s.fs.registry.lookup id = some token → ∀ ticks userId,
      token.checkPermission s.fs.registry ticks Permissions.read userId
        (Token.chainBound s.fs.registry) = some true →
      ∃ fs', s.fs.readFile ticks path userId = some (.ok data, fs')

/-- Data that are saved under a hash already in the store are the data stored there. -/
def Unambiguous (t : Transition Tracked Call) : Prop :=
  ∀ id path data owner permissions, t.label.op = .save id path data owner permissions →
    ∀ stored n, t.src.fs.cas.held (Hash.ofData data) = some (stored, n) → stored = data

end Tracked

namespace FileSystem

variable {fs fs' : FileSystem} {op : Op} {r : Except FileError Unit} {path path' : Path}
  {id : TokenId} {file : File}

/-- The way from a path to its content. -/
def stored (fs : FileSystem) : Contents := fun path =>
  (fs.pathCache.resolve path).bind fun id =>
    (fs.files.lookup id).bind fun file => (fs.cas.held file.contentHash).map (·.1)

theorem stored_of_resolve (hpath : fs.pathCache.resolve path = some id)
    (hfile : fs.files.lookup id = some file) :
    fs.stored path = (fs.cas.held file.contentHash).map (·.1) := by
  simp [stored, hpath, hfile]

/-- Only what a path resolves to, its file's hash and the data held there matter. -/
theorem stored_congr (hresolve : fs'.pathCache.resolve path = fs.pathCache.resolve path')
    (hfiles : ∀ id, fs.pathCache.resolve path' = some id → fs'.files.lookup id = fs.files.lookup id)
    (hdata : ∀ id file, fs.pathCache.resolve path' = some id → fs.files.lookup id = some file →
      (fs'.cas.held file.contentHash).map (·.1) = (fs.cas.held file.contentHash).map (·.1)) :
    fs'.stored path = fs.stored path' := by
  unfold stored
  rw [hresolve]
  cases hid : fs.pathCache.resolve path' with
  | none => rfl
  | some id =>
    rw [bind_some, bind_some, hfiles id hid]
    cases hfile : fs.files.lookup id with
    | none => rfl
    | some file =>
      exact hdata id file hid hfile

/-- One more reference to an object changes no data. -/
theorem held_referenced {hash : Hash} {data : List U8} {n : Nat} (more : List U8)
    (hheld : fs.cas.held hash = some (data, n)) (hash' : Hash)
    (hupdate : fs'.cas.held = update fs.cas.held hash'
      (some (referenced more (fs.cas.held hash')))) :
    (fs'.cas.held hash).map (·.1) = (fs.cas.held hash).map (·.1) := by
  rw [hupdate, update_apply]
  split
  next heq =>
    rw [← heq, hheld]
    rfl
  · rfl

/-- A new file at a path: its content is that of its hash. -/
theorem stored_insert_self (hfiles : fs'.files = fs.files.insert id file)
    (hcache : fs'.pathCache = fs.pathCache.insert path id) :
    fs'.stored path = (fs'.cas.held file.contentHash).map (·.1) := by
  have hresolve : fs'.pathCache.resolve path = some id := by
    rw [hcache, PathCache.resolve_insert, if_pos rfl]
  have hfile : fs'.files.lookup id = some file := by
    rw [hfiles, SortedMap.lookup_insert_self]
  exact stored_of_resolve hresolve hfile

/-- A new file at a path: what is stored elsewhere stays. -/
theorem stored_insert_of_ne {hash' : Hash} {more : List U8} (h : Consistent fs)
    (hfresh : fs.files.lookup id = none)
    (hheld : fs'.cas.held = update fs.cas.held hash' (some (referenced more (fs.cas.held hash'))))
    (hfiles : fs'.files = fs.files.insert id file)
    (hcache : fs'.pathCache = fs.pathCache.insert path id) (hne : path' ≠ path) :
    fs'.stored path' = fs.stored path' := by
  apply stored_congr
  · rw [hcache, PathCache.resolve_insert, if_neg hne]
  · intro id' hid'
    have hid : id' ≠ id := by
      rintro rfl
      exact h.wired.links.not_resolved hfresh path' hid'
    rw [hfiles, SortedMap.lookup_insert_of_ne _ _ hid]
  · intro id' file' _ hfile'
    obtain ⟨old, n, hold⟩ := h.counted.held h.wired hfile'
    exact held_referenced more hold _ hheld

/-- A file is deleted: what is stored elsewhere stays, for an object that another file refers to has
more than one reference. -/
theorem stored_delete_of_ne (h : Consistent fs) (hpath : fs.pathCache.resolve path = some id)
    (hfile : fs.files.lookup id = some file)
    (hheld : fs'.cas.held = update fs.cas.held file.contentHash
      ((fs.cas.held file.contentHash).bind fun e => if e.2 = 1 then none else some (e.1, e.2 - 1)))
    (hfiles : fs'.files = fs.files.erase id)
    (hcache : fs'.pathCache = fs.pathCache.remove path) (hne : path' ≠ path) :
    fs'.stored path' = fs.stored path' := by
  have hother : ∀ id', fs.pathCache.resolve path' = some id' → id' ≠ id := by
    rintro id' hid' rfl
    exact hne (h.wired.links.injective _ _ _ hid' hpath)
  apply stored_congr
  · rw [hcache, PathCache.resolve_remove, if_neg hne]
  · intro id' hid'
    rw [hfiles, SortedMap.lookup_erase_of_ne _ (hother id' hid')]
  · intro id' file' hid' hfile'
    rw [hheld, update_apply]
    split
    next heq =>
      obtain ⟨data, n, hdata⟩ := h.counted.held h.wired hfile
      have htwo := h.counted.two_le h.wired (hother id' hid') hfile hfile' heq
      rw [refCount_eq_held, hdata] at htwo
      have hmore : n + 1 ≠ 1 := by
        have htwo' : 2 ≤ n + 1 := htwo
        omega
      rw [heq, hdata, bind_some, if_neg hmore]
      rfl
    · rfl

/-- A file is moved: its content is at the new path, and no longer at the old one. -/
theorem stored_updatePath {old new : Path} (hold : fs.pathCache.resolve old = some id)
    (hheld : fs'.cas.held = fs.cas.held) (hfiles : fs'.files = fs.files)
    (hcache : fs'.pathCache = fs.pathCache.updatePath old new) (path : Path) : fs'.stored path =
      if path = new then fs.stored old else if path = old then none else fs.stored path := by
  have hresolve := PathCache.resolve_updatePath hold new path
  rw [← hcache] at hresolve
  have hkeep : ∀ path', fs'.pathCache.resolve path = fs.pathCache.resolve path' →
      fs'.stored path = fs.stored path' := by
    intro path' heq
    apply stored_congr heq
    · intro id' _
      rw [hfiles]
    · intro id' file _ _
      rw [hheld]
  split
  next hnew =>
    rw [if_pos hnew, ← hold] at hresolve
    exact hkeep old hresolve
  next hnew =>
    rw [if_neg hnew] at hresolve
    split
    next heq =>
      rw [if_pos heq] at hresolve
      rw [stored, hresolve, bind_none]
    next hne =>
      rw [if_neg hne] at hresolve
      exact hkeep path hresolve

/-- **One call.** What is stored changes as the call says. -/
theorem stored_effect (h : Consistent fs) (heffect : Effect fs op r fs')
    (hunambiguous : ∀ id path data owner permissions, op = .save id path data owner permissions →
      ∀ stored n, fs.cas.held (Hash.ofData data) = some (stored, n) → stored = data) :
    fs'.stored = Contents.after fs.stored op r := by
  cases heffect with
  | @kept op r fs' hquiet hheld hfiles hcache =>
    have hsame : fs'.stored = fs.stored := by
      unfold stored
      rw [hheld, hfiles, hcache]
    rw [hsame]
    rcases hquiet with ⟨path, userId, rfl⟩ | ⟨e, rfl⟩
    · rfl
    · cases op <;> rfl
  | @saved id path data owner permissions fs' hfresh hheld hfiles hcache =>
    funext path'
    show fs'.stored path' = update fs.stored path (some data) path'
    rw [update_apply]
    split
    next heq =>
      rw [heq, stored_insert_self hfiles hcache, hheld]
      show (update fs.cas.held (Hash.ofData data) _ (Hash.ofData data)).map _ = some data
      rw [update_self, map_some]
      -- the store keeps what it has, which is what is being saved
      cases hold : fs.cas.held (Hash.ofData data) with
      | none => rfl
      | some e => exact congrArg some (hunambiguous _ _ _ _ _ rfl e.1 e.2 hold)
    next hne => exact stored_insert_of_ne h hfresh hheld hfiles hcache hne
  | @moved old new userId id fs' hold hheld hfiles hcache =>
    funext path
    show fs'.stored path =
      update (update fs.stored old none) new (fs.stored old) path
    simp only [update_apply]
    exact stored_updatePath hold hheld hfiles hcache path
  | @copied id src dst userId srcId file fs' hfresh hsrc hfile hheld hfiles hcache =>
    obtain ⟨data, n, hdata⟩ := h.counted.held h.wired hfile
    -- the object of the source gets one more reference, its data stay
    have hreferenced : fs'.cas.held = update fs.cas.held file.contentHash
        (some (referenced [] (fs.cas.held file.contentHash))) := by
      rw [hheld, hdata]
      rfl
    funext path
    show fs'.stored path = update fs.stored dst (fs.stored src) path
    rw [update_apply]
    split
    next heq =>
      rw [heq, stored_insert_self hfiles hcache, stored_of_resolve hsrc hfile]
      exact held_referenced [] hdata _ hreferenced
    next hne => exact stored_insert_of_ne h hfresh hreferenced hfiles hcache hne
  | @deleted path userId id file fs' hpath hfile hheld hfiles hcache =>
    funext path'
    show fs'.stored path' = update fs.stored path none path'
    rw [update_apply]
    split
    next heq => rw [stored, hcache, PathCache.resolve_remove, if_pos heq, bind_none]
    next hne => exact stored_delete_of_ne h hpath hfile hheld hfiles hcache hne

/-- A user who may read a path whose content is stored gets it. -/
theorem readFile_of_stored {data : List U8} {token : Token} {ticks userId : Nat}
    (hstored : fs.stored path = some data) (hpath : fs.pathCache.resolve path = some id)
    (htoken : fs.registry.lookup id = some token)
    (hread : token.checkPermission fs.registry ticks Permissions.read userId
      (Token.chainBound fs.registry) = some true) :
    ∃ fs', fs.readFile ticks path userId = some (.ok data, fs') := by
  have hfile := files_registered htoken
  have hget : (fs.cas.get (currentTime ticks) token.contentHash).1 = some data := by
    rw [get_eq_held, ← hstored, stored_of_resolve hpath hfile]
    rfl
  refine ⟨{ fs with cas := (fs.cas.get (currentTime ticks) token.contentHash).2 }, ?_⟩
  simp only [readFile, authorize, hpath, htoken, hread, map_some, if_true, hget]

end FileSystem

/-! ## Any sequence of calls -/

namespace Tracked

variable {s s' : Tracked} {call : Call}

/-- The file system is consistent and stores what is expected. -/
structure Faithful (s : Tracked) : Prop where
  consistent : s.fs.Consistent
  contents : s.fs.stored = s.contents

theorem faithful_new : Faithful new := ⟨FileSystem.consistent_new, rfl⟩

theorem Faithful.step (h : Faithful s) (hstep : s.step call = some s')
    (hunambiguous : Unambiguous ⟨s, call, s'⟩) : Faithful s' := by
  unfold Tracked.step at hstep
  split at hstep
  next hfresh =>
    obtain ⟨r, fs', hrun, hwired, heffect⟩ := FileSystem.run_spec h.consistent.wired hfresh
    rw [hrun] at hstep
    obtain rfl := some.inj hstep
    refine ⟨⟨hwired, h.consistent.counted.effect h.consistent.wired heffect⟩, ?_⟩
    show fs'.stored = s.contents.after call.op r
    rw [← h.contents]
    exact FileSystem.stored_effect h.consistent heffect hunambiguous
  · cases hstep

/-- **Beast FS returns what was saved**, as long as no data are saved under the hash of other data:
after any sequence of such calls the paths that resolve are those with a content, and whoever may
read one of them gets that content. -/
theorem readsBack_of_unambiguous {τ : List (Transition Tracked Call)}
    (hrun : Run (Steps step) new τ s) (hunambiguous : ∀ t ∈ τ, Unambiguous t) :
    (∀ path, (s.fs.pathCache.resolve path).isSome = (s.contents path).isSome) ∧ ReadsBack s := by
  have h : Faithful s :=
    hrun.invariant (C := Unambiguous) faithful_new (fun _ _ _ h hstep hC => h.step hstep hC)
      hunambiguous
  refine ⟨fun path => ?_, ?_⟩
  · rw [← h.contents]
    cases hpath : s.fs.pathCache.resolve path with
    | none => rw [FileSystem.stored, hpath]; rfl
    | some id =>
      obtain ⟨file, hfile⟩ := isSome_iff_exists.mp
        (h.consistent.wired.links.cached _ _ hpath)
      obtain ⟨data, n, hheld⟩ := h.consistent.counted.held h.consistent.wired hfile
      rw [FileSystem.stored_of_resolve hpath hfile, hheld]
      rfl
  · intro path data hdata id token hpath htoken ticks userId hread
    rw [← h.contents] at hdata
    exact FileSystem.readFile_of_stored hdata hpath htoken hread

/-- User 5 saves one byte at `/a`. -/
def saveByte : Call := ⟨0, .save 1 "/a".toList [7] 5 Permissions.all⟩

/-- The file is copied to `/b`. -/
def copyByte : Call := ⟨0, .copy 2 "/a".toList "/b".toList 5⟩

/-- Two bytes are saved at `/b`, the second a zero. -/
def saveTwoBytes : Call := ⟨0, .save 2 "/b".toList [7, 0] 5 Permissions.all⟩

/-- The copy is read back. -/
theorem readsBack_copied : ∃ s τ, Run (Steps step) new τ s ∧ (∀ t ∈ τ, Unambiguous t) ∧
    s.contents "/b".toList = some [7] ∧ ReadsBack s := by
  obtain ⟨s₁, h₁⟩ : ∃ s, step new saveByte = some s :=
    isSome_iff_exists.mp (by decide +kernel)
  have hsome : ((step new saveByte).bind (step · copyByte)).isSome := by decide +kernel
  have hcontents : (((step new saveByte).bind (step · copyByte)).map
      fun s => s.contents "/b".toList) = some (some [7]) := by decide +kernel
  rw [h₁, bind_some] at hsome hcontents
  obtain ⟨s₂, h₂⟩ := isSome_iff_exists.mp hsome
  rw [h₂] at hcontents
  have hrun : Run (Steps step) new [⟨new, saveByte, s₁⟩, ⟨s₁, copyByte, s₂⟩] s₂ :=
    Run.cons h₁ (Run.single h₂)
  have hunambiguous : ∀ t ∈ [(⟨new, saveByte, s₁⟩ : Transition Tracked Call),
      ⟨s₁, copyByte, s₂⟩], Unambiguous t := by
    intro t ht
    rcases List.mem_cons.mp ht with rfl | ht
    · -- nothing is stored yet
      intro _ _ _ _ _ _ stored n hheld
      cases hheld
    · intro _ _ _ _ _ hop
      rw [List.mem_singleton.mp ht] at hop
      cases hop
  exact ⟨s₂, _, hrun, hunambiguous, some.inj hcontents,
    (readsBack_of_unambiguous hrun hunambiguous).2⟩

/-- `[7]` and `[7, 0]` have one hash: the second file reads as the first. -/
theorem readsBack_fails : ∃ s τ, Run (Steps step) new τ s ∧
    s.contents "/b".toList = some [7, 0] ∧
    (s.fs.readFile 0 "/b".toList 5).bind (·.1.toOption) = some [7] ∧ ¬ ReadsBack s := by
  have hall : (perform step new [saveByte, saveTwoBytes]).map (fun s =>
      (s.contents "/b".toList, (s.fs.readFile 0 "/b".toList 5).bind (·.1.toOption),
        s.fs.pathCache.resolve "/b".toList, (s.fs.registry.lookup 2).map fun token =>
          token.checkPermission s.fs.registry 0 Permissions.read 5
            (Token.chainBound s.fs.registry))) =
      some (some [7, 0], some [7], some 2, some (some true)) := by decide +kernel
  obtain ⟨s, hs, hfacts⟩ := map_eq_some_iff.mp hall
  simp only [Prod.mk.injEq] at hfacts
  obtain ⟨hcontents, hback, hpath, hallowed⟩ := hfacts
  obtain ⟨τ, hrun, -⟩ := exists_run_of_perform hs
  refine ⟨s, τ, hrun, hcontents, hback, fun hreads => ?_⟩
  obtain ⟨token, htoken, hallows⟩ := map_eq_some_iff.mp hallowed
  obtain ⟨fs', hread⟩ := hreads _ _ hcontents 2 token hpath htoken 0 5 hallows
  rw [hread] at hback
  have hsame : ([7, 0] : List U8) = [7] := some.inj hback
  exact absurd hsame (by decide)

end Tracked

end BeastOs.Fs
