import BeastOs.Fs.References

/-!
# Stored objects and the paths that lead to them

A file that is saved, moved or copied onto a path in use takes the path over. The token that was
there stays registered and keeps its reference to its content, but no path leads to it any more, so
that nothing can release the content.

`everyObjectReachable_of_replacesNothing` says that this is the only way to lose an object: as long
as no call takes a path over, every registered file has a path (`Filed`), and the content of the
store is exactly what files refer to (`Counted`).
-/

namespace BeastOs.Fs

open Option Lib Storage

/-- The path a call puts a file under. -/
def Op.target : Op → Option Path
  | .save _ path .. => some path
  | .move _ newPath _ => some newPath
  | .copy _ _ dstPath _ => some dstPath
  | .read .. | .delete .. => none

namespace FileSystem

/-- Every object in the store is the content of a token that a path leads to. -/
def EveryObjectReachable (fs : FileSystem) : Prop :=
  ∀ hash, fs.cas.exists hash → ∃ path id token, fs.pathCache.resolve path = some id ∧
    fs.registry.lookup id = some token ∧ token.contentHash = hash

/-- A successful call puts its file under a path that is free, unless the file is moved onto its own
path. -/
def ReplacesNothing (t : Transition FileSystem Call) : Prop :=
  t.src.run t.label = some (.ok (), t.dst) → ∀ path, t.label.op.target = some path →
    t.src.pathCache.resolve path = none ∨ ∃ userId, t.label.op = .move path path userId

/-- Every registered file has a path. -/
def Filed (fs : FileSystem) : Prop :=
  ∀ id, (fs.files.lookup id).isSome → ∃ path, fs.pathCache.resolve path = some id

variable {fs fs' : FileSystem} {call : Call} {id : TokenId}

theorem filed_new : Filed new := by
  intro id h
  cases h

/-- A new file under a free path. -/
theorem Filed.enter (h : Filed fs) {file : File} {path : Path}
    (hfree : fs.pathCache.resolve path = none) (hfiles : fs'.files = fs.files.insert id file)
    (hcache : fs'.pathCache = fs.pathCache.insert path id) : Filed fs' := by
  intro id' hsome
  rw [hcache]
  by_cases hid : id' = id
  · exact ⟨path, by rw [PathCache.resolve_insert, if_pos rfl, hid]⟩
  · rw [hfiles, SortedMap.lookup_insert_of_ne _ _ hid] at hsome
    obtain ⟨path', hpath'⟩ := h id' hsome
    have hne : path' ≠ path := by
      rintro rfl
      rw [hfree] at hpath'
      cases hpath'
    exact ⟨path', by rw [PathCache.resolve_insert, if_neg hne, hpath']⟩

/-- A file moves to a path that is free or its own. -/
theorem Filed.move (h : Filed fs) {old new : Path} (hold : fs.pathCache.resolve old = some id)
    (hfree : fs.pathCache.resolve new = none ∨ new = old) (hfiles : fs'.files = fs.files)
    (hcache : fs'.pathCache = fs.pathCache.updatePath old new) : Filed fs' := by
  intro id' hsome
  rw [hfiles] at hsome
  rw [hcache]
  obtain ⟨path, hpath⟩ := h id' hsome
  by_cases hpo : path = old
  · have hid : id' = id := some.inj (hpath.symm.trans (hpo ▸ hold))
    exact ⟨new, by rw [PathCache.resolve_updatePath hold, if_pos rfl, hid]⟩
  · have hne : path ≠ new := by
      rintro rfl
      rcases hfree with hnone | heq
      · rw [hnone] at hpath
        cases hpath
      · exact hpo heq
    exact ⟨path, by rw [PathCache.resolve_updatePath hold, if_neg hne, if_neg hpo, hpath]⟩

/-- A file goes with its path. -/
theorem Filed.remove (h : Filed fs) {path : Path} (hpath : fs.pathCache.resolve path = some id)
    (hfiles : fs'.files = fs.files.erase id) (hcache : fs'.pathCache = fs.pathCache.remove path) :
    Filed fs' := by
  intro id' hsome
  rw [hfiles, SortedMap.lookup_erase] at hsome
  rw [hcache]
  split at hsome
  · cases hsome
  next hid =>
    obtain ⟨path', hpath'⟩ := h id' hsome
    have hne : path' ≠ path := by
      rintro rfl
      exact hid (some.inj (hpath'.symm.trans hpath))
    exact ⟨path', by rw [PathCache.resolve_remove, if_neg hne, hpath']⟩

/-- **One call** that takes no path over leaves every file with a path. -/
theorem Filed.step (h : Filed fs) (hwired : Wired fs) (hstep : fs.step call = some fs')
    (hnothing : ReplacesNothing ⟨fs, call, fs'⟩) : Filed fs' := by
  obtain ⟨ticks, op⟩ := call
  unfold FileSystem.step at hstep
  split at hstep
  next hfresh =>
    obtain ⟨r, fs₁, hrun, -, heffect⟩ := run_spec hwired hfresh
    rw [hrun] at hstep
    obtain rfl := some.inj hstep
    cases heffect with
    | kept _ _ hfiles hcache =>
      intro id hsome
      rw [hfiles] at hsome
      rw [hcache]
      exact h id hsome
    | saved _ _ hfiles hcache | copied _ _ _ _ hfiles hcache =>
      obtain hfree | ⟨_, hmove⟩ := hnothing hrun _ rfl
      · exact h.enter hfree hfiles hcache
      · cases hmove
    | moved hold _ hfiles hcache =>
      refine h.move hold ?_ hfiles hcache
      obtain hfree | ⟨_, hmove⟩ := hnothing hrun _ rfl
      · exact .inl hfree
      · cases hmove
        exact .inr rfl
    | deleted hpath _ _ hfiles hcache => exact h.remove hpath hfiles hcache
  · cases hstep

/-- What is stored is referenced by a registered token, and that token has a path. -/
theorem Consistent.everyObjectReachable (h : Consistent fs) (hfiled : Filed fs) :
    EveryObjectReachable fs := by
  intro hash hexists
  obtain ⟨object, hobject⟩ := isSome_iff_exists.mp hexists
  have hpos : 0 < fs.cas.refCount hash := by
    rw [ContentAddressableStorage.refCount, hobject]
    exact h.wired.accounted.referenced hash object hobject
  rw [h.counted, references_eq_countP] at hpos
  obtain ⟨⟨id, token⟩, hmem, htoken⟩ := List.countP_pos_iff.mp hpos
  have hlookup := SortedMap.lookup_of_mem hmem
  have hsome : (fs.files.lookup id).isSome := by
    rw [lookup_files, hlookup]
    rfl
  obtain ⟨path, hpath⟩ := hfiled id hsome
  exact ⟨path, id, token, hpath, hlookup, (of_decide_eq_true htoken).2⟩

/-- Without paths there is nothing in the store. -/
theorem EveryObjectReachable.empty (h : EveryObjectReachable fs)
    (hnone : ∀ path, fs.pathCache.resolve path = none) (hash : Hash) :
    fs.cas.exists hash = false := by
  rw [← Bool.not_eq_true]
  intro hexists
  obtain ⟨path, id, _, hpath, -⟩ := h hash hexists
  rw [hnone] at hpath
  cases hpath

/-- **Every stored object is reachable by a path** in every state of a run in which no call takes
over the path of another file, and the store is empty when the last path is gone. -/
theorem everyObjectReachable_of_replacesNothing {τ : List (Transition FileSystem Call)}
    (hrun : Run (Steps FileSystem.step) new τ fs) (hnothing : ∀ t ∈ τ, ReplacesNothing t) :
    ∀ t ∈ τ, EveryObjectReachable t.dst ∧
      ((∀ path, t.dst.pathCache.resolve path = none) →
        ∀ hash, t.dst.cas.exists hash = false) := by
  have hstep : ∀ m call m', Consistent m ∧ Filed m → Steps FileSystem.step m call m' →
      ReplacesNothing ⟨m, call, m'⟩ → (Consistent m' ∧ Filed m') ∧ EveryObjectReachable m' ∧
        ((∀ path, m'.pathCache.resolve path = none) → ∀ hash, m'.cas.exists hash = false) := by
    rintro m call m' ⟨hconsistent, hfiled⟩ hstep hreplaces
    have hconsistent' := hconsistent.step hstep
    have hfiled' := hfiled.step hconsistent.wired hstep hreplaces
    have hreachable := hconsistent'.everyObjectReachable hfiled'
    exact ⟨⟨hconsistent', hfiled'⟩, hreachable, hreachable.empty⟩
  exact hrun.forall_of_invariant ⟨consistent_new, filed_new⟩ hstep hnothing

/-- User 5 saves a byte at `/a`. -/
def saveSeven : Call := ⟨0, .save 1 "/a".toList [7] 5 Permissions.all⟩

/-- Another byte is saved at the same path. -/
def saveEight : Call := ⟨0, .save 2 "/a".toList [8] 5 Permissions.all⟩

def deleteSaved : Call := ⟨0, .delete "/a".toList 5⟩

/-- The byte is deleted with its file. -/
theorem everyObjectReachable_deleted :
    ∃ fs τ, Run (Steps FileSystem.step) new τ fs ∧ τ.map (·.label) = [saveSeven, deleteSaved] ∧
      (∀ t ∈ τ, EveryObjectReachable t.dst) ∧ ∀ hash, fs.cas.exists hash = false := by
  obtain ⟨saved, hsave⟩ : ∃ fs, FileSystem.step new saveSeven = some fs :=
    isSome_iff_exists.mp (by decide +kernel)
  have hpaths : ((FileSystem.step new saveSeven).bind (FileSystem.step · deleteSaved)).map
      (fun fs => fs.pathCache.pathToToken.entries) = some [] := by decide +kernel
  rw [hsave, bind_some] at hpaths
  obtain ⟨deleted, hdelete, hentries⟩ := map_eq_some_iff.mp hpaths
  have hrun : Run (Steps FileSystem.step) new
      [⟨new, saveSeven, saved⟩, ⟨saved, deleteSaved, deleted⟩] deleted :=
    Run.cons hsave (Run.single hdelete)
  have hreachable := everyObjectReachable_of_replacesNothing hrun (by
    intro t ht
    simp only [List.mem_cons, List.not_mem_nil, or_false] at ht
    rcases ht with rfl | rfl
    · intro _ path _
      exact .inl rfl
    · intro _ path htarget
      cases htarget)
  refine ⟨deleted, _, hrun, rfl, fun t ht => (hreachable t ht).1, ?_⟩
  apply (hreachable ⟨saved, deleteSaved, deleted⟩ (by simp)).2
  intro path
  show SortedMap.find path deleted.pathCache.pathToToken.entries = none
  rw [hentries]
  rfl

/-- The content of the first file is still stored, and no path leads to it. -/
theorem not_everyObjectReachable_savedTwice :
    ∃ fs τ, Run (Steps FileSystem.step) new τ fs ∧ τ.map (·.label) = [saveSeven, saveEight] ∧
      ¬ EveryObjectReachable fs := by
  have hpaths : (perform FileSystem.step new [saveSeven, saveEight]).map
      (fun fs => fs.pathCache.pathToToken.entries) = some [("/a".toList, 2)] := by decide +kernel
  have hhashes : (perform FileSystem.step new [saveSeven, saveEight]).map
      (fun fs => (fs.cas.exists (Hash.ofData [7]), (fs.registry.lookup 2).map (·.contentHash))) =
      some (true, some (Hash.ofData [8])) := by decide +kernel
  obtain ⟨fs, hfs, hentries⟩ := map_eq_some_iff.mp hpaths
  rw [hfs, map_some] at hhashes
  obtain ⟨hstored, htwo⟩ := Prod.mk.inj (some.inj hhashes)
  obtain ⟨τ, hrun, hlabels⟩ := exists_run_of_perform hfs
  refine ⟨fs, τ, hrun, hlabels, fun hreachable => ?_⟩
  obtain ⟨path, id, token, hpath, htoken, hhash⟩ := hreachable (Hash.ofData [7]) hstored
  -- the only path leads to the second file
  have hid : id = 2 := by
    have hfind : SortedMap.find path [("/a".toList, (2 : TokenId))] = some id := hentries ▸ hpath
    simp only [SortedMap.find] at hfind
    split at hfind
    · exact (some.inj hfind).symm
    · cases hfind
  rw [hid] at htoken
  rw [htoken] at htwo
  have height : token.contentHash = Hash.ofData [8] := some.inj htwo
  rw [hhash] at height
  exact absurd height (by decide)

end FileSystem

end BeastOs.Fs
