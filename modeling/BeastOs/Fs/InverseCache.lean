import BeastOs.Fs.Token
import BeastOs.Lib.Inverse

/-!
# The two maps of the path cache

`PathCache` keeps a map from paths to tokens and a second one back, "for cleanup". `insert` and
`update_path` write both but never look at what they overwrite: an entry for a path that was cached
before leaves the old token pointing to it, and an entry for a token that was cached before leaves
its old path.

`inverse_iff_displacesNothing` says that this is the only way for the maps to come apart: in a run
of calls they are inverse in every state exactly as long as no call displaces an entry.
-/

namespace BeastOs.Fs

open Option Lib Storage

namespace PathCache

/-! ## The other operations -/

/-- The number of entries removed, and the cache without them. -/
def invalidateSubtree (cache : PathCache) (root : Path) : Nat × PathCache :=
  let toRemove := (cache.pathToToken.entries.map (·.1)).filter fun path => root.isPrefixOf path
  (toRemove.length, toRemove.foldl remove cache)

def getOrResolve (cache : PathCache) (path : Path) (resolver : Path → Option TokenId) :
    Option TokenId × PathCache :=
  match cache.resolve path with
  | some token => (some token, cache)
  | none =>
    match resolver path with
    | some token => (some token, cache.insert path token)
    | none => (none, cache)

def clear (_cache : PathCache) : PathCache := ⟨SortedMap.empty, SortedMap.empty⟩

inductive Request
  | insert (path : Path) (tokenId : TokenId)
  | remove (path : Path)
  | updatePath (oldPath newPath : Path)
  | invalidateSubtree (root : Path)
  | getOrResolve (path : Path) (resolver : Path → Option TokenId)
  | clear

def step (cache : PathCache) : Request → Option PathCache
  | .insert path tokenId => some (cache.insert path tokenId)
  | .remove path => some (cache.remove path)
  | .updatePath oldPath newPath => some (cache.updatePath oldPath newPath)
  | .invalidateSubtree root => some (cache.invalidateSubtree root).2
  | .getOrResolve path resolver => some (cache.getOrResolve path resolver).2
  | .clear => some cache.clear

/-- The path a token is filed under. -/
def pathOf (cache : PathCache) (tokenId : TokenId) : Option Path := cache.tokenToPath.lookup tokenId

def MapsInverse (cache : PathCache) : Prop :=
  ∀ tokenId path, cache.pathOf tokenId = some path ↔ cache.resolve path = some tokenId

/-- No entry for another path or another token gives way to the entry the request makes. -/
def DisplacesNothing (cache : PathCache) : Request → Prop
  | .insert path tokenId =>
    (∀ tokenId', cache.resolve path = some tokenId' → tokenId' = tokenId) ∧
      ∀ path', cache.pathOf tokenId = some path' → path' = path
  | .updatePath oldPath newPath =>
    ∀ tokenId, cache.resolve oldPath = some tokenId →
      ∀ tokenId', cache.resolve newPath = some tokenId' → tokenId' = tokenId
  | .getOrResolve path resolver =>
    ∀ tokenId, cache.resolve path = none → resolver path = some tokenId →
      cache.pathOf tokenId = none
  | .remove _ | .invalidateSubtree _ | .clear => True

/-! ## One request -/

variable {cache cache' : PathCache} {path : Path} {tokenId : TokenId}

theorem mapsInverse_iff : cache.MapsInverse ↔ Inverse cache.resolve cache.pathOf :=
  forall_comm

theorem mapsInverse_new : MapsInverse new :=
  mapsInverse_iff.mpr inverse_none

@[simp] theorem resolve_insert_eq_update :
    (cache.insert path tokenId).resolve = Function.update cache.resolve path (some tokenId) :=
  SortedMap.lookup_insert_eq_update _ _ _

@[simp] theorem pathOf_insert_eq_update :
    (cache.insert path tokenId).pathOf = Function.update cache.pathOf tokenId (some path) :=
  SortedMap.lookup_insert_eq_update _ _ _

section

variable (h : cache.MapsInverse)
include h

/-- `insert` keeps the maps inverse exactly if it displaces nothing. -/
theorem MapsInverse.insert_iff : (cache.insert path tokenId).MapsInverse ↔
      cache.DisplacesNothing (.insert path tokenId) := by
  rw [mapsInverse_iff, resolve_insert_eq_update, pathOf_insert_eq_update]
  exact (mapsInverse_iff.mp h).put_iff

/-- `remove` takes both sides of an entry. -/
theorem MapsInverse.remove (path : Path) : (cache.remove path).MapsInverse := by
  unfold PathCache.remove
  split
  next tokenId hpath =>
    rw [mapsInverse_iff]
    show Inverse (cache.pathToToken.erase path).lookup (cache.tokenToPath.erase tokenId).lookup
    simp only [SortedMap.lookup_erase_eq_update]
    exact (mapsInverse_iff.mp h).drop hpath
  · exact h

theorem MapsInverse.removeAll (paths : List Path) :
    (paths.foldl PathCache.remove cache).MapsInverse := by
  induction paths generalizing cache with
  | nil => exact h
  | cons path paths ih => exact ih (h.remove path)

/-- `update_path` keeps the maps inverse exactly if nothing else is at the new path. -/
theorem MapsInverse.updatePath_iff (oldPath newPath : Path) :
    (cache.updatePath oldPath newPath).MapsInverse ↔
      cache.DisplacesNothing (.updatePath oldPath newPath) := by
  cases hold : cache.resolve oldPath with
  | none =>
    have hsame : cache.updatePath oldPath newPath = cache := by
      have hlookup : cache.pathToToken.lookup oldPath = none := hold
      rw [updatePath, hlookup]
    rw [hsame]
    refine iff_of_true h ?_
    intro tokenId htoken
    rw [hold] at htoken
    cases htoken
  | some tokenId =>
    have hlookup : cache.pathToToken.lookup oldPath = some tokenId := hold
    have hrekey := (mapsInverse_iff.mp h).rekey_iff hold newPath
    rw [mapsInverse_iff, updatePath, hlookup]
    show Inverse ((cache.pathToToken.erase oldPath).insert newPath tokenId).lookup
      (cache.tokenToPath.insert tokenId newPath).lookup ↔ _
    simp only [SortedMap.lookup_insert_eq_update, SortedMap.lookup_erase_eq_update]
    refine hrekey.trans ⟨fun hnew tokenId' hold' => ?_, fun hnew => hnew tokenId hold⟩
    obtain rfl := some.inj (hold.symm.trans hold')
    exact hnew

/-- `get_or_resolve` inserts where there is no entry, so only the token can have another path. -/
theorem MapsInverse.getOrResolve_iff (path : Path) (resolver : Path → Option TokenId) :
    (cache.getOrResolve path resolver).2.MapsInverse ↔
      cache.DisplacesNothing (.getOrResolve path resolver) := by
  unfold getOrResolve
  split
  next token hhit =>
    refine iff_of_true h fun tokenId hmiss => ?_
    rw [hhit] at hmiss
    cases hmiss
  next hmiss =>
    split
    next tokenId htoken =>
      rw [h.insert_iff]
      constructor
      · rintro ⟨-, hpath⟩ tokenId' - htoken'
        obtain rfl := some.inj (htoken.symm.trans htoken')
        -- a path of the token would be the one that is not cached
        cases hof : cache.pathOf tokenId with
        | none => rfl
        | some path' =>
          have hresolve := (h tokenId path').mp hof
          rw [hpath path' hof, hmiss] at hresolve
          cases hresolve
      · intro hnone
        constructor
        · intro tokenId' hhit
          rw [hmiss] at hhit
          cases hhit
        · intro path' hof
          rw [hnone tokenId hmiss htoken] at hof
          cases hof
    next hnone =>
      refine iff_of_true h fun tokenId _ htoken => ?_
      rw [hnone] at htoken
      cases htoken

/-- **One request** keeps the maps inverse exactly if it displaces nothing. -/
theorem MapsInverse.step_iff {request : Request} (hstep : cache.step request = some cache') :
    cache'.MapsInverse ↔ cache.DisplacesNothing request := by
  cases request with
  | insert path tokenId =>
    obtain rfl := some.inj hstep
    exact h.insert_iff
  | remove path =>
    obtain rfl := some.inj hstep
    exact iff_of_true (h.remove path) trivial
  | updatePath oldPath newPath =>
    obtain rfl := some.inj hstep
    exact h.updatePath_iff oldPath newPath
  | invalidateSubtree root =>
    obtain rfl := some.inj hstep
    exact iff_of_true (h.removeAll _) trivial
  | getOrResolve path resolver =>
    obtain rfl := some.inj hstep
    exact h.getOrResolve_iff path resolver
  | clear =>
    obtain rfl := some.inj hstep
    exact iff_of_true mapsInverse_new trivial

end

/-! ## Any sequence of requests -/

/-- **The two maps stay inverse**, up to displaced entries: in a run of requests they are inverse in
every state exactly if no request displaces the entry of another path or another token. -/
theorem inverse_iff_displacesNothing {τ : List (Transition PathCache Request)}
    (hrun : Run (Steps step) new τ cache) :
    (∀ t ∈ τ, t.dst.MapsInverse) ↔ ∀ t ∈ τ, t.src.DisplacesNothing t.label := by
  apply hrun.forall_iff mapsInverse_new
  · intro m request m' hm hstep
    exact hm.step_iff hstep
  · intro m request m' hm hstep hnothing
    exact (hm.step_iff hstep).mpr hnothing

/-- A file is entered and moved to a path that is not in use. -/
theorem inverse_moved :
    ∃ cache τ, Run (Steps step) new τ cache ∧
      τ.map (·.label) = [.insert "/a".toList 1, .updatePath "/a".toList "/b".toList] ∧
      ∀ t ∈ τ, t.dst.MapsInverse := by
  let entered := new.insert "/a".toList 1
  have hrun : Run (Steps step) new
      [⟨new, .insert "/a".toList 1, entered⟩,
        ⟨entered, .updatePath "/a".toList "/b".toList, entered.updatePath "/a".toList "/b".toList⟩]
      (entered.updatePath "/a".toList "/b".toList) :=
    Run.cons rfl (Run.single rfl)
  refine ⟨_, _, hrun, rfl, (inverse_iff_displacesNothing hrun).mpr ?_⟩
  intro t ht
  simp only [List.mem_cons, List.not_mem_nil, or_false] at ht
  rcases ht with rfl | rfl
  · constructor <;> intro _ h <;> cases h
  · intro _ _ _ h
    cases h

/-- When another token is entered under a path, the token before it still has that path. -/
theorem not_inverse_after_insert :
    ∃ cache τ, Run (Steps step) new τ cache ∧
      τ.map (·.label) = [.insert "/a".toList 1, .insert "/a".toList 2] ∧ ¬ cache.MapsInverse := by
  let cache := (new.insert "/a".toList 1).insert "/a".toList 2
  obtain ⟨τ, hrun, hlabels⟩ : ∃ τ, Run (Steps step) new τ cache ∧
      τ.map (·.label) = [.insert "/a".toList 1, .insert "/a".toList 2] :=
    exists_run_of_perform rfl
  have hstale : cache.pathOf 1 = some "/a".toList := by decide
  refine ⟨cache, τ, hrun, hlabels, fun hinverse => ?_⟩
  have hresolve := (hinverse 1 "/a".toList).mp hstale
  exact absurd (some.inj hresolve) (by decide)

end PathCache

end BeastOs.Fs
