import BeastOs.Storage.Cas

/-!
# A store without room

`put` of new data beyond the limit runs the collector, which subtracts thirty days from the time
since boot. Since every stored object is referenced, the collector has nothing to remove: the whole
effect of such a `put` is that subtraction.

Main result: `failsCleanly_iff`. Before thirty days of uptime a full store does not fail cleanly.
-/

namespace BeastOs.Storage.ContentAddressableStorage

open Lib

variable {cas : ContentAddressableStorage} {now : Nat} {data : List U8}

/-- The data are new and go beyond the limit. -/
def NoRoom (cas : ContentAddressableStorage) (data : List U8) : Prop :=
  cas.objects.lookup (Hash.ofData data) = none ∧ 0 < cas.maxBytes ∧
    cas.maxBytes < cas.totalBytes + data.length

/-- No subtraction of `put` underflows, and a `put` that finds no room leaves the store as it is. -/
structure FailsCleanly (cas : ContentAddressableStorage) (now : Nat) (data : List U8) : Prop where
  total : (cas.put now data).isSome
  unchanged : ∀ cas', cas.put now data = some (.error .outOfSpace, cas') → cas' = cas

section

variable (h : Accounted cas)
include h

/-- Everything stored is referenced, so nothing may be removed. -/
theorem Accounted.toRemove_eq_nil (cutoff : Nat) : toRemove cas.objects cutoff = [] := by
  unfold toRemove
  rw [List.map_eq_nil_iff, List.filter_eq_nil_iff]
  rintro ⟨hash, object⟩ hmem
  have := h.referenced hash object (SortedMap.lookup_of_mem hmem)
  simp only [decide_eq_true_eq]
  omega

theorem Accounted.garbageCollect_eq (needed : Nat) :
    cas.garbageCollect now needed = if thirtyDays ≤ now then some (.ok (), cas) else none := by
  unfold garbageCollect checkedSub
  split
  · simp [h.toRemove_eq_nil, collect]
  · rfl

theorem Accounted.put_of_noRoom (now : Nat) (hfull : cas.NoRoom data) :
    cas.put now data = if thirtyDays ≤ now then some (.error .outOfSpace, cas) else none := by
  obtain ⟨hnew, hroom⟩ := hfull
  unfold put
  rw [hnew]
  simp only
  rw [if_pos hroom, h.garbageCollect_eq]
  split
  · simp [hroom.2]
  · rfl

theorem Accounted.put_of_room (now : Nat) (hroom : ¬cas.NoRoom data) :
    ∃ cas', cas.put now data = some (.ok (Hash.ofData data), cas') ∧ Accounted cas' := by
  unfold put
  split
  next existing hex => exact ⟨_, rfl, h.replace hex rfl (by simp)⟩
  next hnew =>
    rw [if_neg fun hfull => hroom ⟨hnew, hfull⟩]
    exact ⟨_, rfl, h.store now hnew⟩

/-- At any clock: an operation that returns keeps the books. -/
theorem Accounted.step {call : Call} {cas' : ContentAddressableStorage}
    (hstep : cas.step call = some cas') : Accounted cas' := by
  obtain ⟨cas₁, h₁, hcas₁⟩ : ∃ cas₁, cas.step call = some cas₁ ∧ Accounted cas₁ := by
    apply step_spec_of_put h
    intro data hop
    by_cases hfull : cas.NoRoom data
    · have hput := h.put_of_noRoom call.now hfull
      split at hput
      · exact ⟨_, hput, h⟩
      · simp [ContentAddressableStorage.step, hop, hput] at hstep
    · obtain ⟨cas₁, hput, h₁⟩ := h.put_of_room call.now hfull
      exact ⟨_, hput, h₁⟩
  exact Option.some.inj (h₁.symm.trans hstep) ▸ hcas₁

end

theorem accounted_of_run_any_clock {τ : List (Transition ContentAddressableStorage Call)}
    (hrun : Run (Steps step) new τ cas) : Accounted cas :=
  hrun.invariant' accounted_new fun _ _ _ h hstep => h.step hstep

/-- **A store without room.** Whatever was done before and at whatever times: a `put` fails cleanly
exactly if thirty days have passed since boot or there is room. -/
theorem failsCleanly_iff {τ : List (Transition ContentAddressableStorage Call)}
    (hrun : Run (Steps step) new τ cas) :
    FailsCleanly cas now data ↔ thirtyDays ≤ now ∨ ¬cas.NoRoom data := by
  have h := accounted_of_run_any_clock hrun
  by_cases hfull : cas.NoRoom data
  · have hput := h.put_of_noRoom now hfull
    constructor
    · intro hclean
      have htotal := hclean.total
      rw [hput] at htotal
      split at htotal
      next hnow => exact .inl hnow
      · cases htotal
    · rintro (hnow | hroom)
      · rw [if_pos hnow] at hput
        exact ⟨by simp [hput], by simp [hput]⟩
      · exact absurd hfull hroom
  · obtain ⟨cas', hput, -⟩ := h.put_of_room now hfull
    exact ⟨fun _ => .inr hfull, fun _ => ⟨by simp [hput], by simp [hput]⟩⟩

/-- Two bytes fill the store, and after thirty days there is no room for two more. -/
theorem failsCleanly_thirtyDays : ∃ τ cas, Run (Steps step) new τ cas ∧
    cas.put thirtyDays [3, 4] = some (.error .outOfSpace, cas) ∧
      FailsCleanly cas thirtyDays [3, 4] := by
  obtain ⟨a, b, hlimit, hstore, hput⟩ : ∃ a b, new.step ⟨0, .setMaxBytes 2⟩ = some a ∧
      a.step ⟨0, .put [1, 2]⟩ = some b ∧ b.put thirtyDays [3, 4] = some (.error .outOfSpace, b) :=
    ⟨_, _, rfl, rfl, rfl⟩
  have hrun : Run (Steps step) new _ b := .cons hlimit (.single hstore)
  exact ⟨_, b, hrun, hput, (failsCleanly_iff hrun).mpr (.inl le_rfl)⟩

/-- Right after boot, with a limit of one byte: storing two bytes underflows. -/
theorem put_underflows_at_boot :
    ∃ τ cas, Run (Steps step) new τ cas ∧ cas.put 0 [1, 2] = none ∧
      ¬FailsCleanly cas 0 [1, 2] := by
  have hput : (new.setMaxBytes 1).put 0 [1, 2] = none := by decide
  refine ⟨_, _, Run.single (show new.step ⟨0, .setMaxBytes 1⟩ = some _ from rfl), hput, ?_⟩
  intro hclean
  have htotal := hclean.total
  rw [hput] at htotal
  cases htotal

end BeastOs.Storage.ContentAddressableStorage
