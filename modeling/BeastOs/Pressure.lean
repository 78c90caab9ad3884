import BeastOs.Scheduler.Task

/-!
# Pressure

`pressure.rs` combines the share of tasks that are ready or running with the share of memory in use,
smooths the result and watches it for oscillation. The phases, computed with floating-point numbers,
are left out.

Main results: `pressure_stable`, and `reactsToOscillation_iff`. The detector looks for the last
direction where the last pressure is kept, so that a ramp is an oscillation for it.
-/

namespace BeastOs.Pressure

open BitVec Function Scheduler

/-! ## The pressure -/

/-- `u32::MAX as u64` -/
def u32Max : U64 := 0xFFFFFFFF

def saturatingMul (a b : U64) : U64 :=
  if a.toNat * b.toNat < 2 ^ 64 then a * b else BitVec.allOnes 64

def saturatingSub (a b : U64) : U64 := if b ≤ a then a - b else 0

/-- How `task_pressure` and `memory_pressure` end. -/
def share (part total : U64) : BitVec 32 :=
  if total = 0 then 0 else (saturatingMul part u32Max / total).setWidth 32

/-- The tasks of the table, and those of them that want to run. -/
def live (tasks : Nat → Option Task) : List Task := (List.range maxTasks).filterMap tasks

def wanting (tasks : Nat → Option Task) : Nat :=
  (live tasks).countP fun t => t.state = .ready ∨ t.state = .running

def taskPressure (tasks : Nat → Option Task) : BitVec 32 :=
  share (BitVec.ofNat 64 (wanting tasks)) (BitVec.ofNat 64 (live tasks).length)

def memoryPressure (total free : U64) : BitVec 32 := share (saturatingSub total free) total

def rawPressure (taskP memP : BitVec 32) : BitVec 32 :=
  ((taskP.setWidth 64 + memP.setWidth 64) / 2).setWidth 32

/-- The new value of `PRESSURE`, for the old one and the raw value. -/
def smooth (prev raw : BitVec 32) : BitVec 32 :=
  let smoothed := (prev.setWidth 64 * (8 - 1) + raw.setWidth 64 * 1) / 8
  (if smoothed ≤ u32Max then smoothed else u32Max).setWidth 32

/-- `update`, without the detector. -/
def update (tasks : Nat → Option Task) (total free : U64) (prev : BitVec 32) : BitVec 32 :=
  smooth prev (rawPressure (taskPressure tasks) (memoryPressure total free))

theorem toNat_share {part total : U64} (hpart : part ≤ total) (htotal : total.toNat < 2 ^ 32) :
    (share part total).toNat = part.toNat * (2 ^ 32 - 1) / total.toNat := by
  unfold share
  split
  next hzero => simp [hzero]
  next hpos =>
    have hle : part.toNat ≤ total.toNat := hpart
    have hmax : u32Max.toNat = 2 ^ 32 - 1 := rfl
    have hquotient : part.toNat * (2 ^ 32 - 1) / total.toNat ≤ 2 ^ 32 - 1 :=
      Nat.div_le_of_le_mul (Nat.mul_le_mul_right _ hle)
    rw [saturatingMul, hmax, if_pos (by omega), toNat_setWidth, toNat_udiv,
      toNat_mul, hmax, Nat.mod_eq_of_lt (a := part.toNat * _) (by omega),
      Nat.mod_eq_of_lt (by omega)]

theorem toNat_taskPressure (tasks : Nat → Option Task) :
    (taskPressure tasks).toNat = wanting tasks * (2 ^ 32 - 1) / (live tasks).length := by
  have hlive : (live tasks).length ≤ maxTasks := by
    simpa [live] using List.length_filterMap_le tasks (List.range maxTasks)
  have hwanting : wanting tasks ≤ (live tasks).length := List.countP_le_length
  have hmax : maxTasks = 64 := rfl
  have h₁ : (BitVec.ofNat 64 (wanting tasks)).toNat = wanting tasks :=
    Nat.mod_eq_of_lt (by omega)
  have h₂ : (BitVec.ofNat 64 (live tasks).length).toNat = (live tasks).length :=
    Nat.mod_eq_of_lt (by omega)
  rw [taskPressure, toNat_share (le_def.mpr (by omega)) (by omega), h₁, h₂]

theorem toNat_memoryPressure {total free : U64} (hfree : free ≤ total)
    (htotal : total.toNat ≤ 2 ^ 20) : (memoryPressure total free).toNat =
      (total.toNat - free.toNat) * (2 ^ 32 - 1) / total.toNat := by
  have hused : (total - free).toNat = total.toNat - free.toNat := toNat_sub_of_le hfree
  rw [memoryPressure, saturatingSub, if_pos hfree,
    toNat_share (le_def.mpr (by omega)) (by omega), hused]

theorem toNat_rawPressure (a b : BitVec 32) :
    (rawPressure a b).toNat = (a.toNat + b.toNat) / 2 := by
  simp [rawPressure]
  omega

theorem toNat_smooth (prev raw : BitVec 32) :
    (smooth prev raw).toNat = (7 * prev.toNat + raw.toNat) / 8 := by
  have hsmoothed : ((prev.setWidth 64 * (8 - 1) + raw.setWidth 64 * 1) / 8 : U64).toNat =
      (7 * prev.toNat + raw.toNat) / 8 := by
    simp
    omega
  have hmax : u32Max.toNat = 2 ^ 32 - 1 := rfl
  unfold smooth
  simp only
  rw [if_pos (le_def.mpr (by omega)), toNat_setWidth, hsmoothed]
  omega

/-! ## Convergence -/

/-- At most 7 below the raw value, and not above it. -/
def Settled (r v : BitVec 32) : Prop := r.toNat ≤ v.toNat + 7 ∧ v.toNat ≤ r.toNat

theorem Settled.smooth {r v : BitVec 32} (h : Settled r v) : smooth v r = v := by
  obtain ⟨hlow, hhigh⟩ := h
  apply eq_of_toNat_eq
  rw [toNat_smooth]
  omega

/-- The distance to the raw value gets smaller, from above and from below. -/
theorem settles (r v : BitVec 32) : ∃ n, ∀ m, n ≤ m → Settled r ((smooth · r)^[m] v) := by
  induction hd : (v.toNat - r.toNat) + (r.toNat - v.toNat) using Nat.strongRecOn generalizing v with
  | _ d ih =>
    by_cases h : Settled r v
    · refine ⟨0, fun m _ => ?_⟩
      rw [Function.iterate_fixed (f := (smooth · r)) h.smooth m]
      exact h
    · unfold Settled at h
      have hstep := toNat_smooth v r
      obtain ⟨n, hn⟩ := ih _ (by omega) (smooth v r) rfl
      refine ⟨n + 1, fun m hm => ?_⟩
      obtain ⟨m, rfl⟩ : ∃ m', m = m' + 1 := ⟨m - 1, by omega⟩
      exact hn m (by omega)

/-- **Smoothing is stable.** Nothing is truncated or saturated on the way to the raw value, an
update stays between the old value and the raw value, and under a constant raw value every start
ends in the interval of the 8 values up to it, for good. -/
theorem pressure_stable (tasks : Nat → Option Task) {total free : U64} (hfree : free ≤ total)
    (htotal : total.toNat ≤ 2 ^ 20) (prev : BitVec 32) :
    let taskP := taskPressure tasks
    let memP := memoryPressure total free
    let raw := rawPressure taskP memP
    let new := update tasks total free prev
    taskP.toNat = wanting tasks * (2 ^ 32 - 1) / (live tasks).length ∧
      memP.toNat = (total.toNat - free.toNat) * (2 ^ 32 - 1) / total.toNat ∧
      raw.toNat = (taskP.toNat + memP.toNat) / 2 ∧
      new.toNat = (7 * prev.toNat + raw.toNat) / 8 ∧
      min prev.toNat raw.toNat ≤ new.toNat ∧ new.toNat ≤ max prev.toNat raw.toNat ∧
      ∀ r v : BitVec 32, ∃ n, ∀ m, n ≤ m → Settled r ((smooth · r)^[m] v) := by
  intro taskP memP raw new
  have hnew : new.toNat = (7 * prev.toNat + raw.toNat) / 8 := toNat_smooth prev raw
  exact ⟨toNat_taskPressure tasks, toNat_memoryPressure hfree htotal, toNat_rawPressure taskP memP,
    hnew, by omega, by omega, settles⟩

/-- One of two tasks wants to run, and a quarter of the memory is in use. -/
theorem pressure_stable_twoTasks : ∃ tasks, wanting tasks = 1 ∧ (live tasks).length = 2 ∧
    (update tasks 4 3 0).toNat = ((2 ^ 32 - 1) / 2 + (2 ^ 32 - 1) / 4) / 2 / 8 := by
  obtain ⟨t, -⟩ : ∃ t, Task.new ⟨0, 0, 0⟩ (some 0x9000) 0 0x4000 "init" 1 0 = some t := ⟨_, rfl⟩
  obtain ⟨tasks, hwanting, hlive⟩ : ∃ tasks, wanting tasks = 1 ∧ (live tasks).length = 2 :=
    ⟨fun i => if i = 0 then some { t with state := .ready } else
      if i = 1 then some { t with state := .blocked } else none, rfl, rfl⟩
  obtain ⟨htask, hmem, hraw, hnew, -⟩ :=
    pressure_stable tasks (show (3 : U64) ≤ 4 by decide) (by decide) 0
  refine ⟨tasks, hwanting, hlive, ?_⟩
  rw [hnew, hraw, htask, hmem, hwanting, hlive]
  rfl

/-! ## Oscillation -/

/-- `OSC_HISTORY`, `OSC_IDX`, `OSC_DIR_CHANGES` and `BATCHING_DISABLED` -/
structure Detector where
  history : Nat → BitVec 32
  idx : BitVec 32
  dirChanges : BitVec 32
  disabled : Bool

def Detector.initial : Detector := ⟨fun _ => 0, 0, 0, false⟩

/-- 1 for a rise, 2 for a fall. -/
def direction (prev pressure : BitVec 32) : BitVec 32 :=
  if prev < pressure then 1 else if pressure < prev then 2 else 0

def updateOscillation (d : Detector) (pressure : BitVec 32) : Detector :=
  let idx := d.idx.toNat % 4
  let prev := d.history idx
  let history := Function.update d.history idx pressure
  let dir := direction prev pressure
  let lastDir := history ((idx + 4 - 1) % 4)
  if prev ≠ 0 ∧ dir ≠ 0 ∧ lastDir ≠ 0 ∧ lastDir ≠ dir then
    ⟨history, d.idx + 1, d.dirChanges + 1, d.disabled || 4 ≤ d.dirChanges + 1⟩
  else ⟨history, d.idx + 1, d.dirChanges, d.disabled⟩

/-- The update counts as a change: it is compared with the fourth value before it, and what is taken
for the last direction is the value before it. The last value comes first. -/
def Counts (past : List (BitVec 32)) (pressure : BitVec 32) : Prop :=
  past.getD 3 0 ≠ 0 ∧ direction (past.getD 3 0) pressure ≠ 0 ∧ past.getD 0 0 ≠ 0 ∧
    past.getD 0 0 ≠ direction (past.getD 3 0) pressure

instance (past : List (BitVec 32)) (pressure : BitVec 32) : Decidable (Counts past pressure) :=
  inferInstanceAs (Decidable (_ ∧ _))

def changes : List (BitVec 32) → Nat
  | [] => 0
  | pressure :: past => changes past + if Counts past pressure then 1 else 0

/-- The detector after the values `past`. The history is indexed backwards from the last value. -/
structure Detector.After (d : Detector) (past : List (BitVec 32)) : Prop where
  idx : d.idx = BitVec.ofNat 32 past.length
  history : ∀ k < 4, d.history ((past.length + 3 - k) % 4) = past.getD k 0
  dirChanges : d.dirChanges = BitVec.ofNat 32 (changes past)
  disabled : d.disabled = true ↔ 4 ≤ changes past

variable {past : List (BitVec 32)}

theorem Detector.After.step {d : Detector} (h : d.After past)
    (pressure : BitVec 32) : (updateOscillation d pressure).After (pressure :: past) := by
  have hidx : d.idx.toNat % 4 = past.length % 4 := by
    rw [h.idx, toNat_ofNat]
    omega
  have hprev : d.history (past.length % 4) = past.getD 3 0 := h.history 3 (by omega)
  have hlast : Function.update d.history (past.length % 4) pressure
      ((past.length % 4 + 4 - 1) % 4) = past.getD 0 0 := by
    rw [Function.update_of_ne (by omega), ← h.history 0 (by omega)]
    congr 1
    omega
  have hhistory : ∀ k < 4, Function.update d.history (past.length % 4) pressure
      (((pressure :: past).length + 3 - k) % 4) = (pressure :: past).getD k 0 := by
    intro k hk
    rw [List.length_cons]
    cases k with
    | zero =>
      rw [show (past.length + 1 + 3 - 0) % 4 = past.length % 4 by omega, Function.update_self]
      rfl
    | succ k =>
      rw [Function.update_of_ne (by omega),
        show past.length + 1 + 3 - (k + 1) = past.length + 3 - k by omega]
      exact h.history k (by omega)
  have hnext : d.idx + 1 = BitVec.ofNat 32 (pressure :: past).length := by
    rw [h.idx, List.length_cons, ofNat_add]
    rfl
  have hmore : d.dirChanges + 1 = BitVec.ofNat 32 (changes past + 1) := by
    rw [h.dirChanges, ofNat_add]
    rfl
  unfold updateOscillation
  simp only [hidx, hprev, hlast]
  by_cases hc : Counts past pressure
  · have hchanges : changes (pressure :: past) = changes past + 1 := by simp [changes, hc]
    unfold Counts at hc
    rw [if_pos hc]
    refine ⟨hnext, hhistory, hchanges ▸ hmore, ?_⟩
    -- the counter may wrap around, but it does not before batching is disabled
    rw [hchanges, Bool.or_eq_true, h.disabled, hmore, decide_eq_true_eq, le_def,
      toNat_ofNat]
    show _ ∨ 4 ≤ _ ↔ _
    omega
  · have hchanges : changes (pressure :: past) = changes past := by simp [changes, hc]
    unfold Counts at hc
    rw [if_neg hc]
    exact ⟨hnext, hhistory, hchanges ▸ h.dirChanges, hchanges ▸ h.disabled⟩

theorem after_foldl {d : Detector} (h : d.After past)
    (l : List (BitVec 32)) : (l.foldl updateOscillation d).After (l.reverse ++ past) := by
  induction l generalizing d past with
  | nil => exact h
  | cons pressure l ih => simpa using ih (h.step pressure)

/-- The rises and falls of a sequence. -/
def directions (l : List (BitVec 32)) : List (BitVec 32) :=
  (l.zipWith direction l.tail).filter (· ≠ 0)

/-- How often a rise is followed by a fall, or the converse. -/
def reversals (l : List (BitVec 32)) : Nat :=
  ((directions l).zip (directions l).tail).countP fun p => p.1 ≠ p.2

/-- Batching is disabled only after four reversals. -/
def ReactsToOscillation (l : List (BitVec 32)) : Prop :=
  (l.foldl updateOscillation .initial).disabled = true → 4 ≤ reversals l

/-- **The detector.** It reacts to oscillation only, for the sequences with fewer than four counted
updates and for those that do reverse four times. -/
theorem reactsToOscillation_iff (l : List (BitVec 32)) :
    ReactsToOscillation l ↔ changes l.reverse < 4 ∨ 4 ≤ reversals l := by
  have hinitial : Detector.initial.After [] :=
    ⟨rfl, fun k _ => by simp [Detector.initial], rfl, by simp [Detector.initial, changes]⟩
  have hdisabled := (after_foldl hinitial l).disabled
  rw [List.append_nil] at hdisabled
  unfold ReactsToOscillation
  rw [hdisabled]
  omega

/-- A ramp of eight values disables batching. -/
theorem not_reactsToOscillation_ramp :
    let ramp := [10, 20, 30, 40, 50, 60, 70, 80]
    ramp.Pairwise (· < ·) ∧ (ramp.foldl updateOscillation .initial).disabled = true ∧
      reversals ramp = 0 ∧ ¬ReactsToOscillation ramp := by
  have hramp : ([10, 20, 30, 40, 50, 60, 70, 80].foldl updateOscillation .initial).disabled = true ∧
      reversals [10, 20, 30, 40, 50, 60, 70, 80] = 0 := by decide
  refine ⟨by decide, hramp.1, hramp.2, fun hreacts => ?_⟩
  have := hreacts hramp.1
  omega

end BeastOs.Pressure
