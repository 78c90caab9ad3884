import BeastOs.Scheduler.RunQueue

/-!
# Quantum accounting

A task may run for as many ticks as its level's quantum allows and is demoted then. The scheduler
counts the ticks in `ticks_used`, a field that boosts, demotions, spawns and `exec` reset along with
the priority. Here the ticks are counted a second time, from the outside: `charged` goes through the
history of a run and counts, for each slot, the ticks it was current in since its counter was last
reset. `quantum_accounting` says that the two counts agree in every run, so that it is the tick that
completes the quantum, and no other, that demotes.

The operations are performed in any order. Nothing is asked of the queues but that they hold slots
of the task table, and that holds in every run.
-/

namespace BeastOs.Scheduler

open Function Option Lib

variable {s s' s'' s₁ : Scheduler} {slot k : Nat} {t : Task} {phys : Option U64}
  {meter : TaskId → Nat}

/-! ## The countdown -/

theorem InTable.boostAll_drained (h : InTable s) :
    ∃ s', s.boostAll = some s' ∧
      Drained (List.range' 1 (priorityLevels - 1)) s.drainable s s' := by
  obtain ⟨s', hrun, -, hdrained⟩ := Scheduler.boostAll_drained (P := fun _ => True)
    (fun _ _ _ _ _ _ _ _ => trivial) trivial h.queued_lt
  exact ⟨s', hrun, hdrained⟩

/-- The boost is due with this tick. -/
def Due (s : Scheduler) : Prop := s.boostCountdown ≤ 1

instance (s : Scheduler) : Decidable s.Due := inferInstanceAs (Decidable (_ ≤ _))

/-- The slots the next tick moves. -/
def dueSlots (s : Scheduler) : List TaskId := if s.Due then s.drainable else []

theorem countdown_of_due (hdue : s.Due) :
    s.countdown = (boostAll { s with tickCount := s.tickCount + 1, boostCountdown := 0 }).map
        fun s' => { s' with boostCountdown := boostInterval } := by
  have hzero : s.boostCountdown - 1 = 0 := Nat.sub_eq_zero_of_le hdue
  unfold countdown
  simp only [hzero, if_true]
  rw [Option.map_eq_bind]
  rfl

theorem countdown_of_not_due (hdue : ¬ s.Due) : s.countdown =
      some { s with tickCount := s.tickCount + 1, boostCountdown := s.boostCountdown - 1 } := by
  have hpos : s.boostCountdown - 1 ≠ 0 := by
    unfold Due at hdue
    omega
  unfold countdown
  simp only [hpos, if_false]
  rfl

/-- The tasks after the countdown, whether or not the boost was due. -/
theorem countdown_tasks (h : InTable s) :
    ∃ s', s.countdown = some s' ∧ s'.current = s.current ∧ ∀ slot, s'.tasks slot =
      if slot ∈ s.dueSlots then (s.tasks slot).map Task.boosted else s.tasks slot := by
  by_cases hdue : s.Due
  · set s₀ : Scheduler := { s with tickCount := s.tickCount + 1, boostCountdown := 0 } with hs₀
    have hin : InTable s₀ := ⟨h.queued_lt, h.current⟩
    obtain ⟨s', hrun, hdrained⟩ := hin.boostAll_drained
    refine ⟨{ s' with boostCountdown := boostInterval }, ?_, ?_, ?_⟩
    · rw [countdown_of_due hdue, hrun]
      rfl
    · rw [hdrained.rest]
    · unfold dueSlots
      rw [if_pos hdue]
      exact hdrained.tasks
  · refine ⟨_, countdown_of_not_due hdue, rfl, fun slot => ?_⟩
    unfold dueSlots
    rw [if_neg hdue]
    rfl

/-! ## Operations -/

/-- What is done to the scheduler, in any order. A tick comes with what `tick` answers. -/
inductive Op where
  | spawn (pf : Platform) (phys : Option U64) (cr3 entry : U64) (name : String) (priority : Nat)
  | spawnUser (pf : Platform) (phys : Option U64) (entry userStackTop : U64) (name : String)
      (priority : Nat) (pageTable trampoline : U64)
  | run
  | tick (expired : Bool)
  | reschedule (regs : AllRegisters) (framePtr : U64)
  | block (reason : BlockReason)
  | wake (taskId : TaskId)
  | kill (slot : TaskId)
  | exec (pf : Platform) (phys : Option U64) (entry userStackTop : U64) (name : String)
      (pageTable argc argv : U64)
  | boostAll
  | boostForReason (slot : TaskId) (reason : BlockReason)
  | promote (slot : TaskId)

/-- An operation that does not panic. -/
def opStep (s : Scheduler) (op : Op) (s' : Scheduler) : Prop :=
  match op with
  | .spawn pf phys cr3 entry name priority =>
    ∃ r, s.spawn pf phys cr3 entry name priority = some (s', r)
  | .spawnUser pf phys entry userStackTop name priority pageTable trampoline =>
    ∃ r, s.spawnUserWithPageTableAndTrampoline pf phys entry userStackTop name priority pageTable
      trampoline = some (s', r)
  | .run => ∃ d, s.run = some (s', d)
  | .tick expired => s.tick = some (s', expired)
  | .reschedule regs framePtr => ∃ d, s.reschedule regs framePtr = some (s', d)
  | .block reason => s.blockCurrent reason = some s'
  | .wake taskId => s.wakeTask taskId = some s'
  | .kill slot => s.kill slot = some s'
  | .exec pf phys entry userStackTop name pageTable argc argv =>
    ∃ d, s.replaceCurrentTask pf phys entry userStackTop name pageTable argc argv = some (s', d)
  | .boostAll => s.boostAll = some s'
  | .boostForReason slot reason => s.boostForReason slot reason = some s'
  | .promote slot => s.promote slot = some s'

/-! ## The meter -/

/-- The slots whose `ticks_used` an operation sets to 0; for a tick, those of the boost. -/
def Op.restarts (s : Scheduler) : Op → List TaskId
  | .spawn .. | .spawnUser .. => s.findFreeSlot.toList
  | .exec .. => [s.current]
  | .tick _ => s.dueSlots
  | .block reason => if (s.tasks s.current).isSome then reason.restarts s.current else []
  | .boostAll => s.drainable
  | .boostForReason slot reason => reason.restarts slot
  | .promote slot => [slot]
  | .run | .reschedule .. | .wake _ | .kill _ => []

/-- The meter of one slot, which showed `n`. A tick is charged to the current task after the boost,
and the meter is back at 0 when the tick demotes it. -/
def Op.charge (s : Scheduler) (op : Op) (slot : TaskId) (n : Nat) : Nat :=
  let n := if slot ∈ op.restarts s then 0 else n
  match op with
  | .tick expired => if slot = s.current then (if expired then 0 else n + 1) else n
  | _ => n

/-- The ticks charged to a slot since its `ticks_used` was last reset. -/
def charged (history : List (Transition Scheduler Op)) (slot : TaskId) : Nat :=
  history.foldl (fun n l => l.label.charge l.src slot n) 0

variable {s s' s'' : Scheduler} {slot k : Nat} {t u : Task}

/-! ## Tasks that are left alone, and tasks that start afresh -/

/-- From `f` to `g` the tasks in the slots `ids` get a new quantum, and the others keep priority and
used ticks. -/
def Accounts (ids : List TaskId) (f g : Nat → Option Task) : Prop :=
  ∀ slot u, g slot = some u →
    if slot ∈ ids then
      u.ticksUsed = 0 ∧ (u.priority < priorityLevels ∨ ∃ t, f slot = some t ∧
        u.priority ≤ t.priority)
    else ∃ t, f slot = some t ∧ u.priority = t.priority ∧ u.ticksUsed = t.ticksUsed

namespace Accounts

variable {ids ids' : List TaskId} {f g h : Nat → Option Task}

theorem of_empty (hnone : ∀ slot ∈ ids, f slot = none) : Accounts ids f f := by
  intro slot u hu
  split
  · next hslot =>
      rw [hnone slot hslot] at hu
      cases hu
  · exact ⟨u, hu, rfl, rfl⟩

theorem refl (f : Nat → Option Task) : Accounts [] f f := of_empty (by simp)

theorem trans (hfg : Accounts ids f g) (hgh : Accounts ids' g h) : Accounts (ids ++ ids') f h := by
  intro slot v hv
  have hgh := hgh slot v hv
  simp only [List.mem_append]
  by_cases hslot' : slot ∈ ids'
  · rw [if_pos hslot'] at hgh
    rw [if_pos (.inr hslot')]
    refine ⟨hgh.1, ?_⟩
    rcases hgh.2 with hlt | ⟨u, hu, hle⟩
    · exact .inl hlt
    · have hfg := hfg slot u hu
      split at hfg
      · rcases hfg.2 with hlt | ⟨t, ht, hle'⟩
        · exact .inl (lt_of_le_of_lt hle hlt)
        · exact .inr ⟨t, ht, le_trans hle hle'⟩
      · obtain ⟨t, ht, heq, -⟩ := hfg
        exact .inr ⟨t, ht, by omega⟩
  · rw [if_neg hslot'] at hgh
    obtain ⟨u, hu, hprio, hticks⟩ := hgh
    have hfg := hfg slot u hu
    simp only [hslot', or_false, hprio, hticks]
    exact hfg

/-- One task gets a new quantum. -/
theorem update (hticks : u.ticksUsed = 0)
    (hprio : u.priority < priorityLevels ∨ ∃ t, f slot = some t ∧ u.priority ≤ t.priority) :
    Accounts [slot] f (update f slot (some u)) := by
  intro j v hv
  rw [update_apply] at hv
  simp only [List.mem_singleton]
  split at hv
  · next hj =>
      cases hv
      rw [if_pos hj, hj]
      exact ⟨hticks, hprio⟩
  · next hj =>
      rw [if_neg hj]
      exact ⟨v, hv, rfl, rfl⟩

theorem rewrite (ht : f slot = some t) (hprio : u.priority = t.priority)
    (hticks : u.ticksUsed = t.ticksUsed) : Accounts [] f (Function.update f slot (some u)) := by
  intro j v hv
  rw [Function.update_apply] at hv
  split at hv
  · next hj =>
      cases hv
      rw [hj]
      exact ⟨t, ht, hprio, hticks⟩
  · exact ⟨v, hv, rfl, rfl⟩

theorem of_map_eq (hmap : ∀ slot, (g slot).map (fun t : Task => (t.priority, t.ticksUsed)) =
    (f slot).map fun t => (t.priority, t.ticksUsed)) : Accounts [] f g := by
  intro slot u hu
  have hslot := hmap slot
  rw [hu, map_some, eq_comm, map_eq_some_iff] at hslot
  obtain ⟨t, ht, hpair⟩ := hslot
  obtain ⟨hprio, hticks⟩ := Prod.mk.inj hpair
  exact ⟨t, ht, hprio.symm, hticks.symm⟩

theorem of_dispatches (hrw : Rewrites Task.Dispatches f g) : Accounts [] f g := by
  refine of_map_eq (hrw.map_eq ?_)
  rintro t u ⟨state, context, awakePending, -⟩
  rfl

theorem of_boosted
    (hg : ∀ slot, g slot = if slot ∈ ids then (f slot).map Task.boosted else f slot) :
    Accounts ids f g := by
  intro slot u hu
  rw [hg slot] at hu
  split at hu
  · next hslot =>
      obtain ⟨t, ht, rfl⟩ := map_eq_some_iff.mp hu
      rw [if_pos hslot]
      exact ⟨rfl, Or.inl (Nat.zero_lt_succ _)⟩
  · next hslot =>
      rw [if_neg hslot]
      exact ⟨u, hu, rfl, rfl⟩

end Accounts

/-- What an operation other than a tick does, as far as quanta are concerned. -/
structure Effect (ids : List TaskId) (s s' : Scheduler) : Prop where
  accounts : Accounts ids s.tasks s'.tasks
  inTable : InTable s → InTable s'
  boostCountdown_eq : s'.boostCountdown = s.boostCountdown

theorem Effect.refl (s : Scheduler) : Effect [] s s := ⟨.refl _, id, rfl⟩

theorem Writes.effect (h : Writes Task.Dispatches s s') : Effect [] s s' :=
  ⟨.of_dispatches h.tasks, h.inTable, h.boostCountdown_eq⟩

theorem Effect.trans {ids ids' : List TaskId} (h₁ : Effect ids s s') (h₂ : Effect ids' s' s'') :
    Effect (ids ++ ids') s s'' :=
  ⟨h₁.accounts.trans h₂.accounts, fun hs => h₂.inTable (h₁.inTable hs),
    h₂.boostCountdown_eq.trans h₁.boostCountdown_eq⟩

theorem Restarts.effect (h : Restarts slot s s') : Effect [slot] s s' := by
  refine ⟨?_, h.writes.inTable, h.writes.boostCountdown_eq⟩
  cases h with
  | absent hnone => exact .of_empty (by simpa using hnone)
  | resets ht hp hqueue =>
    rw [hqueue.tasks_eq]
    exact .update rfl (.inr ⟨_, ht, hp⟩)

theorem RestartsAll.effect {slots : List TaskId} (h : RestartsAll s' slots s) :
    Effect slots s s' := by
  induction h with
  | nil => exact .refl s'
  | cons hfirst _ ih => exact hfirst.effect.trans ih

theorem Spawned.effect (h : Spawned s phys k (some s')) :
    Effect s.findFreeSlot.toList s s' := by
  cases h with
  | full hfree heq =>
    cases heq
    rw [hfree]
    exact .refl _
  | fails hfree _ heq =>
    cases heq
    rw [hfree]
    have hnone := (findFreeSlot_eq_some hfree).2
    exact ⟨.of_empty (by simpa using hnone), fun hs => ⟨hs.queued_lt, hs.current⟩, rfl⟩
  | @places slot p t hfree _ hfresh hqueue =>
    have hlt := (findFreeSlot_eq_some hfree).1
    have hqueues := requeues_pushBack hlt hqueue.symm
    rw [hfree]
    refine ⟨?_, fun hs => hqueues.inTable ⟨hs.queued_lt, hs.current⟩, hqueues.boostCountdown_eq⟩
    rw [hqueues.tasks_eq]
    refine .update hfresh.ticksUsed_eq (.inl ?_)
    rw [hfresh.priority_eq]
    by_contra hk
    cases hqueue.trans (if_neg hk)

theorem effect_replaceCurrentTask {pf : Platform} {entry userStackTop : U64}
    {name : String} {pageTable argc argv : U64} {d : Dispatch}
    (h : s.replaceCurrentTask pf phys entry userStackTop name pageTable argc argv = some (s', d)) :
    Effect [s.current] s s' := by
  obtain ⟨o, -, h⟩ := bind_eq_some_iff.mp h
  obtain ⟨t, -, h⟩ := bind_eq_some_iff.mp h
  obtain ⟨u, hu, h⟩ := bind_eq_some_iff.mp h
  cases h
  have hfresh := Task.newUser_fresh hu
  have hprio : u.priority < priorityLevels := by
    rw [hfresh.priority_eq]
    decide
  exact ⟨.update hfresh.ticksUsed_eq (.inl hprio), fun hs => ⟨hs.queued_lt, hs.current⟩, rfl⟩

theorem effect_blockCurrent {reason : BlockReason} (h : s.blockCurrent reason = some s') :
    Effect ((Op.block reason).restarts s) s s' := by
  obtain ⟨o, hat, h⟩ := bind_eq_some_iff.mp h
  have ht := (taskAt_eq_some hat).2
  cases o with
  | none =>
    cases h
    simp only [Op.restarts, ht, isSome_none, Bool.false_eq_true, if_false]
    exact .refl _
  | some t =>
    simp only [Op.restarts, ht, isSome_some, if_true]
    have hset : Effect [] s (s.setTask s.current { t with state := .blocked }) :=
      ⟨.rewrite ht rfl rfl, fun hs => ⟨hs.queued_lt, hs.current⟩, rfl⟩
    exact hset.trans (restarts_boostForReason h).effect

theorem effect_boostAll (h : s.boostAll = some s') (hs : InTable s) : Effect s.drainable s s' := by
  have hwrites := writes_boostLevels h
  obtain ⟨s₁, hrun, hdrained⟩ := hs.boostAll_drained
  rw [hrun] at h
  cases h
  exact ⟨.of_boosted hdrained.tasks, hwrites.inTable, hwrites.boostCountdown_eq⟩

theorem effect_op {op : Op} (h : opStep s op s') (hs : InTable s)
    (htick : ∀ expired, op ≠ .tick expired) : Effect (op.restarts s) s s' := by
  cases op with
  | spawn pf phys cr3 entry name priority =>
    obtain ⟨r, h⟩ := h
    have hspawned := spawn_spawned s pf phys cr3 entry name priority
    rw [h] at hspawned
    exact hspawned.effect
  | spawnUser pf phys entry userStackTop name priority pageTable trampoline =>
    obtain ⟨r, h⟩ := h
    have hspawned := spawnUser_spawned s pf phys entry userStackTop name priority pageTable
      trampoline
    rw [h] at hspawned
    exact hspawned.effect
  | run =>
    obtain ⟨d, h⟩ := h
    exact (writes_run h).effect
  | tick expired => exact absurd rfl (htick expired)
  | reschedule regs framePtr =>
    obtain ⟨d, h⟩ := h
    exact (writes_reschedule h).effect
  | block reason => exact effect_blockCurrent h
  | wake taskId => exact (writes_wakeTask h).effect
  | kill slot => exact (writes_kill h).effect
  | exec pf phys entry userStackTop name pageTable argc argv =>
    obtain ⟨d, h⟩ := h
    exact effect_replaceCurrentTask h
  | boostAll => exact effect_boostAll h hs
  | boostForReason slot reason => exact (restarts_boostForReason h).effect
  | promote slot => exact (restarts_promote h).effect

/-! ## The meter agrees with the scheduler -/

/-- Every task has used as many ticks of its quantum as the meter shows. -/
structure Metered (meter : TaskId → Nat) (s : Scheduler) : Prop where
  inTable : InTable s
  tasks : ∀ slot < maxTasks, ∀ t, s.tasks slot = some t → t.priority < priorityLevels ∧
    t.ticksUsed = meter slot ∧ ∃ quantum, quanta[t.priority]? = some quantum ∧ t.ticksUsed < quantum

theorem quantum_pos {p : Nat} (hp : p < priorityLevels) :
    ∃ quantum, quanta[p]? = some quantum ∧ 0 < quantum := by
  have hall : ∀ p < priorityLevels, ∃ quantum, quanta[p]? = some quantum ∧ 0 < quantum := by
    decide
  exact hall p hp

theorem Metered.accounts {ids : List TaskId} (h : Metered meter s)
    (hacc : Accounts ids s.tasks s'.tasks) (hin : InTable s') :
    Metered (fun slot => if slot ∈ ids then 0 else meter slot) s' := by
  refine ⟨hin, fun slot hlt u hu => ?_⟩
  have hslot := hacc slot u hu
  by_cases hmem : slot ∈ ids
  · simp only [hmem, if_true] at hslot ⊢
    have hprio : u.priority < priorityLevels := by
      rcases hslot.2 with hprio | ⟨t, ht, hle⟩
      · exact hprio
      · exact lt_of_le_of_lt hle (h.tasks slot hlt t ht).1
    rw [hslot.1]
    exact ⟨hprio, rfl, quantum_pos hprio⟩
  · simp only [hmem, if_false] at hslot ⊢
    obtain ⟨t, ht, hprio, hticks⟩ := hslot
    rw [hprio, hticks]
    exact h.tasks slot hlt t ht

/-! ## Ticks -/

/-- The current slot, if there is one, is empty. -/
theorem tick_of_no_task (hrun : s.countdown = some s₁)
    (hcur : s₁.current = noTask ∨ s₁.current < maxTasks ∧ s₁.tasks s₁.current = none) :
    s.tick = some (s₁, false) := by
  unfold tick
  simp only [hrun, bind_eq_bind, bind_some]
  rcases hcur with hno | ⟨hlt, hnone⟩
  · rw [if_pos hno]
    rfl
  · rw [if_neg (ne_noTask hlt), taskAt_of_lt hlt, hnone]
    rfl

/-- A tick, the `n`-th that is charged to the current task. `s₁` is the state after the countdown,
in which the boost has happened if it was due. -/
structure Ticked (n : Nat) (s s₁ s' : Scheduler) (expired : Bool) : Prop where
  current : s.current ≠ noTask → ∀ t, s₁.tasks s.current = some t → ∃ quantum,
    quanta[t.priority]? = some quantum ∧ (expired = true ↔ n = quantum) ∧
      s'.tasks s.current = some (if n = quantum then t.demoted else t.ticked)
  others : ∀ slot, slot ≠ s.current → s'.tasks slot = s₁.tasks slot

/-- No task is current, so none is charged. -/
theorem tick_metered_of_no_task (hrun : s.countdown = some s₁) (hcur : s₁.current = s.current)
    (h₁ : Metered (fun slot => if slot ∈ s.dueSlots then 0 else meter slot) s₁)
    (hno : s₁.current = noTask ∨ s₁.current < maxTasks ∧ s₁.tasks s₁.current = none) (n : Nat) :
    s.tick = some (s₁, false) ∧ Ticked n s s₁ s₁ false ∧
      Metered (fun slot => (Op.tick false).charge s slot (meter slot)) s₁ := by
  refine ⟨tick_of_no_task hrun hno, ⟨fun hne t ht => ?_, fun _ _ => rfl⟩, h₁.inTable, ?_⟩
  · rw [← hcur] at hne ht
    rcases hno with hno | ⟨-, hnone⟩
    · exact absurd hno hne
    · rw [hnone] at ht
      cases ht
  · intro slot hlt t ht
    have hne : slot ≠ s.current := by
      rintro rfl
      rw [hcur] at hno
      rcases hno with hno | ⟨-, hnone⟩
      · exact ne_noTask hlt hno
      · rw [hnone] at ht
        cases ht
    unfold Op.charge
    simp only [if_neg hne]
    exact h₁.tasks slot hlt t ht

/-- The current task is charged. -/
theorem Metered.charge {quantum : Nat}
    (h₁ : Metered (fun slot => if slot ∈ s.dueSlots then 0 else meter slot) s₁)
    (hcur : s₁.current = s.current) (hlt : s₁.current < maxTasks)
    (ht : s₁.tasks s₁.current = some t) (hq : quanta[t.priority]? = some quantum) :
    Metered (fun slot => (Op.tick (decide (t.ticksUsed + 1 ≥ quantum))).charge s slot (meter slot))
      (s₁.setTask s₁.current (if t.ticksUsed + 1 ≥ quantum then t.demoted else t.ticked)) := by
  refine ⟨⟨h₁.inTable.queued_lt, h₁.inTable.current⟩, fun slot hslot u hu => ?_⟩
  obtain ⟨hp, hticks, -⟩ := h₁.tasks _ hlt t ht
  dsimp only [setTask] at hu
  rw [update_apply, hcur] at hu
  unfold Op.charge
  by_cases heq : slot = s.current
  · rw [if_pos heq] at hu
    cases hu
    simp only [if_pos heq]
    by_cases hdone : t.ticksUsed + 1 ≥ quantum
    · simp only [if_pos hdone, decide_eq_true hdone, if_true]
      exact ⟨demoted_priority_lt t, rfl, quantum_pos (demoted_priority_lt t)⟩
    · simp only [if_neg hdone, decide_eq_false hdone, Bool.false_eq_true, if_false]
      refine ⟨hp, ?_, quantum, hq, not_le.mp hdone⟩
      show t.ticksUsed + 1 = _
      rw [hticks, hcur, heq]
      rfl
  · rw [if_neg heq] at hu
    simp only [if_neg heq]
    exact h₁.tasks slot hslot u hu

theorem tick_metered (h : Metered meter s) :
    ∃ s₁ s' expired, s.countdown = some s₁ ∧ s.tick = some (s', expired) ∧
      Ticked ((if s.current ∈ s.dueSlots then 0 else meter s.current) + 1) s s₁ s' expired ∧
      Metered (fun slot => (Op.tick expired).charge s slot (meter slot)) s' := by
  obtain ⟨s₁, hrun, hcur, htasks⟩ := countdown_tasks h.inTable
  have h₁ := h.accounts (.of_boosted htasks) (inTable_countdown hrun h.inTable)
  rcases h₁.inTable.current with hno | hlt
  · exact ⟨s₁, s₁, false, hrun, tick_metered_of_no_task hrun hcur h₁ (.inl hno) _⟩
  cases ht : s₁.tasks s₁.current with
  | none => exact ⟨s₁, s₁, false, hrun, tick_metered_of_no_task hrun hcur h₁ (.inr ⟨hlt, ht⟩) _⟩
  | some t =>
    obtain ⟨hp, hticks, quantum, hq, hless⟩ := h₁.tasks _ hlt t ht
    set n := if s.current ∈ s.dueSlots then 0 else meter s.current with hn
    have hticks : t.ticksUsed = n := by rw [hticks, hcur, hn]
    have hiff : t.ticksUsed + 1 ≥ quantum ↔ n + 1 = quantum := by omega
    refine ⟨s₁, _, _, hrun, tick_of_countdown hrun hlt ht hp hq, ⟨?_, ?_⟩, ?_⟩
    · intro _ u hu
      rw [← hcur, ht] at hu
      cases hu
      refine ⟨quantum, hq, by rw [decide_eq_true_iff, hiff], ?_⟩
      simp only [setTask, hcur, update_self, hiff]
    · intro slot hslot
      rw [← hcur] at hslot
      exact update_of_ne hslot _ _
    · exact h₁.charge hcur hlt ht hq

theorem opStep_metered {op : Op} (h : Metered meter s) (hstep : opStep s op s') :
    Metered (fun slot => op.charge s slot (meter slot)) s' := by
  by_cases htick : ∃ expired, op = .tick expired
  · obtain ⟨expired, rfl⟩ := htick
    obtain ⟨s₁, s₂, expired', -, hrun, -, hmetered⟩ := tick_metered h
    have hstep : s.tick = some (s', expired) := hstep
    rw [hstep] at hrun
    cases hrun
    exact hmetered
  · have htick : ∀ expired, op ≠ .tick expired := fun expired heq => htick ⟨expired, heq⟩
    have heffect := effect_op hstep h.inTable htick
    have hcharge : (fun slot => op.charge s slot (meter slot)) =
        fun slot => if slot ∈ op.restarts s then 0 else meter slot := by
      cases op with
      | tick expired => exact absurd rfl (htick expired)
      | _ => rfl
    rw [hcharge]
    exact h.accounts heffect.accounts (heffect.inTable h.inTable)

theorem metered_new : Metered (fun _ => 0) Scheduler.new := by
  refine ⟨⟨?_, Or.inl rfl⟩, ?_⟩
  · rintro k slot ⟨⟩
  · rintro slot - t ⟨⟩

theorem metered_of_run {history : List (Transition Scheduler Op)}
    (h : Run opStep Scheduler.new history s) : Metered (charged history) s := by
  induction h with
  | nil => exact metered_new
  | @snoc history m op s' hrun hstep ih =>
    have hcharged : charged (history ++ [⟨m, op, s'⟩]) =
        fun slot => op.charge m slot (charged history slot) := by
      funext slot
      unfold charged
      rw [List.foldl_append]
      rfl
    rw [hcharged]
    exact opStep_metered ih hstep

/-- **Quantum accounting.** In every run no task exceeds its quantum, and a tick demotes the current
task exactly if it is the last one of its quantum. -/
theorem quantum_accounting {history : List (Transition Scheduler Op)}
    (h : Run opStep Scheduler.new history s) :
    (∀ slot < maxTasks, ∀ t, s.tasks slot = some t → t.priority < priorityLevels ∧
      ∃ quantum, quanta[t.priority]? = some quantum ∧ t.ticksUsed < quantum) ∧
    ∃ s₁ s' expired, s.countdown = some s₁ ∧ s.tick = some (s', expired) ∧
      Ticked ((if s.current ∈ s.dueSlots then 0 else charged history s.current) + 1)
        s s₁ s' expired := by
  have hmetered := metered_of_run h
  refine ⟨fun slot hlt t ht => ?_, ?_⟩
  · obtain ⟨hp, -, hquantum⟩ := hmetered.tasks slot hlt t ht
    exact ⟨hp, hquantum⟩
  · obtain ⟨s₁, s', expired, hrun, htick, hticked, -⟩ := tick_metered hmetered
    exact ⟨s₁, s', expired, hrun, htick, hticked⟩

/-- A task at level 1, whose quantum is two ticks: the first leaves it there, the second demotes
it. -/
theorem quantum_accounting_two_ticks :
    ∃ history s s' expired, Run opStep Scheduler.new history s ∧ s.current = 0 ∧
      charged history 0 = 1 ∧ s.tick = some (s', expired) ∧ expired = true ∧
      ∃ t, s'.tasks 0 = some t ∧ t.priority = 2 ∧ t.ticksUsed = 0 := by
  obtain ⟨s₀, s₁, s₂, hspawn, hrun, htick, hcur, hdue, hcharged, t, ht, hprio⟩ : ∃ s₀ s₁ s₂,
      opStep Scheduler.new (.spawn ⟨0, 0, 0⟩ (some 0x100000) 0x1000 0x2000 "shell" 1) s₀ ∧
      opStep s₀ .run s₁ ∧ opStep s₁ (.tick false) s₂ ∧ s₂.current = 0 ∧ s₂.dueSlots = [] ∧
      charged [⟨Scheduler.new, .spawn ⟨0, 0, 0⟩ (some 0x100000) 0x1000 0x2000 "shell" 1, s₀⟩,
        ⟨s₀, .run, s₁⟩, ⟨s₁, .tick false, s₂⟩] 0 = 1 ∧
      ∃ t, (s₂.countdown.bind fun s => s.tasks 0) = some t ∧ t.priority = 1 :=
    ⟨_, _, _, ⟨_, rfl⟩, ⟨_, rfl⟩, rfl, rfl, rfl, rfl, _, rfl, rfl⟩
  have hhistory := Run.cons hspawn (.cons hrun (.single htick))
  obtain ⟨-, s₃, s', expired, hcount, htick', hticked⟩ := quantum_accounting hhistory
  rw [hcount, bind_some] at ht
  obtain ⟨quantum, hq, hiff, htask⟩ :=
    hticked.current (by rw [hcur]; decide) t (by rw [hcur]; exact ht)
  rw [hprio] at hq
  cases hq
  rw [hcur, hdue, hcharged] at hiff htask
  refine ⟨_, s₂, s', expired, hhistory, hcur, hcharged, htick', hiff.mpr rfl, t.demoted, htask, ?_,
    rfl⟩
  show min (t.priority + 1) (priorityLevels - 1) = 2
  rw [hprio]
  rfl

end BeastOs.Scheduler
