import BeastOs.Scheduler.RunQueue

/-!
# Dead tasks

`exit_current` marks the current task as dead and reschedules. Every other write to a task's state
finds the task running, ready or blocked, with one exception: when `reschedule` has nothing to
switch to it resumes the old task, whatever became of it. So a task that exits while no other task
is ready is running again right away.

Main result: `deadFinal_iff_exitsToReady`, for whole runs; `dead_runs_again` is a run in which the
only task exits.
-/

namespace BeastOs.Scheduler

open Option Function Lib

def IsDead (s : Scheduler) (slot : TaskId) : Prop := s.InState .dead slot

/-- Some task is ready. -/
def HasReady (s : Scheduler) : Prop :=
  ∃ slot < maxTasks, ∃ t, s.tasks slot = some t ∧ t.state = .ready

/-- Dead tasks stay dead, a task that exits is dead after the event, and a dead task is neither the
current one nor the one `pick_next` would return. -/
structure DeadFinal (t : Transition Scheduler Event) : Prop where
  stays : ∀ slot, t.src.IsDead slot → t.dst.IsDead slot
  exits : ∀ regs framePtr, t.label = .exit regs framePtr → t.dst.IsDead t.src.current
  not_current : ∀ slot, t.dst.IsDead slot → t.dst.current ≠ slot
  not_picked : ∀ slot < maxTasks, t.dst.IsDead slot → ∀ s picked,
    t.dst.pickNext = some (s, picked) → picked ≠ slot

/-- A task exits only while another one is ready. -/
def ExitsToReady (t : Transition Scheduler Event) : Prop :=
  ∀ regs framePtr, t.label = .exit regs framePtr → t.src.HasReady

variable {s s' s'' : Scheduler} {slot : TaskId} {t u : Task} {e : Event} {d : Option Dispatch}
  {regs : AllRegisters} {framePtr : U64}

/-! ## What keeps dead tasks dead -/

/-- From `s` to `s'` dead tasks stay dead. -/
def DeadKept (s s' : Scheduler) : Prop := ∀ slot, s.IsDead slot → s'.IsDead slot

/-- Moreover, none dies. -/
def SameDead (s s' : Scheduler) : Prop := ∀ slot, s'.IsDead slot ↔ s.IsDead slot

theorem SameDead.refl (s : Scheduler) : SameDead s s := fun _ => Iff.rfl

theorem SameDead.trans (h₁ : SameDead s s') (h₂ : SameDead s' s'') : SameDead s s'' :=
  fun slot => (h₂ slot).trans (h₁ slot)

theorem SameDead.deadKept (h : SameDead s s') : DeadKept s s' := fun slot => (h slot).mpr

variable (htasks : s'.tasks = update s.tasks slot (some u))

include htasks in
/-- One task is rewritten. -/
theorem isDead_update (j : TaskId) :
    s'.IsDead j ↔ if j = slot then u.state = .dead else s.IsDead j :=
  inState_update htasks .dead j

variable (ht : s.tasks slot = some t)

include htasks ht in
theorem SameDead.update (hdead : u.state = .dead ↔ t.state = .dead) : SameDead s s' := by
  intro j
  rw [isDead_update htasks, hdead]
  split
  next hj => simp [IsDead, InState, hj, ht]
  · exact Iff.rfl

theorem Reprioritised.sameDead (h : Reprioritised s s') : SameDead s s' :=
  fun slot => h.inState_iff slot .dead

theorem Grown.sameDead (h : Grown s s') : SameDead s s' := fun slot => h.inState_iff slot nofun

variable (h : Consistent s.tasks s.queues)

include h in
/-- Only ready tasks are queued, so nothing is queued exactly if none is ready. -/
theorem not_hasReady_of_empty
    (hempty : ∀ k < priorityLevels, (s.queues k).toList = []) : ¬ s.HasReady := by
  rintro ⟨slot, hlt, t, ht, hready⟩
  have hnone := h.readyLevel_eq_none hempty hlt ht
  rw [ht, readyLevel_ready hready] at hnone
  cases hnone

include h in
/-- What `pick_next` returns is ready. -/
theorem ready_of_pickNext {s₁ : Scheduler} (hpick : s.pickNext = some (s₁, slot))
    (hlt : slot < maxTasks) : ∃ t, s.tasks slot = some t ∧ t.state = .ready := by
  obtain ⟨s₂, picked, hpick', hpicked⟩ := pickNext_spec h
  rw [hpick] at hpick'
  cases hpick'
  cases hpicked with
  | nothing => exact absurd rfl (ne_noTask hlt)
  | task _ _ _ _ _ ht hready => exact ⟨_, ht, hready⟩

/-! ## The context switch -/

/-- A running task is made ready, any other keeps its state. -/
theorem requeueOld_tasks (ht : s.tasks s.current = some t) (hlt : s.current < maxTasks)
    (hrun : s.requeueOld regs framePtr = some s') :
    ∃ u, s'.tasks = update s.tasks s.current (some u) ∧
      u.state = if t.state = .running then .ready else t.state := by
  unfold requeueOld at hrun
  simp only [bind_eq_bind, taskAt_of_lt hlt, bind_some, ht] at hrun
  split at hrun
  next hrunning =>
    unfold onQueue at hrun
    split at hrun
    · cases hrun
      exact ⟨_, rfl, (if_pos hrunning).symm⟩
    · cases hrun
  next hrunning =>
    cases hrun
    exact ⟨_, rfl, (if_neg hrunning).symm⟩

/-- The fallback of `reschedule` runs when no task is ready; otherwise dead tasks stay dead. -/
theorem switchTo_dead (hc : Consistent s.tasks s.queues) (hlt : s.current < maxTasks)
    (ht : s.tasks s.current = some t) (hrun : s.switchTo s.current = some (s', d)) :
    (¬ s.HasReady ∧ s'.current = s.current ∧
        s'.tasks = update s.tasks s.current (some { t with state := .running })) ∨
      (s.HasReady ∧ SameDead s s') := by
  obtain ⟨s₁, newSlot, hpick, hpicked⟩ := pickNext_spec hc
  cases hpicked with
  | nothing hempty =>
    left
    rw [switchTo_of_nothing hpick hlt ht] at hrun
    cases hrun
    exact ⟨not_hasReady_of_empty hc hempty, rfl, rfl⟩
  | task _ _ _ _ hnew hv hready =>
    right
    obtain ⟨s₂, d', hswitch, rfl, -⟩ := switchTo_of_picked hnew hpick hv
    rw [hrun] at hswitch
    cases hswitch
    exact ⟨⟨newSlot, hnew, _, hv, hready⟩, SameDead.update rfl hv (by simp [hready])⟩

include htasks ht in
/-- Rewriting a task that is not ready by one that is not ready leaves the ready ones. -/
theorem hasReady_update (hold : t.state ≠ .ready) (hnew : u.state ≠ .ready) :
    s'.HasReady ↔ s.HasReady := by
  have hsame : ∀ j, (∃ v, s'.tasks j = some v ∧ v.state = .ready) ↔
      ∃ v, s.tasks j = some v ∧ v.state = .ready := by
    intro j
    rw [htasks, update_apply]
    split
    next hj => simp [hj, ht, hold, hnew]
    · exact Iff.rfl
  unfold HasReady
  simp only [hsame]

/-- The two halves of a context switch. -/
theorem reschedule_halves (h : Leaving s) (ht : s.tasks s.current = some t)
    (hrun : s.reschedule regs framePtr = some (s', d)) :
    ∃ s₁ u, s₁.tasks = update s.tasks s.current (some u) ∧ s₁.current = s.current ∧
      u.state = (if t.state = .running then .ready else t.state) ∧
      ((¬ s₁.HasReady ∧ s'.current = s.current ∧
          s'.tasks = update s.tasks s.current (some { u with state := .running })) ∨
        (s₁.HasReady ∧ SameDead s₁ s')) := by
  obtain ⟨s₁, hrun₁, hcons₁, hcur₁, -⟩ := requeueOld_spec regs framePtr h
  obtain ⟨u, htasks₁, hstate⟩ := requeueOld_tasks ht h.current_lt hrun₁
  have hlt₁ : s₁.current < maxTasks := by rw [hcur₁]; exact h.current_lt
  have hu : s₁.tasks s₁.current = some u := by rw [htasks₁, hcur₁, update_self]
  unfold reschedule at hrun
  simp only [bind_eq_bind, hrun₁, bind_some] at hrun
  rw [← hcur₁] at hrun
  refine ⟨s₁, u, htasks₁, hcur₁, hstate, ?_⟩
  have hhalf := switchTo_dead hcons₁ hlt₁ hu hrun
  rwa [htasks₁, hcur₁, update_idem] at hhalf

/-- In a context switch none dies, and dead tasks stay dead if the old task is alive or another one
is ready. -/
theorem reschedule_sameDead (h : Leaving s) (ht : s.tasks s.current = some t)
    (hrun : s.reschedule regs framePtr = some (s', d)) (hok : t.state ≠ .dead ∨ s.HasReady) :
    SameDead s s' := by
  obtain ⟨s₁, u, htasks₁, -, hstate, hhalf⟩ := reschedule_halves h ht hrun
  have hdead : u.state = .dead ↔ t.state = .dead := by
    rw [hstate]
    split
    next hrunning => simp [hrunning]
    · exact Iff.rfl
  rcases hhalf with ⟨hnone, -, htasks⟩ | ⟨-, hsame⟩
  · -- nothing is ready, so the old task was not running, and it is alive
    have halive : t.state ≠ .dead := by
      refine hok.resolve_right fun hready => hnone ?_
      obtain ⟨v, hv, hnot⟩ := h.current_task
      obtain rfl := some.inj (ht.symm.trans hv)
      by_cases hrunning : t.state = .running
      · rw [if_pos hrunning] at hstate
        exact ⟨s.current, h.current_lt, u, by rw [htasks₁, update_self], hstate⟩
      · rw [if_neg hrunning] at hstate
        exact (hasReady_update htasks₁ ht hnot (by rw [hstate]; exact hnot)).mpr hready
    exact SameDead.update htasks ht (by simp [halive])
  · exact (SameDead.update htasks₁ ht hdead).trans hsame

/-- Without a ready task the old one runs on, even a dead one. -/
theorem resumed_of_reschedule (h : Leaving s) (ht : s.tasks s.current = some t)
    (hrun : s.reschedule regs framePtr = some (s', d)) (hdead : t.state = .dead)
    (hnone : ¬ s.HasReady) : s'.current = s.current ∧
      ∃ u, u.state = .running ∧ s'.tasks = update s.tasks s.current (some u) := by
  obtain ⟨s₁, u, htasks₁, -, hstate, hhalf⟩ := reschedule_halves h ht hrun
  rw [hdead, if_neg (by simp)] at hstate
  rcases hhalf with ⟨-, hcur, htasks⟩ | ⟨hready, -⟩
  · exact ⟨hcur, _, rfl, htasks⟩
  · exact absurd ((hasReady_update htasks₁ ht (by simp [hdead]) (by simp [hstate])).mp hready) hnone

/-! ## The other events -/

theorem tick_sameDead {expired : Bool} (h : Settled s) (hrun : s.tick = some (s', expired)) :
    SameDead s s' := by
  obtain ⟨s₁, t, u, expired', htick, hrep, -, ht, htr, hur, -⟩ := tick_eq h
  rw [hrun] at htick
  cases htick
  exact hrep.sameDead.trans (SameDead.update rfl ht (by rw [hur, htr]))

theorem timerTick_sameDead (h : Settled s) (hrun : s.timerTick regs framePtr = some (s', d)) :
    SameDead s s' := by
  obtain ⟨s₁, expired, hrun₁, hset₁, -⟩ := tick_spec h
  unfold timerTick at hrun
  simp only [bind_eq_bind, hrun₁, bind_some] at hrun
  refine (tick_sameDead h hrun₁).trans ?_
  cases expired with
  | false =>
    cases hrun
    exact .refl _
  | true =>
    obtain ⟨t, ht, hrunning⟩ := hset₁.exists_current
    exact reschedule_sameDead hset₁.leaving ht hrun (.inl (by rw [hrunning]; simp))

theorem wakeTask_sameDead {taskId : TaskId} (hrun : s.wakeTask taskId = some s') :
    SameDead s s' := by
  cases hfind : s.findTask taskId with
  | none =>
    cases (wakeTask_of_none hfind).symm.trans hrun
    exact .refl _
  | some slot =>
    obtain ⟨-, t, ht, -⟩ := findTask_eq_some hfind
    refine SameDead.update (tasks_of_wakeTask hfind ht hrun) ht ?_
    unfold Task.woken
    split
    next hblocked => simp [hblocked]
    · exact Iff.rfl

theorem exitCurrent_tasks (hlt : s.current < maxTasks) (ht : s.tasks s.current = some t)
    (hrun : s.exitCurrent = some s') :
    s'.tasks = update s.tasks s.current (some { t with state := .dead }) := by
  unfold exitCurrent kill at hrun
  simp only [bind_eq_bind, taskAt_of_lt hlt, bind_some, ht] at hrun
  exact (sameTasks_onQueue hrun).tasks_eq

include h in
theorem grown_of_step (he : e.Allowed) (hspawns : e.Spawns)
    (hstep : s.step e = some (s', d)) : Grown s s' := by
  obtain ⟨s₁, hrun, -, -, hgrown⟩ := step_grown h he hspawns
  rw [hstep] at hrun
  cases hrun
  exact hgrown

/-- In every event but an exit none dies, and dead tasks stay dead. -/
theorem step_sameDead (h : Settled s) (he : e.Allowed) (hstep : s.step e = some (s', d))
    (hexit : ∀ regs framePtr, e ≠ .exit regs framePtr) : SameDead s s' := by
  obtain ⟨t, ht, hrunning⟩ := h.exists_current
  have halive : t.state ≠ .dead := by rw [hrunning]; simp
  cases e with
  | spawn | spawnUser => exact (grown_of_step h.consistent he trivial hstep).sameDead
  | timer regs framePtr => exact timerTick_sameDead h hstep
  | block reason regs framePtr =>
    obtain ⟨s₁, u, hrun₁, hleav, hcur, hu, hrep⟩ := blockCurrent_spec h he
    simp only [step, hrun₁, bind_eq_bind, bind_some] at hstep
    obtain rfl := some.inj (ht.symm.trans hu)
    have hsame : SameDead s (s.setTask s.current { t with state := .blocked }) :=
      SameDead.update rfl ht (by simp [halive])
    obtain ⟨v, hv, hfix⟩ := hrep.exists_task (update_self _ _ _)
    rw [← hcur] at hv
    refine (hsame.trans hrep.sameDead).trans (reschedule_sameDead hleav hv hstep (.inl ?_))
    rw [Task.state_eq_of_fixed hfix]
    simp
  | exit regs framePtr => exact absurd rfl (hexit regs framePtr)
  | yield regs framePtr => exact reschedule_sameDead h.leaving ht hstep (.inl halive)
  | wake taskId =>
    obtain ⟨s₁, hrun, hret⟩ := map_eq_some_iff.mp hstep
    cases hret
    exact wakeTask_sameDead hrun
  | exec pf phys entry userStackTop name pageTable argc argv =>
    obtain ⟨p, hrun, hret⟩ := map_eq_some_iff.mp hstep
    cases hret
    obtain ⟨-, -, -, -, v, u, htasks, hv, hrunning', -⟩ := replaceCurrentTask_spec h hrun
    obtain rfl := some.inj (ht.symm.trans hv)
    exact SameDead.update htasks ht (by simp [halive, hrunning'])

/-! ## All runs -/

theorem Settled.not_current_dead (h : Settled s) (hdead : s.IsDead slot) : s.current ≠ slot := by
  rintro rfl
  obtain ⟨t, ht, hrunning⟩ := h.exists_current
  obtain ⟨u, hu, hudead⟩ := hdead
  obtain rfl := some.inj (ht.symm.trans hu)
  rw [hrunning] at hudead
  cases hudead

theorem Settled.not_picked_dead (h : Settled s) (hlt : slot < maxTasks) (hdead : s.IsDead slot)
    {s₁ : Scheduler} {picked : TaskId} (hpick : s.pickNext = some (s₁, picked)) :
    picked ≠ slot := by
  rintro rfl
  obtain ⟨t, ht, hready⟩ := ready_of_pickNext h.consistent hpick hlt
  obtain ⟨u, hu, hudead⟩ := hdead
  obtain rfl := some.inj (ht.symm.trans hu)
  rw [hready] at hudead
  cases hudead

/-- An exit ends the current task exactly if another one is ready; otherwise none dies. -/
theorem step_exit (h : Settled s) (hstep : s.step (.exit regs framePtr) = some (s', d)) :
    (s.HasReady ∧ DeadKept s s' ∧ s'.IsDead s.current) ∨
      (¬ s.HasReady ∧ s'.current = s.current ∧ ∀ slot, s'.IsDead slot → s.IsDead slot) := by
  obtain ⟨t, ht, hrunning⟩ := h.exists_current
  obtain ⟨s₁, hrun₁, hleav, hcur⟩ := exitCurrent_spec h
  have htasks := exitCurrent_tasks h.current_lt ht hrun₁
  have ht₁ : s₁.tasks s₁.current = some { t with state := .dead } := by
    rw [htasks, hcur, update_self]
  have hready : s₁.HasReady ↔ s.HasReady :=
    hasReady_update htasks ht (by rw [hrunning]; simp) (by simp)
  simp only [step, hrun₁, bind_eq_bind, bind_some] at hstep
  by_cases hsome : s.HasReady
  · left
    have hkept := (reschedule_sameDead hleav ht₁ hstep (.inr (hready.mpr hsome))).deadKept
    have hkept₁ : DeadKept s s₁ := by
      intro j hj
      rw [isDead_update htasks]
      split
      · rfl
      · exact hj
    refine ⟨hsome, fun j hj => hkept j (hkept₁ j hj), ?_⟩
    rw [← hcur]
    exact hkept _ ⟨_, ht₁, rfl⟩
  · right
    -- the exited task is current and running again
    obtain ⟨hback, u, hu, htasks'⟩ :=
      resumed_of_reschedule hleav ht₁ hstep rfl fun h => hsome (hready.mp h)
    refine ⟨hsome, hback.trans hcur, fun j hj => ?_⟩
    rw [htasks, hcur, update_idem] at htasks'
    rw [isDead_update htasks', hu] at hj
    split at hj
    · cases hj
    · exact hj

/-- **One event.** Dead is final in it exactly if it is not an exit with no task ready. -/
theorem deadFinal_step_iff (h : Settled s) (he : e.Allowed) (hstep : s.step e = some (s', d)) :
    DeadFinal ⟨s, e, s'⟩ ↔ ExitsToReady ⟨s, e, s'⟩ := by
  have hset' : Settled s' := (step_keeps h he hstep).1
  have hfinal : DeadKept s s' → (∀ regs framePtr, e = .exit regs framePtr → s'.IsDead s.current) →
      DeadFinal ⟨s, e, s'⟩ := by
    intro hkept hexits
    exact ⟨hkept, hexits, fun slot hdead => hset'.not_current_dead hdead,
      fun slot hlt hdead s₁ picked hpick => hset'.not_picked_dead hlt hdead hpick⟩
  by_cases hexit : ∃ regs framePtr, e = .exit regs framePtr
  · obtain ⟨regs, framePtr, rfl⟩ := hexit
    rcases step_exit h hstep with ⟨hready, hkept, hdead⟩ | ⟨hnone, hback, -⟩
    · exact iff_of_true (hfinal hkept fun _ _ _ => hdead) fun _ _ _ => hready
    · refine iff_of_false (fun hdead => ?_) fun hexits => hnone (hexits regs framePtr rfl)
      exact hset'.not_current_dead (hdead.exits regs framePtr rfl) hback
  · have hnot : ∀ regs framePtr, e ≠ .exit regs framePtr :=
      fun regs framePtr heq => hexit ⟨regs, framePtr, heq⟩
    refine iff_of_true ?_ fun regs framePtr heq => absurd heq (hnot regs framePtr)
    exact hfinal (step_sameDead h he hstep hnot).deadKept
      fun regs framePtr heq => absurd heq (hnot _ _)

/-- **Dead is final**, up to exits with nothing else to run: in a run of the started scheduler no
dead task is ever ready, running, current or picked again exactly if every exit happens while
another task is ready. -/
theorem deadFinal_iff_exitsToReady {boot after : List (Transition Scheduler Event)}
    {s₀ s₁ : Scheduler} {d : Dispatch} (hboot : Run bootStep Scheduler.new boot s₀)
    (hrun : s₀.run = some (s₁, d)) (hafter : Run kernelStep s₁ after s) :
    (∀ t ∈ after, DeadFinal t) ↔ ∀ t ∈ after, ExitsToReady t := by
  refine hafter.forall_iff (settled_of_boot hboot hrun).1 ?_ ?_
  · rintro m e m' hm ⟨he, d, hstep⟩
    exact deadFinal_step_iff hm he hstep
  · rintro m e m' hm ⟨he, d, hstep⟩ _
    exact (step_keeps hm he hstep).1

/-- A kernel with two tasks, the first of which exits. -/
theorem deadFinal_two_tasks : ∃ s₁ s, Run kernelStep s₁ [⟨s₁, .exit default 0, s⟩] s ∧
    s₁.current = 0 ∧ DeadFinal ⟨s₁, .exit default 0, s⟩ := by
  obtain ⟨s₀, s₀', s₁, d, s, hboot, hboot', hrun, hexit, hcur, hready⟩ : ∃ s₀ s₀' s₁ d s,
      bootStep Scheduler.new spawnFirst s₀ ∧ bootStep s₀ spawnSecond s₀' ∧
      s₀'.run = some (s₁, d) ∧ kernelStep s₁ (.exit default 0) s ∧ s₁.current = 0 ∧ s₁.HasReady :=
    ⟨_, _, _, _, _, ⟨trivial, trivial, none, rfl⟩, ⟨trivial, trivial, none, rfl⟩, rfl,
      ⟨trivial, some _, rfl⟩, rfl, 1, by decide, _, rfl, rfl⟩
  have hafter : Run kernelStep s₁ [⟨s₁, .exit default 0, s⟩] s := Run.single hexit
  refine ⟨s₁, s, hafter, hcur, ?_⟩
  apply (deadFinal_iff_exitsToReady (Run.cons hboot (Run.single hboot')) hrun hafter).mpr
  · intro t ht
    rw [List.mem_singleton.mp ht]
    exact fun _ _ _ => hready
  · exact List.mem_singleton_self _

/-- A kernel whose only task exits: the task is running and current afterwards. -/
theorem dead_runs_again : ∃ boot s₀ s₁ d s, Run bootStep Scheduler.new boot s₀ ∧
    s₀.run = some (s₁, d) ∧ Run kernelStep s₁ [⟨s₁, .exit default 0, s⟩] s ∧
    s₁.current = 0 ∧ s.current = 0 ∧ s.IsRunning 0 ∧ ¬ DeadFinal ⟨s₁, .exit default 0, s⟩ := by
  have hboot : bootStep Scheduler.new spawnFirst _ := ⟨trivial, trivial, none, rfl⟩
  refine ⟨_, _, _, _, _, Run.single hboot, rfl, Run.single ⟨trivial, none, rfl⟩, rfl, rfl,
    ⟨_, rfl, rfl⟩, fun hfinal => ?_⟩
  have hdead := hfinal.exits default 0 rfl
  exact hfinal.not_current 0 hdead rfl

end BeastOs.Scheduler
