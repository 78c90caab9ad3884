import BeastOs.Lib.Runs
import BeastOs.Scheduler.Consistent
import BeastOs.Scheduler.Effects

/-!
# What the kernel's operations do to the scheduler

Three predicates describe the scheduler between and inside the kernel's operations on it:

* `Booting` — before `run`: queues and tasks agree and nothing runs yet;
* `Settled` — after `run`, between operations: the current slot holds the one running task;
* `Leaving` — inside an operation, just before the context switch: the current task may have been
  blocked or killed already.

Each operation is specified by which of these it goes from and to; `Grown` says what a spawn leaves
alone, and for the other operations that is in `Effects`.
-/

namespace BeastOs.Scheduler

open Function Lib Option

/-! ## Who is running -/

/-- The slot holds a task in this state. -/
def InState (s : Scheduler) (state : TaskState) (slot : TaskId) : Prop :=
  ∃ t, s.tasks slot = some t ∧ t.state = state

def IsRunning (s : Scheduler) (slot : TaskId) : Prop := s.InState .running slot

structure Booting (s : Scheduler) : Prop where
  consistent : Consistent s.tasks s.queues
  current_eq : s.current = noTask
  not_running : ∀ slot < maxTasks, ¬ s.IsRunning slot

structure Settled (s : Scheduler) : Prop where
  consistent : Consistent s.tasks s.queues
  current_lt : s.current < maxTasks
  running_iff : ∀ slot < maxTasks, s.IsRunning slot ↔ slot = s.current

structure Leaving (s : Scheduler) : Prop where
  consistent : Consistent s.tasks s.queues
  current_lt : s.current < maxTasks
  current_task : ∃ t, s.tasks s.current = some t ∧ t.state ≠ .ready
  running_current : ∀ slot < maxTasks, s.IsRunning slot → slot = s.current

variable {s s' s'' : Scheduler} {slot taskId : TaskId} {t : Task} {k : Nat} {phys : Option U64}

theorem Settled.exists_current (h : Settled s) :
    ∃ t, s.tasks s.current = some t ∧ t.state = .running :=
  (h.running_iff s.current h.current_lt).mpr rfl

theorem Settled.leaving (h : Settled s) : Leaving s := by
  obtain ⟨t, ht, hrun⟩ := h.exists_current
  refine ⟨h.consistent, h.current_lt, ⟨t, ht, by rw [hrun]; simp⟩, ?_⟩
  intro slot hlt hr
  exact (h.running_iff slot hlt).mp hr

/-- One task is rewritten. -/
theorem inState_update (h : s'.tasks = update s.tasks slot (some t)) (state : TaskState)
    (j : TaskId) :
    s'.InState state j ↔ if j = slot then t.state = state else s.InState state j := by
  unfold InState
  rw [h, update_apply]
  split <;> simp

theorem isRunning_update (h : s'.tasks = update s.tasks slot (some t)) (j : TaskId) :
    s'.IsRunning j ↔ if j = slot then t.state = .running else s.IsRunning j :=
  inState_update h .running j

theorem Settled.of_isRunning_iff (h : Settled s) (hcons : Consistent s'.tasks s'.queues)
    (hcur : s'.current = s.current) (hrun : ∀ slot, s'.IsRunning slot ↔ s.IsRunning slot) :
    Settled s' := by
  refine ⟨hcons, by rw [hcur]; exact h.current_lt, ?_⟩
  intro slot hlt
  rw [hrun, hcur]
  exact h.running_iff slot hlt

theorem Booting.of_isRunning_iff (h : Booting s) (hcons : Consistent s'.tasks s'.queues)
    (hcur : s'.current = s.current) (hrun : ∀ slot, s'.IsRunning slot ↔ s.IsRunning slot) :
    Booting s' := by
  refine ⟨hcons, hcur.trans h.current_eq, ?_⟩
  intro slot hlt
  rw [hrun]
  exact h.not_running slot hlt

/-- Setting one task running, when none was, makes it the running one. -/
theorem isRunning_iff_of_started (hnot : ∀ slot < maxTasks, ¬ s.IsRunning slot)
    (htasks : s'.tasks = update s.tasks s'.current (some t)) (hrun : t.state = .running) :
    ∀ slot < maxTasks, s'.IsRunning slot ↔ slot = s'.current := by
  intro slot hlt
  rw [isRunning_update htasks]
  split
  · next heq => simp [heq, hrun]
  · next hne => simp [hne, hnot slot hlt]

variable (h : Consistent s.tasks s.queues)

include h in
/-- Neither the old task in the slot nor the new one is queued. -/
theorem Consistent.setNotReady {u : Task} (hlt : slot < maxTasks)
    (ht : s.tasks slot = some t) (hold : t.state ≠ .ready) (hnew : u.state ≠ .ready)
    (hp : u.priority < priorityLevels) : Consistent (update s.tasks slot (some u)) s.queues := by
  refine h.setTask hlt ?_ hp
  rw [ht, readyLevel_not_ready hold, readyLevel_not_ready hnew]

/-- The current task is rewritten, and stays running. -/
theorem Settled.setCurrent {u : Task} (h : Settled s) (hrun : u.state = .running)
    (hp : u.priority < priorityLevels) : Settled (s.setTask s.current u) := by
  obtain ⟨t, ht, htr⟩ := h.exists_current
  refine ⟨h.consistent.setNotReady h.current_lt ht ?_ ?_ hp, h.current_lt, fun slot hlt => ?_⟩
  · simp [htr]
  · simp [hrun]
  · rw [isRunning_update rfl]
    split
    · next heq => simp [heq, hrun, setTask]
    · exact h.running_iff slot hlt

theorem Reprioritised.inState_iff (h : Reprioritised s s') (slot : TaskId) (state : TaskState) :
    s'.InState state slot ↔ s.InState state slot := by
  constructor
  · rintro ⟨t', ht', hstate⟩
    obtain ⟨t, ht, hfix⟩ := h.exists_old ht'
    exact ⟨t, ht, (Task.state_eq_of_fixed hfix).symm.trans hstate⟩
  · rintro ⟨t, ht, hstate⟩
    obtain ⟨t', ht', hfix⟩ := h.exists_task ht
    exact ⟨t', ht', (Task.state_eq_of_fixed hfix).trans hstate⟩

theorem Reprioritised.kept (h : Reprioritised s s') : Kept s s' := by
  refine ⟨h.nextId_eq, ?_, ?_⟩
  · intro slot
    have hmap := congrArg (Option.map fun t : Task => (t.id, t.pageTable)) (h.tasks_eq slot)
    simp only [map_map] at hmap
    exact hmap
  · intro slot t' ht' hb
    exact (h.inState_iff slot .blocked).mp ⟨t', ht', hb⟩

theorem Reprioritised.isRunning_iff (h : Reprioritised s s') (slot : TaskId) :
    s'.IsRunning slot ↔ s.IsRunning slot :=
  h.inState_iff slot .running

/-! ## The context switch -/

variable (regs : AllRegisters) (framePtr : U64)

theorem requeueOld_spec (h : Leaving s) :
    ∃ s₁, s.requeueOld regs framePtr = some s₁ ∧ Consistent s₁.tasks s₁.queues ∧
      s₁.current = s.current ∧ (∃ t, s₁.tasks s.current = some t) ∧
      ∀ slot < maxTasks, ¬ s₁.IsRunning slot := by
  obtain ⟨t, ht, hstate⟩ := h.current_task
  have hp := h.consistent.priority_lt _ t h.current_lt ht
  unfold requeueOld
  simp only [bind_eq_bind, taskAt_of_lt h.current_lt, bind_some, ht]
  have hnone : readyLevel (s.tasks s.current) = none := by
    rw [ht, readyLevel_not_ready hstate]
  by_cases hrun : t.state = .running
  · rw [if_pos hrun, onQueue_of_lt hp]
    have hroom := h.consistent.room h.current_lt hnone t.priority
    refine ⟨_, rfl, h.consistent.enqueue h.current_lt hnone rfl hp
      (TaskQueue.perm_pushBack hroom) (TaskQueue.lost_pushBack hroom), rfl,
      ⟨_, update_self _ _ _⟩, ?_⟩
    intro slot hlt hr
    rw [isRunning_update rfl] at hr
    split at hr
    · cases hr
    · next hne => exact hne (h.running_current slot hlt hr)
  · rw [if_neg hrun]
    refine ⟨_, rfl, h.consistent.setNotReady h.current_lt ht hstate hstate hp, rfl,
      ⟨_, update_self _ _ _⟩, ?_⟩
    intro slot hlt hr
    rw [isRunning_update rfl] at hr
    split at hr
    · exact hrun hr
    · next hne => exact hne (h.running_current slot hlt hr)

/-- What a context switch answers: the CPU continues with the task that is current afterwards, in
that task's address space; without a switch the current task and its address space stay. -/
def Continues (s s' : Scheduler) : Option Dispatch → Prop
  | none => s'.current = s.current ∧
      (s'.tasks s.current).map (·.pageTable) = (s.tasks s.current).map (·.pageTable)
  | some d => d.slot = s'.current ∧
      ∃ t, s'.tasks s'.current = some t ∧ d.cr3 = t.pageTable

theorem Kept.continues (h : Kept s s') (hcur : s'.current = s.current) : Continues s s' none :=
  ⟨hcur, h.pageTable_eq _⟩

theorem Kept.trans_continues {d : Option Dispatch} (h : Kept s s') (hcur : s'.current = s.current)
    (hcont : Continues s' s'' d) : Continues s s'' d := by
  cases d with
  | none =>
    obtain ⟨hcur', hpt⟩ := hcont
    rw [hcur] at hcur' hpt
    exact ⟨hcur', hpt.trans (h.pageTable_eq _)⟩
  | some d => exact hcont

include h in
/-- When nothing is queued no slot holds a ready task. -/
theorem Consistent.readyLevel_eq_none (hempty : ∀ k < priorityLevels, (s.queues k).toList = [])
    (hlt : slot < maxTasks) (ht : s.tasks slot = some t) : readyLevel (s.tasks slot) = none := by
  rw [ht]
  apply readyLevel_not_ready
  intro hready
  have hmem : slot ∈ (s.queues t.priority).toList := by
    rw [h.mem_iff, levelOf_of_lt hlt, ht, readyLevel_ready hready]
  rw [hempty _ (h.priority_lt slot t hlt ht)] at hmem
  cases hmem

theorem ne_noTask (h : slot < maxTasks) : slot ≠ noTask := by
  intro heq
  rw [heq] at h
  exact absurd h (by decide)

/-- Nothing is queued, and the old task goes on. -/
theorem switchTo_of_nothing (hpick : s.pickNext = some (s, noTask)) (hlt : s.current < maxTasks)
    (ht : s.tasks s.current = some t) :
    s.switchTo s.current = some (s.setTask s.current { t with state := .running }, none) := by
  unfold switchTo
  simp only [bind_eq_bind, hpick, bind_some, true_or, if_true, taskAt_of_lt hlt, ht]
  rfl

/-- The task that is picked runs, whether it is the old one or not. -/
theorem switchTo_of_picked {q : TaskQueue} (hlt : slot < maxTasks)
    (hpick : s.pickNext = some (s.setQueue k q, slot)) (ht : s.tasks slot = some t) :
    ∃ s' d, s.switchTo s.current = some (s', d) ∧
      s' = { (s.setQueue k q).setTask slot { t with state := .running } with current := slot } ∧
      Continues s s' d := by
  have ht' : (s.setQueue k q).tasks slot = some t := ht
  unfold switchTo
  simp only [bind_eq_bind, hpick, bind_some]
  by_cases heq : slot = s.current
  · subst heq
    simp only [or_true, if_true, taskAt_of_lt hlt, bind_some, ht']
    exact ⟨_, none, rfl, rfl, rfl, by simp [setTask, ht]⟩
  · rw [if_neg (by simp [heq, ne_noTask hlt])]
    simp only [taskAt_of_lt hlt, bind_some, ht']
    exact ⟨_, _, rfl, rfl, rfl, _, update_self _ _ _, rfl⟩

theorem switchTo_spec (hc : Consistent s.tasks s.queues) (hlt : s.current < maxTasks)
    (ht : ∃ t, s.tasks s.current = some t) (hnot : ∀ slot < maxTasks, ¬ s.IsRunning slot) :
    ∃ s' d, s.switchTo s.current = some (s', d) ∧ Settled s' ∧ Continues s s' d := by
  obtain ⟨t, ht⟩ := ht
  obtain ⟨s₁, newSlot, hpick, hpicked⟩ := pickNext_spec hc
  cases hpicked with
  | nothing hempty =>
    have hsame : readyLevel (some { t with state := .running })
        = readyLevel (s.tasks s.current) := by
      rw [hc.readyLevel_eq_none hempty hlt ht]
      exact readyLevel_not_ready (by simp)
    have hrun := switchTo_of_nothing hpick hlt ht
    exact ⟨_, none, hrun, ⟨hc.setTask hlt hsame (hc.priority_lt _ t hlt ht), hlt,
      isRunning_iff_of_started hnot rfl rfl⟩,
      ((writes_switchTo hrun).kept Task.Dispatches.keeps).continues rfl⟩
  | @task _ k q u _ _ hlist hlost hnew hu hready hprio =>
    have hperm : (s.queues k).toList.Perm (newSlot :: q.toList) := by rw [hlist]
    have hcons := hc.dequeue (t := { u with state := .running }) hperm hlost (by simp)
      (hc.priority_lt _ u hnew hu)
    obtain ⟨s', d, hrun, rfl, hcont⟩ := switchTo_of_picked hnew hpick hu
    exact ⟨_, d, hrun, ⟨hcons, hnew, isRunning_iff_of_started hnot rfl rfl⟩, hcont⟩

theorem reschedule_spec (h : Leaving s) :
    ∃ s' d, s.reschedule regs framePtr = some (s', d) ∧ Settled s' ∧ Continues s s' d := by
  obtain ⟨s₁, hrun₁, hcons₁, hcur₁, ht₁, hnot₁⟩ := requeueOld_spec regs framePtr h
  have hkept₁ := (writes_requeueOld hrun₁).kept Task.Dispatches.keeps
  rw [← hcur₁] at ht₁
  obtain ⟨s', d, hrun, hset, hcont⟩ :=
    switchTo_spec hcons₁ (by rw [hcur₁]; exact h.current_lt) ht₁ hnot₁
  refine ⟨s', d, ?_, hset, hkept₁.trans_continues hcur₁ hcont⟩
  unfold reschedule
  rw [hrun₁, ← hcur₁]
  exact hrun

/-! ## The timer -/

include h in
theorem countdown_spec :
    ∃ s', s.countdown = some s' ∧ Consistent s'.tasks s'.queues ∧ Reprioritised s s' := by
  unfold countdown
  set s₁ : Scheduler :=
    { s with tickCount := s.tickCount + 1, boostCountdown := s.boostCountdown - 1 } with hs₁
  have hrep₁ : Reprioritised s s₁ := ⟨rfl, rfl, fun _ => rfl⟩
  dsimp only
  split
  · obtain ⟨s₂, hrun₂, hcons₂, hrep₂, -, -⟩ := boostAll_spec (s := s₁) h
    rw [hrun₂]
    exact ⟨_, rfl, hcons₂, hrep₁.trans ⟨hrep₂.current_eq, hrep₂.nextId_eq, hrep₂.tasks_eq⟩⟩
  · exact ⟨s₁, rfl, h, hrep₁⟩

/-- Every priority has a quantum. -/
theorem exists_quantum {p : Nat} (h : p < priorityLevels) : ∃ n, quanta[p]? = some n :=
  ⟨_, List.getElem?_eq_getElem (show p < quanta.length from h)⟩

/-- The task after a tick that completes its quantum. -/
def Task.demoted (t : Task) : Task :=
  { t with ticksUsed := 0, priority := min (t.priority + 1) (priorityLevels - 1) }

/-- The task after any other tick charged to it. -/
def Task.ticked (t : Task) : Task := { t with ticksUsed := t.ticksUsed + 1 }

theorem demoted_priority_lt (t : Task) : t.demoted.priority < priorityLevels := by
  show min (t.priority + 1) (priorityLevels - 1) < priorityLevels
  exact lt_of_le_of_lt (min_le_right _ _) (by decide)

theorem demoteCurrent_setTask (hlt : s.current < maxTasks) (hp : t.priority < priorityLevels) :
    (s.setTask s.current t).demoteCurrent = some (s.setTask s.current t.demoted) := by
  have hprio : (if t.priority < priorityLevels - 1 then t.priority + 1 else t.priority) =
      min (t.priority + 1) (priorityLevels - 1) := by
    split <;> omega
  have hat : (s.setTask s.current t).taskAt (s.setTask s.current t).current = some (some t) := by
    rw [taskAt_of_lt (by exact hlt)]
    exact congrArg some (update_self _ _ _)
  unfold demoteCurrent
  rw [hat]
  simp only [bind_eq_bind, bind_some, hprio, setTask, update_idem]
  rfl

/-- What follows the countdown in `tick`. -/
theorem tick_of_countdown {s₁ : Scheduler} {quantum : Nat} (hrun : s.countdown = some s₁)
    (hlt : s₁.current < maxTasks) (ht : s₁.tasks s₁.current = some t)
    (hp : t.priority < priorityLevels) (hq : quanta[t.priority]? = some quantum) :
    s.tick = some (s₁.setTask s₁.current
        (if t.ticksUsed + 1 ≥ quantum then t.demoted else t.ticked),
      decide (t.ticksUsed + 1 ≥ quantum)) := by
  unfold tick
  simp only [hrun, bind_eq_bind, bind_some, if_neg (ne_noTask hlt), taskAt_of_lt hlt,
    ht, hq]
  by_cases hdone : t.ticksUsed + 1 ≥ quantum
  · rw [if_pos hdone, if_pos hdone, demoteCurrent_setTask hlt (by exact hp), decide_eq_true hdone]
    rfl
  · simp only [if_neg hdone, decide_eq_false hdone]
    rfl

/-- Whatever the tick does to the quantum and the priority of the current task, it stays running. -/
theorem tick_eq (h : Settled s) :
    ∃ s₁ t u expired, s.tick = some (s₁.setTask s.current u, expired) ∧ Reprioritised s s₁ ∧
      Consistent s₁.tasks s₁.queues ∧ s₁.tasks s.current = some t ∧ t.state = .running ∧
      u.state = .running ∧ u.priority < priorityLevels := by
  obtain ⟨s₁, hrun₁, hcons₁, hrep₁⟩ := countdown_spec h.consistent
  obtain ⟨t, ht, hrunning⟩ := h.exists_current
  obtain ⟨t₁, ht₁, hfix⟩ := hrep₁.exists_task ht
  have hcur₁ := hrep₁.current_eq
  have hp := hcons₁.priority_lt _ t₁ h.current_lt ht₁
  obtain ⟨quantum, hquantum⟩ := exists_quantum hp
  have hstate : t₁.state = .running := (Task.state_eq_of_fixed hfix).trans hrunning
  have htick := tick_of_countdown hrun₁ (by rw [hcur₁]; exact h.current_lt)
    (by rw [hcur₁]; exact ht₁) hp hquantum
  rw [hcur₁] at htick
  refine ⟨s₁, t₁, _, _, htick, hrep₁, hcons₁, ht₁, hstate, ?_⟩
  split
  · exact ⟨hstate, demoted_priority_lt t₁⟩
  · exact ⟨hstate, hp⟩

theorem tick_spec (h : Settled s) :
    ∃ s' b, s.tick = some (s', b) ∧ Settled s' ∧ s'.current = s.current := by
  obtain ⟨s₁, t, u, expired, hrun, hrep, hcons, -, -, hur, hp⟩ := tick_eq h
  have hset := (h.of_isRunning_iff hcons hrep.current_eq hrep.isRunning_iff).setCurrent hur hp
  rw [hrep.current_eq] at hset
  exact ⟨_, expired, hrun, hset, hrep.current_eq⟩

theorem timerTick_spec (h : Settled s) :
    ∃ s' d, s.timerTick regs framePtr = some (s', d) ∧ Settled s' ∧ Continues s s' d := by
  obtain ⟨s₁, expired, hrun₁, hset₁, hcur₁⟩ := tick_spec h
  have hkept₁ := kept_tick hrun₁
  unfold timerTick
  simp only [bind_eq_bind, hrun₁, bind_some]
  cases expired with
  | false => exact ⟨s₁, none, rfl, hset₁, hkept₁.continues hcur₁⟩
  | true =>
    obtain ⟨s', d, hrun, hset, hcont⟩ := reschedule_spec regs framePtr hset₁.leaving
    exact ⟨s', d, hrun, hset, hkept₁.trans_continues hcur₁ hcont⟩

/-! ## Blocking and exiting -/

/-- After the first half of `block_current` the current task is blocked; beyond that, only
priorities and queues have changed. -/
theorem blockCurrent_spec {reason : BlockReason} (h : Settled s) (hreason : reason.InRange) :
    ∃ s₁ t, s.blockCurrent reason = some s₁ ∧ Leaving s₁ ∧ s₁.current = s.current ∧
      s.tasks s.current = some t ∧
      Reprioritised (s.setTask s.current { t with state := .blocked }) s₁ := by
  obtain ⟨t, ht, hrun⟩ := h.exists_current
  set s₀ := s.setTask s.current { t with state := .blocked } with hs₀
  have hp := h.consistent.priority_lt _ t h.current_lt ht
  have hcons₀ : Consistent s₀.tasks s₀.queues :=
    h.consistent.setNotReady h.current_lt ht (by simp [hrun]) (by simp) hp
  have ht₀ : s₀.tasks s.current = some { t with state := .blocked } := update_self _ _ _
  obtain ⟨s₁, hrun₁, hcons₁, hrep₁⟩ :=
    boostForReason_spec hcons₀ h.current_lt ht₀ (by simp) hreason
  have hcur₁ : s₁.current = s.current := hrep₁.current_eq
  obtain ⟨t₁, ht₁, hfix⟩ := hrep₁.exists_task ht₀
  refine ⟨s₁, t, ?_, ⟨hcons₁, ?_, ⟨t₁, ?_, ?_⟩, ?_⟩, hcur₁, ht, hrep₁⟩
  · unfold blockCurrent
    simp only [bind_eq_bind, taskAt_of_lt h.current_lt, bind_some, ht]
    exact hrun₁
  · rw [hcur₁]
    exact h.current_lt
  · rw [hcur₁]
    exact ht₁
  · rw [Task.state_eq_of_fixed hfix]
    simp
  · intro slot hlt hr
    rw [hrep₁.isRunning_iff, isRunning_update rfl] at hr
    split at hr
    · cases hr
    · rw [hcur₁]
      exact (h.running_iff slot hlt).mp hr

/-- Replacing a queue by one with the same contents. -/
theorem Consistent.setQueue {tasks : Nat → Option Task} {queues : Nat → TaskQueue}
    {q : TaskQueue} (h : Consistent tasks queues) (hlist : q.toList = (queues k).toList)
    (hlost : q.lost = (queues k).lost) : Consistent tasks (update queues k q) := by
  refine ⟨?_, h.priority_lt, h.lost_eq_update hlost⟩
  rw [toList_update, hlist]
  have hsame : update (fun j => (queues j).toList) k (queues k).toList
      = fun j => (queues j).toList := update_eq_self k _
  rw [hsame]
  exact h.buckets

theorem exitCurrent_spec (h : Settled s) :
    ∃ s₁, s.exitCurrent = some s₁ ∧ Leaving s₁ ∧ s₁.current = s.current := by
  obtain ⟨t, ht, hrun⟩ := h.exists_current
  have hp := h.consistent.priority_lt _ t h.current_lt ht
  have hnone : readyLevel (s.tasks s.current) = none := by
    rw [ht]
    exact readyLevel_not_ready (by rw [hrun]; simp)
  have hcons : Consistent (update s.tasks s.current (some { t with state := .dead }))
      s.queues :=
    h.consistent.setNotReady h.current_lt ht (by simp [hrun]) (by simp) hp
  -- the running task is in no queue, so removing it changes none
  have hfilter : ((s.queues t.priority).remove s.current).toList
      = (s.queues t.priority).toList := by
    rw [TaskQueue.toList_remove, List.filter_eq_self]
    intro j hj
    have hne : j ≠ s.current := by
      rintro rfl
      rw [h.consistent.mem_iff, levelOf_of_lt h.current_lt, hnone] at hj
      cases hj
    exact decide_eq_true hne
  refine ⟨(s.setTask s.current { t with state := .dead }).setQueue t.priority
    ((s.queues t.priority).remove s.current), ?_, ⟨?_, h.current_lt, ?_, ?_⟩, rfl⟩
  · unfold exitCurrent kill
    simp only [bind_eq_bind, taskAt_of_lt h.current_lt, bind_some, ht]
    rw [onQueue_of_lt hp]
    rfl
  · exact hcons.setQueue hfilter (TaskQueue.lost_remove _ _)
  · exact ⟨_, update_self _ _ _, by simp⟩
  · intro slot hlt hr
    rw [isRunning_update (s := s) rfl] at hr
    split at hr
    · cases hr
    · exact (h.running_iff slot hlt).mp hr

/-! ## Waking -/

theorem findTask_eq_some (h : s.findTask taskId = some slot) :
    slot < maxTasks ∧ ∃ t, s.tasks slot = some t ∧ t.id = taskId := by
  have hmem := List.mem_of_find?_eq_some h
  have hp := List.find?_some h
  refine ⟨List.mem_range.mp hmem, ?_⟩
  cases ht : s.tasks slot with
  | none => rw [ht] at hp; cases hp
  | some t =>
    rw [ht] at hp
    exact ⟨t, rfl, of_decide_eq_true hp⟩

theorem findTask_of_unique (hlt : slot < maxTasks) (ht : s.tasks slot = some t)
    (hid : t.id = taskId) (hunique : ∀ j u, s.tasks j = some u → u.id = taskId → j = slot) :
    s.findTask taskId = some slot := by
  cases hfind : s.findTask taskId with
  | some j =>
    obtain ⟨-, u, hu, huid⟩ := findTask_eq_some hfind
    rw [hunique j u hu huid]
  | none =>
    have hnot := List.find?_eq_none.mp hfind slot (List.mem_range.mpr hlt)
    simp [ht, hid] at hnot

/-- What `wake_task` does to the task it finds. -/
def Task.woken (t : Task) : Task :=
  if t.state = .blocked then { t with state := .ready } else { t with awakePending := true }

theorem Task.woken_not_blocked (t : Task) : t.woken.state ≠ .blocked := by
  unfold woken
  split
  · nofun
  next hb => exact hb

theorem wakeTask_of_none (hfind : s.findTask taskId = none) : s.wakeTask taskId = some s := by
  unfold wakeTask
  rw [hfind]

theorem tasks_of_wakeTask (hfind : s.findTask taskId = some slot)
    (ht : s.tasks slot = some t) (h : s.wakeTask taskId = some s') :
    s'.tasks = update s.tasks slot (some t.woken) := by
  unfold wakeTask at h
  rw [hfind] at h
  obtain ⟨o, hat, h⟩ := bind_eq_some_iff.mp h
  obtain ⟨u, ho, h⟩ := bind_eq_some_iff.mp h
  have hu : s.tasks slot = some u := (taskAt_eq_some hat).2.trans ho
  rw [ht] at hu
  cases hu
  unfold Task.woken
  split at h
  next hb =>
    rw [if_pos hb, (sameTasks_onQueue h).tasks_eq]
    rfl
  next hb =>
    cases h
    rw [if_neg hb]
    rfl

theorem wakeTask_spec (taskId : TaskId) (h : Consistent s.tasks s.queues) :
    ∃ s', s.wakeTask taskId = some s' ∧ Consistent s'.tasks s'.queues ∧ s'.current = s.current ∧
      ∀ slot, s'.IsRunning slot ↔ s.IsRunning slot := by
  unfold wakeTask
  cases hfind : s.findTask taskId with
  | none => exact ⟨s, rfl, h, rfl, fun _ => Iff.rfl⟩
  | some slot =>
    obtain ⟨hlt, t, ht, -⟩ := findTask_eq_some hfind
    have hp := h.priority_lt slot t hlt ht
    simp only [bind_eq_bind, taskAt_of_lt hlt, bind_some, ht]
    by_cases hb : t.state = .blocked
    · rw [if_pos hb, onQueue_of_lt hp]
      have hnone : readyLevel (s.tasks slot) = none := by
        rw [ht]
        exact readyLevel_not_ready (by rw [hb]; simp)
      have hroom := h.room hlt hnone t.priority
      refine ⟨_, rfl, h.enqueue hlt hnone rfl hp (TaskQueue.perm_pushBack hroom)
        (TaskQueue.lost_pushBack hroom), rfl, ?_⟩
      intro j
      rw [isRunning_update (s := s) rfl]
      split
      · next heq =>
          subst heq
          simp [IsRunning, InState, ht, hb]
      · exact Iff.rfl
    · rw [if_neg hb]
      refine ⟨_, rfl, h.setTask hlt ?_ hp, rfl, ?_⟩
      · rw [ht]
        exact readyLevel_congr rfl (fun _ => rfl)
      · intro j
        rw [isRunning_update rfl]
        split
        · next heq =>
            subst heq
            simp [IsRunning, InState, ht]
        · exact Iff.rfl

/-! ## Spawning -/

/-- From `s` to `s'` at most one task was added, ready and under the next id. -/
structure Grown (s s' : Scheduler) : Prop where
  nextId_le : s.nextId ≤ s'.nextId
  tasks : ∀ slot, s'.tasks slot = s.tasks slot ∨
    s.tasks slot = none ∧ ∃ t, s'.tasks slot = some t ∧ t.state = .ready ∧ t.id = s.nextId ∧
      s.nextId < s'.nextId

theorem Grown.inState_iff (h : Grown s s') (slot : TaskId) {state : TaskState}
    (hstate : .ready ≠ state) : s'.InState state slot ↔ s.InState state slot := by
  unfold InState
  rcases h.tasks slot with heq | ⟨hnone, t, ht, hready, -⟩
  · rw [heq]
  · simp [hnone, ht, hready, hstate]

theorem findFreeSlot_eq_some (h : s.findFreeSlot = some slot) :
    slot < maxTasks ∧ s.tasks slot = none := by
  have hmem := List.mem_of_find?_eq_some h
  have hp := List.find?_some h
  exact ⟨List.mem_range.mp hmem, isNone_iff_eq_none.mp hp⟩

/-- What a spawn at level `k` does: there is no free slot, or no memory for the stack, or a fresh
task is put in the first free slot and queued. -/
inductive Spawned (s : Scheduler) (phys : Option U64) (k : Nat) (o : Option Scheduler) : Prop
  | full : s.findFreeSlot = none → o = some s → Spawned s phys k o
  | fails {slot : TaskId} : s.findFreeSlot = some slot → phys = none →
      o = some { s with nextId := s.nextId + 1 } → Spawned s phys k o
  | places {slot : TaskId} {p : U64} {t : Task} : s.findFreeSlot = some slot → phys = some p →
      t.Fresh s.nextId k →
      o = (setTask { s with nextId := s.nextId + 1 } slot t).onQueue k (·.pushBack slot) →
      Spawned s phys k o

theorem spawn_spawned (s : Scheduler) (pf : Platform) (phys : Option U64) (cr3 entry : U64)
    (name : String) (priority : Nat) : Spawned s phys (min priority (priorityLevels - 1))
      ((s.spawn pf phys cr3 entry name priority).map Prod.fst) := by
  unfold spawn
  cases hfree : s.findFreeSlot with
  | none => exact .full hfree rfl
  | some slot =>
    cases phys with
    | none => exact .fails hfree rfl rfl
    | some p =>
      exact .places hfree rfl ⟨rfl, rfl, rfl, rfl⟩ ((map_map _ _ _).trans map_id')

theorem spawnUser_spawned (s : Scheduler) (pf : Platform) (phys : Option U64)
    (entry userStackTop : U64) (name : String) (priority : Nat) (pageTable trampoline : U64) :
    Spawned s phys priority
      ((s.spawnUserWithPageTableAndTrampoline pf phys entry userStackTop name priority pageTable
        trampoline).map Prod.fst) := by
  unfold spawnUserWithPageTableAndTrampoline
  cases hfree : s.findFreeSlot with
  | none => exact .full hfree rfl
  | some slot =>
    cases phys with
    | none => exact .fails hfree rfl rfl
    | some p =>
      refine .places hfree rfl ?_ ((map_map _ _ _).trans map_id')
      split <;> exact ⟨rfl, rfl, rfl, rfl⟩

theorem Spawned.spec {o : Option Scheduler} (h : Spawned s phys k o)
    (hs : Consistent s.tasks s.queues) (hk : k < priorityLevels) :
    ∃ s', o = some s' ∧ Consistent s'.tasks s'.queues ∧ s'.current = s.current ∧ Grown s s' := by
  cases h with
  | full _ ho => exact ⟨s, ho, hs, rfl, le_refl _, fun _ => Or.inl rfl⟩
  | fails _ _ ho => exact ⟨_, ho, hs, rfl, Nat.le_succ _, fun _ => Or.inl rfl⟩
  | @places slot p t hfree _ hfresh ho =>
    obtain ⟨hlt, hnone⟩ := findFreeSlot_eq_some hfree
    have hlevel : readyLevel (s.tasks slot) = none := by rw [hnone]; rfl
    have hroom := hs.room hlt hlevel t.priority
    obtain rfl := hfresh.priority_eq
    rw [onQueue_of_lt hk] at ho
    refine ⟨_, ho, hs.enqueue hlt hlevel hfresh.ready hk (TaskQueue.perm_pushBack hroom)
      (TaskQueue.lost_pushBack hroom), rfl, Nat.le_succ _, fun j => ?_⟩
    by_cases hj : j = slot
    · subst hj
      exact .inr ⟨hnone, t, update_self _ _ _, hfresh.ready, hfresh.id_eq, Nat.lt_succ_self _⟩
    · exact .inl (update_of_ne hj _ _)

/-! ## Replacing the current task, and starting -/

/-- `exec` keeps everything but the current task, which stays running and gets the address space it
continues in. -/
theorem replaceCurrentTask_spec {pf : Platform} {entry userStackTop : U64}
    {name : String} {pageTable argc argv : U64} {d : Dispatch} (h : Settled s)
    (hrun : s.replaceCurrentTask pf phys entry userStackTop name pageTable argc argv =
      some (s', d)) :
    Settled s' ∧ s'.current = s.current ∧ d.slot = s.current ∧ d.cr3 = pageTable ∧
      ∃ t u, s'.tasks = update s.tasks s.current (some u) ∧
        s.tasks s.current = some t ∧ u.state = .running ∧ u.pageTable = pageTable := by
  obtain ⟨t, ht, hstate⟩ := h.exists_current
  unfold replaceCurrentTask at hrun
  simp only [bind_eq_bind, taskAt_of_lt h.current_lt, bind_some, ht] at hrun
  obtain ⟨u, hu, hret⟩ := bind_eq_some_iff.mp hrun
  have hfresh := Task.newUser_fresh hu
  cases hret
  have hp : u.priority < priorityLevels := by
    rw [hfresh.priority_eq]
    decide
  exact ⟨h.setCurrent rfl hp, rfl, rfl, rfl, t, _, rfl, ht, rfl, (Task.newUser_eq_some hu).1⟩

theorem run_spec {d : Dispatch} (h : Booting s) (hrun : s.run = some (s', d)) :
    Settled s' ∧ Continues s s' (some d) := by
  obtain ⟨s₁, newSlot, hpick, hpicked⟩ := pickNext_spec h.consistent
  unfold run at hrun
  simp only [bind_eq_bind, hpick, bind_some] at hrun
  cases hpicked with
  | nothing hempty => simp at hrun
  | @task _ k q u _ _ hlist hlost hnew hu hready hprio =>
    have hu' : (s.setQueue k q).tasks newSlot = some u := hu
    simp only [ne_noTask hnew, if_false, taskAt_of_lt hnew, bind_some, hu'] at hrun
    cases hrun
    have hp := h.consistent.priority_lt _ u hnew hu
    have hperm : (s.queues k).toList.Perm (newSlot :: q.toList) := by rw [hlist]
    exact ⟨⟨h.consistent.dequeue (t := { u with state := .running }) hperm hlost (by simp) hp,
      hnew, isRunning_iff_of_started h.not_running rfl rfl⟩, rfl, _, update_self _ _ _, rfl⟩

/-- Before `run` the timer only counts. -/
theorem timerTick_booting (h : Booting s) :
    ∃ s', s.timerTick regs framePtr = some (s', none) ∧ Booting s' := by
  obtain ⟨s₁, hrun₁, hcons₁, hrep₁⟩ := countdown_spec h.consistent
  refine ⟨s₁, ?_, h.of_isRunning_iff hcons₁ hrep₁.current_eq hrep₁.isRunning_iff⟩
  unfold timerTick tick
  simp only [bind_eq_bind, hrun₁, bind_some]
  rw [if_pos (hrep₁.current_eq.trans h.current_eq)]
  rfl

end BeastOs.Scheduler
