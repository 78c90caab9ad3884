import BeastOs.Lib.Rewrites
import BeastOs.Scheduler.Entry

/-!
# What the operations do to tasks in any state

The frame of an event does not depend on the scheduler being settled: whatever the queues hold,
tasks keep their slots, ids and page tables, and only `block_current` makes a task blocked. This is
what is left to rely on in the middle of a context switch, where a task is blocked but still the
current one.

Each function is described once by what it writes to a task (`Writes`): dispatching leaves the
priority and the used quantum alone, boosts and demotions change both together. None of them queues
a slot outside the task table.
-/

namespace BeastOs.Scheduler

open Function Lib Option

variable {s s' s'' : Scheduler} {slot k n : Nat} {t u : Task} {e : Event} {d : Option Dispatch}
  {f : TaskQueue → TaskQueue} {regs : AllRegisters} {framePtr : U64}

/-! ## What operations keep -/

/-- From `s` to `s'` the tasks keep their ids and page tables, and no task became blocked. -/
structure Kept (s s' : Scheduler) : Prop where
  nextId_eq : s'.nextId = s.nextId
  ident_eq : ∀ slot, (s'.tasks slot).map (fun t => (t.id, t.pageTable))
    = (s.tasks slot).map (fun t => (t.id, t.pageTable))
  blocked : ∀ slot t', s'.tasks slot = some t' → t'.state = .blocked →
    ∃ t, s.tasks slot = some t ∧ t.state = .blocked

namespace Kept

theorem refl (s : Scheduler) : Kept s s := ⟨rfl, fun _ => rfl, fun _ t' ht hb => ⟨t', ht, hb⟩⟩

theorem trans (h₁ : Kept s s') (h₂ : Kept s' s'') : Kept s s'' := by
  refine ⟨h₂.nextId_eq.trans h₁.nextId_eq,
    fun slot => (h₂.ident_eq slot).trans (h₁.ident_eq slot), ?_⟩
  intro slot t'' ht'' hb
  obtain ⟨t', ht', hb'⟩ := h₂.blocked slot t'' ht'' hb
  exact h₁.blocked slot t' ht' hb'

theorem pageTable_eq (h : Kept s s') (slot : TaskId) :
    (s'.tasks slot).map (·.pageTable) = (s.tasks slot).map (·.pageTable) := by
  have hmap := congrArg (Option.map Prod.snd) (h.ident_eq slot)
  simp only [map_map] at hmap
  exact hmap

end Kept

/-! ## Queues -/

/-- Only queues differ. -/
structure SameTasks (s s' : Scheduler) : Prop where
  tasks_eq : s'.tasks = s.tasks
  nextId_eq : s'.nextId = s.nextId
  current_eq : s'.current = s.current

theorem SameTasks.refl (s : Scheduler) : SameTasks s s := ⟨rfl, rfl, rfl⟩

theorem SameTasks.trans (h₁ : SameTasks s s') (h₂ : SameTasks s' s'') : SameTasks s s'' :=
  ⟨h₂.tasks_eq.trans h₁.tasks_eq, h₂.nextId_eq.trans h₁.nextId_eq,
    h₂.current_eq.trans h₁.current_eq⟩

theorem sameTasks_setQueue (s : Scheduler) (k : Nat) (q : TaskQueue) :
    SameTasks s (s.setQueue k q) := ⟨rfl, rfl, rfl⟩

theorem sameTasks_onQueue (h : s.onQueue k f = some s') :
    SameTasks s s' := by
  unfold onQueue at h
  split at h
  · cases h
    exact sameTasks_setQueue s k _
  · cases h

/-- Slots are taken from queues, and that is all. -/
structure Pops (s s' : Scheduler) : Prop extends SameTasks s s' where
  boostCountdown_eq : s'.boostCountdown = s.boostCountdown
  queued : ∀ k, ∀ slot ∈ (s'.queues k).toList, slot ∈ (s.queues k).toList

theorem Pops.refl (s : Scheduler) : Pops s s := ⟨.refl s, rfl, fun _ _ hslot => hslot⟩

theorem Pops.trans (h₁ : Pops s s') (h₂ : Pops s' s'') : Pops s s'' :=
  ⟨h₁.toSameTasks.trans h₂.toSameTasks, h₂.boostCountdown_eq.trans h₁.boostCountdown_eq,
    fun k slot hslot => h₁.queued k slot (h₂.queued k slot hslot)⟩

theorem pops_setQueue {q : TaskQueue} (h : (s.queues k).popFront = some (slot, q)) :
    Pops s (s.setQueue k q) := by
  refine ⟨sameTasks_setQueue s k q, rfl, fun j i hi => ?_⟩
  dsimp only [setQueue] at hi
  rw [update_apply] at hi
  split at hi
  next hj =>
    rw [hj, TaskQueue.toList_of_popFront h]
    exact List.mem_cons_of_mem slot hi
  · exact hi

theorem pops_pickLevel {r : Option TaskId} (h : pickLevel k n s = some (s', r)) : Pops s s' := by
  induction n generalizing s with
  | zero =>
    cases h
    exact .refl _
  | succ n ih =>
    rw [pickLevel] at h
    split at h
    · cases h
      exact .refl _
    next popped q hpop =>
      have hq := pops_setQueue hpop
      obtain ⟨o, -, h⟩ := bind_eq_some_iff.mp h
      split at h
      · exact hq.trans (ih h)
      · split at h
        · cases h
          exact hq
        · exact hq.trans (ih h)

theorem pops_pickFrom {levels : List Nat} {r : TaskId}
    (h : pickFrom levels s = some (s', r)) : Pops s s' := by
  induction levels generalizing s with
  | nil =>
    cases h
    exact .refl _
  | cons level levels ih =>
    obtain ⟨⟨s₁, o⟩, hpick, h⟩ := bind_eq_some_iff.mp h
    have h₁ := pops_pickLevel hpick
    cases o with
    | none => exact h₁.trans (ih h)
    | some slot =>
      cases h
      exact h₁

theorem pops_pickNext {r : TaskId} (h : s.pickNext = some (s', r)) : Pops s s' :=
  pops_pickFrom h

/-- The task table has a slot for everything that is queued, and for the current task. -/
structure InTable (s : Scheduler) : Prop where
  queued_lt : ∀ k, ∀ slot ∈ (s.queues k).toList, slot < maxTasks
  current : s.current = noTask ∨ s.current < maxTasks

/-- Queues change, and hold slots of the table as before. -/
structure Requeues (s s' : Scheduler) : Prop extends SameTasks s s' where
  boostCountdown_eq : s'.boostCountdown = s.boostCountdown
  inTable : InTable s → InTable s'

theorem Requeues.refl (s : Scheduler) : Requeues s s := ⟨.refl s, rfl, id⟩

theorem Requeues.trans (h₁ : Requeues s s') (h₂ : Requeues s' s'') : Requeues s s'' :=
  ⟨h₁.toSameTasks.trans h₂.toSameTasks, h₂.boostCountdown_eq.trans h₁.boostCountdown_eq,
    fun hs => h₂.inTable (h₁.inTable hs)⟩

theorem Pops.requeues (h : Pops s s') : Requeues s s' := by
  refine ⟨h.toSameTasks, h.boostCountdown_eq, fun hs => ⟨fun k slot hslot => ?_, ?_⟩⟩
  · exact hs.queued_lt k slot (h.queued k slot hslot)
  · rw [h.current_eq]
    exact hs.current

section

variable (hlt : slot < maxTasks)
include hlt

/-- What pushes and removals do to a queue. -/
theorem requeues_onQueue
    (hf : ∀ q : TaskQueue, ∀ j ∈ (f q).toList, j ∈ q.toList ∨ j = slot)
    (h : s.onQueue k f = some s') : Requeues s s' := by
  have hsame := sameTasks_onQueue h
  unfold onQueue at h
  split at h
  · cases h
    refine ⟨hsame, rfl, fun hs => ⟨fun j i hi => ?_, hs.current⟩⟩
    dsimp only [setQueue] at hi
    rw [update_apply] at hi
    split at hi
    · rcases hf _ i hi with hi | rfl
      · exact hs.queued_lt k i hi
      · exact hlt
    · exact hs.queued_lt j i hi
  · cases h

theorem requeues_pushBack (h : s.onQueue k (·.pushBack slot) = some s') : Requeues s s' :=
  requeues_onQueue hlt (fun _ _ => TaskQueue.mem_pushBack) h

theorem requeues_pushFront (h : s.onQueue k (·.pushFront slot) = some s') : Requeues s s' :=
  requeues_onQueue hlt (fun _ _ => TaskQueue.mem_pushFront) h

theorem requeues_remove (h : s.onQueue k (·.remove slot) = some s') : Requeues s s' := by
  refine requeues_onQueue hlt (fun q j hj => Or.inl ?_) h
  rw [TaskQueue.toList_remove] at hj
  exact List.mem_of_mem_filter hj

end

/-! ## Tasks -/

theorem taskAt_eq_some {o : Option Task} (h : s.taskAt slot = some o) :
    slot < maxTasks ∧ s.tasks slot = o := by
  unfold taskAt at h
  split at h
  next hlt =>
    cases h
    exact ⟨hlt, rfl⟩
  · cases h

/-- What dispatching, waking and killing do to a task. None of them makes it blocked. -/
inductive Task.Dispatches (t : Task) : Task → Prop
  | mk (state : TaskState) (context : Context) (awakePending : Bool) :
      (state = .blocked → t.state = .blocked) →
      Task.Dispatches t { t with state, context, awakePending }

/-- The boost to level 0. -/
inductive Task.Boosts (t : Task) : Task → Prop
  | mk : Task.Boosts t { t with priority := 0, ticksUsed := 0 }

/-- What every function but `block_current` keeps of a task. -/
structure Task.Keeps (t u : Task) : Prop where
  id_eq : u.id = t.id
  pageTable_eq : u.pageTable = t.pageTable
  blocked : u.state = .blocked → t.state = .blocked

/-- Everything that is done to a task, but for blocking it and charging it for a tick. -/
inductive Task.Adjusts (t : Task) : Task → Prop
  | dispatches {v : Task} : t.Dispatches v → Task.Adjusts t v
  | resets (p : Nat) : (p ≤ t.priority ∨ p < priorityLevels) →
      Task.Adjusts t { t with priority := p, ticksUsed := 0 }

theorem Task.Dispatches.keeps (h : t.Dispatches u) : t.Keeps u := by
  obtain ⟨_, _, _, hblocked⟩ := h
  exact ⟨rfl, rfl, hblocked⟩

theorem Task.Boosts.keeps (h : t.Boosts u) : t.Keeps u := by
  cases h
  exact ⟨rfl, rfl, fun hb => hb⟩

theorem Task.Adjusts.keeps (h : t.Adjusts u) : t.Keeps u := by
  cases h with
  | dispatches hd => exact hd.keeps
  | resets => exact ⟨rfl, rfl, fun hb => hb⟩

/-- From `s` to `s'` tasks are rewritten by `W`. -/
structure Writes (W : Task → Task → Prop) (s s' : Scheduler) : Prop where
  nextId_eq : s'.nextId = s.nextId
  boostCountdown_eq : s'.boostCountdown = s.boostCountdown
  tasks : Rewrites W s.tasks s'.tasks
  inTable : InTable s → InTable s'

namespace Writes

variable {W V : Task → Task → Prop}

theorem refl (s : Scheduler) : Writes W s s := ⟨rfl, rfl, .refl _, id⟩

theorem trans (h₁ : Writes W s s') (h₂ : Writes W s' s'') : Writes W s s'' :=
  ⟨h₂.nextId_eq.trans h₁.nextId_eq, h₂.boostCountdown_eq.trans h₁.boostCountdown_eq,
    h₁.tasks.trans h₂.tasks, fun hs => h₂.inTable (h₁.inTable hs)⟩

theorem kept (hW : ∀ {t u}, W t u → t.Keeps u) (h : Writes W s s') : Kept s s' := by
  refine ⟨h.nextId_eq, h.tasks.map_eq fun t u htu => ?_, ?_⟩
  · rw [(hW htu).id_eq, (hW htu).pageTable_eq]
  · intro slot u hu hb
    obtain ⟨t, ht, htu⟩ := h.tasks.exists_old hu
    refine ⟨t, ht, ?_⟩
    clear hu
    induction htu with
    | refl => exact hb
    | tail _ hstep ih => exact ih ((hW hstep).blocked hb)

end Writes

variable {W : Task → Task → Prop}

theorem Requeues.writes (h : Requeues s s') : Writes W s s' := by
  refine ⟨h.nextId_eq, h.boostCountdown_eq, ?_, h.inTable⟩
  rw [h.tasks_eq]
  exact .refl _

theorem writes_setTask (ht : s.tasks slot = some t) (hW : W t u) : Writes W s (s.setTask slot u) :=
  ⟨rfl, rfl, .update ht hW, fun hs => ⟨hs.queued_lt, hs.current⟩⟩

/-- A task is made the current one. -/
theorem writes_setCurrent (hlt : slot < maxTasks) : Writes W s { s with current := slot } :=
  ⟨rfl, rfl, .refl _, fun hs => ⟨hs.queued_lt, Or.inr hlt⟩⟩

theorem writes_boostLevel (h : boostLevel k n s = some s') : Writes Task.Boosts s s' := by
  induction n generalizing s with
  | zero =>
    cases h
    exact .refl _
  | succ n ih =>
    rw [boostLevel] at h
    split at h
    · cases h
      exact .refl _
    next popped q hpop =>
      obtain ⟨o, hat, h⟩ := bind_eq_some_iff.mp h
      have hlt := (taskAt_eq_some hat).1
      have hq : Writes Task.Boosts s (s.setQueue k q) := (pops_setQueue hpop).requeues.writes
      cases o with
      | none =>
        simp only [bind_eq_bind, bind_some] at h
        obtain ⟨s₂, hpush, h⟩ := bind_eq_some_iff.mp h
        exact (hq.trans (requeues_pushBack hlt hpush).writes).trans (ih h)
      | some t =>
        have hset := writes_setTask (taskAt_eq_some hat).2 (Task.Boosts.mk (t := t))
        simp only [bind_eq_bind, bind_some] at h
        obtain ⟨s₂, hpush, h⟩ := bind_eq_some_iff.mp h
        exact ((hq.trans hset).trans (requeues_pushBack hlt hpush).writes).trans (ih h)

theorem writes_boostLevels {ks : List Nat}
    (h : ks.foldlM (fun s k => boostLevel k (s.queues k).len s) s = some s') :
    Writes Task.Boosts s s' := by
  induction ks generalizing s with
  | nil =>
    cases h
    exact .refl _
  | cons k ks ih =>
    obtain ⟨s₁, h₁, h⟩ := bind_eq_some_iff.mp h
    exact (writes_boostLevel h₁).trans (ih h)

/-- Beyond counting down, `countdown` is the boost, if anything. -/
theorem writes_countdown (h : s.countdown = some s') :
    Writes Task.Boosts { s with boostCountdown := s'.boostCountdown } s' := by
  unfold countdown at h
  dsimp only at h
  split at h
  · obtain ⟨s₁, h₁, h⟩ := bind_eq_some_iff.mp h
    cases h
    have hboost : Writes Task.Boosts _ s₁ := writes_boostLevels h₁
    exact ⟨hboost.nextId_eq, rfl, hboost.tasks, fun hs =>
      ⟨(hboost.inTable ⟨hs.queued_lt, hs.current⟩).queued_lt,
        (hboost.inTable ⟨hs.queued_lt, hs.current⟩).current⟩⟩
  · cases h
    exact ⟨rfl, rfl, .refl _, fun hs => ⟨hs.queued_lt, hs.current⟩⟩

theorem kept_countdown (h : s.countdown = some s') : Kept s s' := by
  have hkept := (writes_countdown h).kept Task.Boosts.keeps
  exact ⟨hkept.nextId_eq, hkept.ident_eq, hkept.blocked⟩

theorem inTable_countdown (h : s.countdown = some s') (hs : InTable s) : InTable s' :=
  (writes_countdown h).inTable ⟨hs.queued_lt, hs.current⟩

theorem writes_demoteCurrent (h : s.demoteCurrent = some s') : Writes Task.Adjusts s s' := by
  obtain ⟨o, hat, h⟩ := bind_eq_some_iff.mp h
  cases o with
  | none =>
    cases h
    exact .refl _
  | some t =>
    cases h
    refine writes_setTask (taskAt_eq_some hat).2 (.resets _ ?_)
    split
    · next hlt => exact .inr (Nat.add_lt_of_lt_sub hlt)
    · exact .inl (le_refl _)

theorem tick_eq_some {expired : Bool} (h : s.tick = some (s', expired)) :
    ∃ s₁, s.countdown = some s₁ ∧ Kept s₁ s' ∧ s'.boostCountdown = s₁.boostCountdown := by
  obtain ⟨s₁, h₁, h⟩ := bind_eq_some_iff.mp h
  refine ⟨s₁, h₁, ?_⟩
  split at h
  · cases h
    exact ⟨.refl _, rfl⟩
  · obtain ⟨o, hat, h⟩ := bind_eq_some_iff.mp h
    cases o with
    | none =>
      cases h
      exact ⟨.refl _, rfl⟩
    | some t =>
      obtain ⟨quantum, -, h⟩ := bind_eq_some_iff.mp h
      have hset : Writes Task.Keeps s₁ (s₁.setTask s₁.current
          { t with ticksUsed := t.ticksUsed + 1 }) :=
        writes_setTask (taskAt_eq_some hat).2 ⟨rfl, rfl, id⟩
      split at h
      · obtain ⟨s₂, h₂, h⟩ := bind_eq_some_iff.mp h
        cases h
        have hdemote := writes_demoteCurrent h₂
        exact ⟨(hset.kept id).trans (hdemote.kept Task.Adjusts.keeps), hdemote.boostCountdown_eq⟩
      · cases h
        exact ⟨hset.kept id, rfl⟩

theorem kept_tick {expired : Bool} (h : s.tick = some (s', expired)) : Kept s s' := by
  obtain ⟨s₁, hcount, hkept, -⟩ := tick_eq_some h
  exact (kept_countdown hcount).trans hkept

theorem writes_requeueOld (h : s.requeueOld regs framePtr = some s') :
    Writes Task.Dispatches s s' := by
  obtain ⟨o, hat, h⟩ := bind_eq_some_iff.mp h
  cases o with
  | none =>
    cases h
    exact .refl _
  | some t =>
    obtain ⟨hlt, ht⟩ := taskAt_eq_some hat
    dsimp only at h
    split at h
    · refine Writes.trans ?_ (requeues_pushBack hlt h).writes
      exact writes_setTask ht (.mk .ready _ t.awakePending nofun)
    · cases h
      exact writes_setTask ht (.mk t.state _ t.awakePending id)

theorem writes_switchTo {oldSlot : TaskId} (h : s.switchTo oldSlot = some (s', d)) :
    Writes Task.Dispatches s s' := by
  obtain ⟨⟨s₁, newSlot⟩, hpick, h⟩ := bind_eq_some_iff.mp h
  have h₁ : Writes Task.Dispatches s s₁ := (pops_pickNext hpick).requeues.writes
  have hrun : ∀ t : Task, t.Dispatches { t with state := .running } :=
    fun t => .mk .running t.context t.awakePending nofun
  dsimp only at h
  split at h
  · obtain ⟨o, hat, h⟩ := bind_eq_some_iff.mp h
    cases o with
    | none =>
      cases h
      exact h₁
    | some t =>
      cases h
      exact h₁.trans (writes_setTask (taskAt_eq_some hat).2 (hrun t))
  · obtain ⟨o, hat, h⟩ := bind_eq_some_iff.mp h
    obtain ⟨t, ho, h⟩ := bind_eq_some_iff.mp h
    cases h
    have ht : s₁.tasks newSlot = some t := (taskAt_eq_some hat).2.trans ho
    have h₂ := h₁.trans (writes_setCurrent (taskAt_eq_some hat).1)
    exact h₂.trans (writes_setTask ht (hrun t))

variable (h : s.reschedule regs framePtr = some (s', d))

include h in
theorem writes_reschedule :
    Writes Task.Dispatches s s' := by
  obtain ⟨s₁, h₁, h⟩ := bind_eq_some_iff.mp h
  exact (writes_requeueOld h₁).trans (writes_switchTo h)

include h in
theorem kept_reschedule : Kept s s' := (writes_reschedule h).kept Task.Dispatches.keeps

theorem kept_timerTick (h : s.timerTick regs framePtr = some (s', d)) : Kept s s' := by
  obtain ⟨⟨s₁, expired⟩, h₁, h⟩ := bind_eq_some_iff.mp h
  dsimp only at h
  split at h
  · exact (kept_tick h₁).trans (kept_reschedule h)
  · cases h
    exact kept_tick h₁

theorem writes_wakeTask {taskId : TaskId} (h : s.wakeTask taskId = some s') :
    Writes Task.Dispatches s s' := by
  unfold wakeTask at h
  split at h
  · cases h
    exact .refl _
  next slot _ =>
    obtain ⟨o, hat, h⟩ := bind_eq_some_iff.mp h
    obtain ⟨t, ho, h⟩ := bind_eq_some_iff.mp h
    have ht : s.tasks slot = some t := (taskAt_eq_some hat).2.trans ho
    split at h
    · refine Writes.trans ?_ (requeues_pushBack (taskAt_eq_some hat).1 h).writes
      exact writes_setTask ht (.mk .ready t.context t.awakePending nofun)
    · cases h
      exact writes_setTask ht (.mk t.state t.context true id)

theorem kept_wakeTask {taskId : TaskId} (h : s.wakeTask taskId = some s') : Kept s s' :=
  (writes_wakeTask h).kept Task.Dispatches.keeps

theorem writes_kill (h : s.kill slot = some s') : Writes Task.Dispatches s s' := by
  obtain ⟨o, hat, h⟩ := bind_eq_some_iff.mp h
  cases o with
  | none =>
    cases h
    exact .refl _
  | some t =>
    refine Writes.trans ?_ (requeues_remove (taskAt_eq_some hat).1 h).writes
    exact writes_setTask (taskAt_eq_some hat).2
      (.mk .dead t.context t.awakePending nofun)

theorem kept_kill (h : s.kill slot = some s') : Kept s s' :=
  (writes_kill h).kept Task.Dispatches.keeps

/-- The task in a slot, if there is one, starts a new quantum and loses no priority. -/
inductive Restarts (slot : TaskId) (s : Scheduler) : Scheduler → Prop
  | absent : s.tasks slot = none → Restarts slot s s
  | resets {t : Task} {p : Nat} {s' : Scheduler} : s.tasks slot = some t → p ≤ t.priority →
      Requeues (s.setTask slot { t with priority := p, ticksUsed := 0 }) s' → Restarts slot s s'

theorem Restarts.writes (h : Restarts slot s s') : Writes Task.Adjusts s s' := by
  cases h with
  | absent => exact .refl _
  | resets ht hp hqueue => exact (writes_setTask ht (.resets _ (.inl hp))).trans hqueue.writes

/-- The tasks in these slots do so, one after the other. -/
inductive RestartsAll (s' : Scheduler) : List TaskId → Scheduler → Prop
  | nil : RestartsAll s' [] s'
  | cons {slot : TaskId} {slots : List TaskId} {s s₁ : Scheduler} : Restarts slot s s₁ →
      RestartsAll s' slots s₁ → RestartsAll s' (slot :: slots) s

theorem Restarts.all (h : Restarts slot s s') : RestartsAll s' [slot] s := .cons h .nil

theorem RestartsAll.writes {slots : List TaskId} (h : RestartsAll s' slots s) :
    Writes Task.Adjusts s s' := by
  induction h with
  | nil => exact .refl s'
  | cons hfirst _ ih => exact hfirst.writes.trans ih

theorem restarts_boostPartner (h : s.boostPartner slot = some s') : Restarts slot s s' := by
  obtain ⟨o, hat, h⟩ := bind_eq_some_iff.mp h
  obtain ⟨hlt, ht⟩ := taskAt_eq_some hat
  cases o with
  | none =>
    cases h
    exact .absent ht
  | some t =>
    refine .resets ht (Nat.zero_le _) ?_
    dsimp only at h
    split at h
    · obtain ⟨s₁, h₁, h⟩ := bind_eq_some_iff.mp h
      exact (requeues_remove hlt h₁).trans (requeues_pushFront hlt h)
    · cases h
      exact .refl _

/-- The tasks whose quantum starts afresh when the one in `slot` blocks. -/
def BlockReason.restarts (slot : TaskId) : BlockReason → List TaskId
  | .spscRingEmpty producerSlot => [producerSlot, slot]
  | .spscRingFull consumerSlot => [consumerSlot]
  | .fileRead | .mutexContention => [slot]
  | .sleep | .yield | .waiting => []

variable {reason : BlockReason}

theorem restarts_boostForReason
    (h : s.boostForReason slot reason = some s') : RestartsAll s' (reason.restarts slot) s := by
  cases reason with
  | spscRingEmpty producerSlot =>
    obtain ⟨s₁, h₁, h⟩ := bind_eq_some_iff.mp h
    obtain ⟨o, hat, h⟩ := bind_eq_some_iff.mp h
    refine .cons (restarts_boostPartner h₁) (Restarts.all ?_)
    cases o with
    | none =>
      cases h
      exact .absent (taskAt_eq_some hat).2
    | some t =>
      cases h
      exact .resets (taskAt_eq_some hat).2 (Nat.zero_le _) (.refl _)
  | spscRingFull consumerSlot => exact (restarts_boostPartner h).all
  | fileRead | mutexContention =>
    obtain ⟨o, hat, h⟩ := bind_eq_some_iff.mp h
    obtain ⟨hlt, ht⟩ := taskAt_eq_some hat
    refine Restarts.all ?_
    cases o with
    | none =>
      cases h
      exact .absent ht
    | some t =>
      have hle : (if t.priority > 0 then t.priority - 1 else t.priority) ≤ t.priority := by
        split <;> omega
      dsimp only at h
      generalize (if t.priority > 0 then t.priority - 1 else t.priority) = p at h hle
      refine .resets ht hle ?_
      split at h
      · obtain ⟨s₁, h₁, h⟩ := bind_eq_some_iff.mp h
        exact (requeues_remove hlt h₁).trans (requeues_pushBack hlt h)
      · cases h
        exact .refl _
  | sleep | yield | waiting =>
    cases h
    exact .nil

theorem restarts_promote (h : s.promote slot = some s') : Restarts slot s s' := by
  obtain ⟨o, hat, h⟩ := bind_eq_some_iff.mp h
  cases o with
  | none =>
    cases h
    exact .absent (taskAt_eq_some hat).2
  | some t =>
    cases h
    refine .resets (taskAt_eq_some hat).2 ?_ (.refl _)
    split <;> omega

/-! ## Events -/

/-- The current task becomes blocked; beyond that nothing is lost. -/
theorem blockCurrent_eq_some (h : s.blockCurrent reason = some s') :
    s.tasks s.current = none ∧ s' = s ∨
      ∃ t, s.tasks s.current = some t ∧
        Writes Task.Adjusts (s.setTask s.current { t with state := .blocked }) s' := by
  obtain ⟨o, hat, h⟩ := bind_eq_some_iff.mp h
  cases o with
  | none =>
    cases h
    exact .inl ⟨(taskAt_eq_some hat).2, rfl⟩
  | some t => exact .inr ⟨t, (taskAt_eq_some hat).2, (restarts_boostForReason h).writes⟩

/-- A task that waits is not moved to another level. -/
theorem blockCurrent_waiting (hlt : s.current < maxTasks) (ht : s.tasks s.current = some t) :
    s.blockCurrent .waiting = some (s.setTask s.current { t with state := .blocked }) := by
  unfold blockCurrent taskAt
  dsimp only
  rw [if_pos hlt, ht]
  rfl

theorem writes_run {d : Dispatch} (h : s.run = some (s', d)) : Writes Task.Dispatches s s' := by
  obtain ⟨⟨s₁, slot⟩, hpick, h⟩ := bind_eq_some_iff.mp h
  have h₁ : Writes Task.Dispatches s s₁ := (pops_pickNext hpick).requeues.writes
  dsimp only at h
  split at h
  · cases h
  · obtain ⟨o, hat, h⟩ := bind_eq_some_iff.mp h
    obtain ⟨t, ho, h⟩ := bind_eq_some_iff.mp h
    cases h
    have ht : s₁.tasks slot = some t := (taskAt_eq_some hat).2.trans ho
    have h₂ := h₁.trans (writes_setCurrent (taskAt_eq_some hat).1)
    exact h₂.trans (writes_setTask ht
      (.mk .running t.context t.awakePending nofun))

theorem kept_run {d : Dispatch} (h : s.run = some (s', d)) : Kept s s' :=
  (writes_run h).kept Task.Dispatches.keeps

end BeastOs.Scheduler
