import BeastOs.Lib.Buckets
import BeastOs.Scheduler.Drain
import BeastOs.Scheduler.Entry

/-!
# Queues and task states agree

Which queue a task slot belongs in is a function of its task: a ready task belongs in the queue of
its priority, any other slot in none. `Consistent` says that the six queues list exactly that, and
that no push was ever dropped. Everything the scheduler does to a slot is one of three moves:

* `Consistent.setTask` — the task changes but stays in the same queue, or in none;
* `Consistent.enqueue` — a slot that was in no queue gets a ready task and is pushed;
* `Consistent.dequeue` — a queued slot is taken out and its task stops being ready.

A slot that changes queues is dequeued and enqueued. The functions of `mlfq.rs` are then specified
one by one: on a consistent state they do not panic and they leave a consistent state behind.
-/

namespace BeastOs.Scheduler

open Option Function Lib

/-! ## Where a slot belongs -/

/-- The queue a slot with this content belongs in. -/
def readyLevel : Option Task → Option Nat
  | some t => if t.state = .ready then some t.priority else none
  | none => none

/-- The queue each slot belongs in. -/
def levelOf (tasks : Nat → Option Task) (slot : TaskId) : Option Nat :=
  if slot < maxTasks then readyLevel (tasks slot) else none

/-- Queues and task states agree, and every push has found room. -/
structure Consistent (tasks : Nat → Option Task) (queues : Nat → TaskQueue) : Prop where
  buckets : Buckets (levelOf tasks) (fun k => (queues k).toList)
  priority_lt : ∀ slot t, slot < maxTasks → tasks slot = some t → t.priority < priorityLevels
  lost_eq : ∀ k, (queues k).lost = 0

variable {t : Task} {tasks : Nat → Option Task} {slot : TaskId} {k : Nat} {s : Scheduler}

theorem readyLevel_ready (h : t.state = .ready) : readyLevel (some t) = some t.priority := if_pos h

theorem readyLevel_not_ready (h : t.state ≠ .ready) : readyLevel (some t) = none :=
  if_neg h

/-- Where a slot belongs depends on the state and, for a ready task, the priority. -/
theorem readyLevel_congr {u : Task} (hstate : u.state = t.state)
    (hprio : t.state = .ready → u.priority = t.priority) :
    readyLevel (some u) = readyLevel (some t) := by
  by_cases hr : t.state = .ready
  · rw [readyLevel_ready hr, readyLevel_ready (hstate.trans hr), hprio hr]
  · rw [readyLevel_not_ready hr, readyLevel_not_ready (by rwa [hstate])]

theorem levelOf_of_lt (h : slot < maxTasks) :
    levelOf tasks slot = readyLevel (tasks slot) := if_pos h

theorem lt_of_levelOf (h : levelOf tasks slot = some k) : slot < maxTasks := by
  unfold levelOf at h
  split at h
  · assumption
  · cases h

/-- A slot that belongs in queue `k` holds a ready task of that priority. -/
theorem ready_of_levelOf (h : levelOf tasks slot = some k) :
    ∃ t, tasks slot = some t ∧ t.state = .ready ∧ t.priority = k := by
  rw [levelOf_of_lt (lt_of_levelOf h)] at h
  cases ht : tasks slot with
  | none => rw [ht] at h; cases h
  | some t =>
    rw [ht] at h
    by_cases hr : t.state = .ready
    · rw [readyLevel_ready hr] at h
      exact ⟨t, rfl, hr, some.inj h⟩
    · rw [readyLevel_not_ready hr] at h
      cases h

theorem levelOf_update (t : Option Task) (h : slot < maxTasks) :
    levelOf (update tasks slot t) = update (levelOf tasks) slot (readyLevel t) := by
  funext j
  by_cases hj : j = slot
  · subst hj
    rw [levelOf_of_lt h, update_self, update_self]
  · unfold levelOf
    simp only [update_of_ne hj]

theorem toList_update (queues : Nat → TaskQueue) (k : Nat) (q : TaskQueue) :
    (fun j => (update queues k q j).toList) = update (fun j => (queues j).toList) k q.toList := by
  funext j
  by_cases hj : j = k
  · subst hj
    rw [update_self, update_self]
  · simp only [update_of_ne hj]

namespace Consistent

variable {tasks : Nat → Option Task} {queues : Nat → TaskQueue} {slot : TaskId} {t : Task}
  (h : Consistent tasks queues)

include h in
theorem mem_iff (k : Nat) (j : TaskId) :
    j ∈ (queues k).toList ↔ levelOf tasks j = some k := h.buckets.mem_iff k j

include h in
/-- A queue always has room for a slot that is in no queue. -/
theorem room (hlt : slot < maxTasks)
    (hnone : readyLevel (tasks slot) = none) (k : Nat) : (queues k).toList.length < maxTasks := by
  apply length_lt_of_nodup_of_not_mem (h.buckets.nodup k) _ hlt
  · exact h.buckets.not_mem ((levelOf_of_lt hlt).trans hnone) k
  · intro j hj
    exact lt_of_levelOf ((h.mem_iff k j).mp hj)

/-! ## The three moves -/

include h in
theorem priority_lt_update (hp : t.priority < priorityLevels) :
    ∀ j u, j < maxTasks → update tasks slot (some t) j = some u → u.priority < priorityLevels := by
  intro j u hj hu
  by_cases hjs : j = slot
  · subst hjs
    rw [update_self] at hu
    cases hu
    exact hp
  · rw [update_of_ne hjs] at hu
    exact h.priority_lt j u hj hu

variable {q : TaskQueue}

section

variable (h : Consistent tasks queues)
include h

theorem lost_eq_update {k : Nat} (hlost : q.lost = (queues k).lost)
    (j : Nat) : (update queues k q j).lost = 0 := by
  by_cases hj : j = k
  · subst hj
    rw [update_self, hlost]
    exact h.lost_eq _
  · rw [update_of_ne hj]
    exact h.lost_eq j

/-- A task changes without changing queues. -/
theorem setTask (hlt : slot < maxTasks) (hsame : readyLevel (some t) = readyLevel (tasks slot))
    (hp : t.priority < priorityLevels) : Consistent (update tasks slot (some t)) queues := by
  refine ⟨?_, h.priority_lt_update hp, h.lost_eq⟩
  have hf : levelOf (update tasks slot (some t)) = levelOf tasks := by
    rw [levelOf_update _ hlt, hsame, ← levelOf_of_lt hlt, update_eq_self]
  rw [hf]
  exact h.buckets

/-- A slot that was in no queue gets a ready task and is pushed, at either end. -/
theorem enqueue (hlt : slot < maxTasks) (hnone : readyLevel (tasks slot) = none)
    (hready : t.state = .ready) (hp : t.priority < priorityLevels)
    (hq : q.toList.Perm (slot :: (queues t.priority).toList))
    (hlost : q.lost = (queues t.priority).lost) :
    Consistent (update tasks slot (some t)) (update queues t.priority q) := by
  refine ⟨?_, h.priority_lt_update hp, h.lost_eq_update hlost⟩
  rw [levelOf_update _ hlt, toList_update, readyLevel_ready hready]
  exact h.buckets.insert ((levelOf_of_lt hlt).trans hnone) hq

/-- A queued slot is taken out of its queue and its task stops being ready. -/
theorem dequeue {k : Nat} (hq : (queues k).toList.Perm (slot :: q.toList))
    (hlost : q.lost = (queues k).lost) (hready : t.state ≠ .ready)
    (hp : t.priority < priorityLevels) :
    Consistent (update tasks slot (some t)) (update queues k q) := by
  refine ⟨?_, h.priority_lt_update hp, h.lost_eq_update hlost⟩
  have hlt : slot < maxTasks :=
    lt_of_levelOf ((h.mem_iff k slot).mp (hq.mem_iff.mpr (by simp)))
  rw [levelOf_update _ hlt, toList_update, readyLevel_not_ready hready]
  exact h.buckets.erase hq

end

include h in
/-- A queued slot changes queues: it is taken out of queue `k` and pushed into that of its new
priority. What is pushed to has room, since the slot itself has just left. -/
theorem move {k : Nat}
    (hq : (queues k).toList.Perm (slot :: q.toList)) (hlost : q.lost = (queues k).lost)
    (hready : t.state = .ready) (hp : t.priority < priorityLevels) (push : TaskQueue → TaskQueue)
    (hpush : ∀ p : TaskQueue, p.toList.length < maxTasks →
      (push p).toList.Perm (slot :: p.toList) ∧ (push p).lost = p.lost) :
    Consistent (update tasks slot (some t)) (update (update queues k q) t.priority
        (push (update queues k q t.priority))) := by
  have hlt : slot < maxTasks :=
    lt_of_levelOf ((h.mem_iff k slot).mp (hq.mem_iff.mpr (by simp)))
  -- between the two moves the task may be thought of as blocked
  have hout := h.dequeue (t := { t with state := .blocked }) hq hlost (by simp) hp
  have hnone : readyLevel (update tasks slot (some { t with state := .blocked }) slot)
      = none := by
    rw [update_self]
    exact readyLevel_not_ready (by simp)
  obtain ⟨hperm, hlost'⟩ := hpush _ (hout.room hlt hnone t.priority)
  have hin := hout.enqueue hlt hnone hready hp hperm hlost'
  rwa [update_idem] at hin

end Consistent

/-! ## What leaves the tasks alone but for priorities and quanta -/

/-- A task without what boosts and demotions change. -/
def Task.fixed (t : Task) : Task := { t with priority := 0, ticksUsed := 0 }

/-- From `s` to `s'` only queues, priorities and used quanta changed. -/
structure Reprioritised (s s' : Scheduler) : Prop where
  current_eq : s'.current = s.current
  nextId_eq : s'.nextId = s.nextId
  tasks_eq : ∀ slot, (s'.tasks slot).map Task.fixed = (s.tasks slot).map Task.fixed

namespace Reprioritised

variable {s s' s'' : Scheduler}

theorem refl (s : Scheduler) : Reprioritised s s := ⟨rfl, rfl, fun _ => rfl⟩

theorem trans (h₁ : Reprioritised s s') (h₂ : Reprioritised s' s'') : Reprioritised s s'' :=
  ⟨h₂.current_eq.trans h₁.current_eq, h₂.nextId_eq.trans h₁.nextId_eq,
    fun slot => (h₂.tasks_eq slot).trans (h₁.tasks_eq slot)⟩

variable {slot : TaskId}

/-- The tasks are still there, with the same fixed part. -/
theorem exists_task {t : Task} (h : Reprioritised s s') (ht : s.tasks slot = some t) :
    ∃ t', s'.tasks slot = some t' ∧ t'.fixed = t.fixed := by
  have hmap := h.tasks_eq slot
  rw [ht] at hmap
  exact map_eq_some_iff.mp hmap

/-- Every task was there before. -/
theorem exists_old {t' : Task} (h : Reprioritised s s') (ht : s'.tasks slot = some t') :
    ∃ t, s.tasks slot = some t ∧ t'.fixed = t.fixed := by
  have hmap := h.tasks_eq slot
  rw [ht] at hmap
  obtain ⟨t, ht, heq⟩ := map_eq_some_iff.mp hmap.symm
  exact ⟨t, ht, heq.symm⟩

/-- Rewriting one task inside its fixed part, whatever happens to the queues. -/
theorem update {t : Task} (t' : Task) (ht : s.tasks slot = some t) (hfix : t'.fixed = t.fixed)
    (queues : Nat → TaskQueue) :
    Reprioritised s { s with tasks := update s.tasks slot (some t'), queues } := by
  refine ⟨rfl, rfl, ?_⟩
  intro j
  by_cases hj : j = slot
  · subst hj
    rw [ht]
    simp [hfix]
  · simp [hj]

end Reprioritised

theorem Task.state_eq_of_fixed {t' : Task} (h : t'.fixed = t.fixed) : t'.state = t.state := by
  show t'.fixed.state = t.fixed.state
  rw [h]

/-! ## Array accesses in range -/

variable {slot : TaskId}

theorem onQueue_of_lt {f : TaskQueue → TaskQueue} (h : k < priorityLevels) :
    s.onQueue k f = some (s.setQueue k (f (s.queues k))) := if_pos h

/-! ## Boosting everything -/

theorem Drained.reprioritised {levels : List Nat} {ids : List TaskId} {s' : Scheduler}
    (h : Drained levels ids s s') : Reprioritised s s' where
  current_eq := by rw [h.rest]
  nextId_eq := by rw [h.rest]
  tasks_eq := by
    intro slot
    rw [h.tasks]
    split
    · rw [Option.map_map]
      rfl
    · rfl

/-- The first slot of a queue holds a ready task of that level, which `Consistent.move` takes to the
end of queue 0. -/
theorem Consistent.keptByMoves : KeptByMoves fun s => Consistent s.tasks s.queues := by
  intro s k slot q _ hq hlost h
  have hlevel : levelOf s.tasks slot = some k := (h.mem_iff k slot).mp (by rw [hq]; simp)
  obtain ⟨t, ht, hready, -⟩ := ready_of_levelOf hlevel
  have hmove := h.move (t := t.boosted) (by rw [hq]) hlost hready
    (show 0 < priorityLevels by decide) (·.pushBack slot)
    (fun p hp => ⟨TaskQueue.perm_pushBack hp, TaskQueue.lost_pushBack hp⟩)
  unfold moveToZero
  rw [ht]
  exact hmove

variable (h : Consistent s.tasks s.queues)

include h in
theorem boostAll_spec :
    ∃ s', s.boostAll = some s' ∧ Consistent s'.tasks s'.queues ∧ Reprioritised s s' ∧
      s'.tickCount = s.tickCount ∧ s'.boostCountdown = s.boostCountdown := by
  obtain ⟨s', hrun, hcons, hdrained⟩ := boostAll_drained Consistent.keptByMoves h
    fun k slot hslot => lt_of_levelOf ((h.mem_iff k slot).mp hslot)
  exact ⟨s', hrun, hcons, hdrained.reprioritised, by rw [hdrained.rest], by rw [hdrained.rest]⟩

/-! ## Picking the next task -/

/-- What `pickNext` finds: nothing is queued, or it pops the first slot of the best level that has
one. -/
inductive Picked (s : Scheduler) (levels : Nat → Prop) : Scheduler → TaskId → Prop
  | nothing : (∀ k, levels k → (s.queues k).toList = []) → Picked s levels s noTask
  | task {slot k q t} : levels k → (∀ j < k, levels j → (s.queues j).toList = []) →
      (s.queues k).toList = slot :: q.toList → q.lost = (s.queues k).lost →
      slot < maxTasks → s.tasks slot = some t → t.state = .ready → t.priority = k →
      Picked s levels (s.setQueue k q) slot

theorem pickLevel_empty {n : Nat} (h : (s.queues k).toList = []) :
    pickLevel k n s = some (s, none) := by
  cases n with
  | zero => rfl
  | succ n => rw [pickLevel, TaskQueue.popFront_eq_none h]

/-- Whatever is queued is ready and at its level. -/
def ReadyQueues (s : Scheduler) : Prop :=
  ∀ k < priorityLevels, ∀ slot ∈ (s.queues k).toList, levelOf s.tasks slot = some k

include h in
theorem Consistent.readyQueues : ReadyQueues s :=
  fun k _ slot hslot => (h.mem_iff k slot).mp hslot

/-- If the first slot of a queue is ready, its level is decided by the first pop. -/
theorem pickLevel_cons {n : Nat} {ids : List TaskId} (hlevel : levelOf s.tasks slot = some k)
    (hq : (s.queues k).toList = slot :: ids) :
    ∃ q t, pickLevel k (n + 1) s = some (s.setQueue k q, some slot) ∧
      (s.queues k).toList = slot :: q.toList ∧ q.lost = (s.queues k).lost ∧
      slot < maxTasks ∧ s.tasks slot = some t ∧ t.state = .ready ∧ t.priority = k := by
  obtain ⟨q, hpop, hqids, hlost⟩ := TaskQueue.popFront_eq_some hq
  obtain ⟨t, ht, hready, hprio⟩ := ready_of_levelOf hlevel
  have hlt := lt_of_levelOf hlevel
  refine ⟨q, t, ?_, by rw [hq, hqids], hlost, hlt, ht, hready, hprio⟩
  rw [pickLevel, hpop]
  have ht' : (s.setQueue k q).tasks slot = some t := ht
  simp only [bind_eq_bind, taskAt_of_lt hlt, bind_some, ht', hready, if_true]
  rfl

theorem pickFrom_spec (h : ReadyQueues s) (n : Nat) :
    ∀ a, a + n ≤ priorityLevels → ∃ s' slot, pickFrom (List.range' a n) s = some (s', slot) ∧
      Picked s (fun k => a ≤ k ∧ k < a + n) s' slot := by
  induction n with
  | zero =>
    intro a _
    exact ⟨s, noTask, rfl, Picked.nothing (by omega)⟩
  | succ n ih =>
    intro a ha
    rw [List.range'_succ, pickFrom]
    cases hq : (s.queues a).toList with
    | nil =>
      obtain ⟨s', slot, hrun, hpick⟩ := ih (a + 1) (by omega)
      rw [pickLevel_empty hq]
      refine ⟨s', slot, hrun, ?_⟩
      cases hpick with
      | nothing hall =>
        refine Picked.nothing (fun k hk => ?_)
        rcases Nat.eq_or_lt_of_le hk.1 with rfl | hlt
        · exact hq
        · exact hall k (by omega)
      | @task _ k q t hk hbelow hlist hlost hlt ht hready hprio =>
        refine Picked.task (by omega) (fun j hjk hj => ?_) hlist hlost hlt ht hready hprio
        rcases Nat.eq_or_lt_of_le hj.1 with rfl | hlt
        · exact hq
        · exact hbelow j hjk (by omega)
    | cons slot ids =>
      have hlen : (s.queues a).len = ids.length + 1 := by
        rw [← TaskQueue.length_toList, hq]
        rfl
      have hlevel := h a (by omega) slot (by rw [hq]; simp)
      obtain ⟨q, t, hrun, hlist, hlost, hlt, ht, hready, hprio⟩ :=
        pickLevel_cons (n := ids.length) hlevel hq
      rw [hlen, hrun]
      exact ⟨_, slot, rfl, Picked.task (by omega) (by omega) hlist hlost hlt ht hready hprio⟩

theorem ReadyQueues.pickNext (h : ReadyQueues s) :
    ∃ s' slot, s.pickNext = some (s', slot) ∧ Picked s (· < priorityLevels) s' slot := by
  obtain ⟨s', slot, hrun, hpick⟩ := pickFrom_spec h priorityLevels 0 (by omega)
  refine ⟨s', slot, ?_, ?_⟩
  · rw [Scheduler.pickNext, List.range_eq_range']
    exact hrun
  · simpa using hpick

include h in
theorem pickNext_spec :
    ∃ s' slot, s.pickNext = some (s', slot) ∧ Picked s (· < priorityLevels) s' slot :=
  h.readyQueues.pickNext

/-! ## Boosting for a block reason -/

section

variable (h : Consistent s.tasks s.queues)
include h

/-- Taking a slot out of its queue by `remove`. -/
theorem Consistent.remove_perm (hlevel : levelOf s.tasks slot = some k) :
    (s.queues k).toList.Perm (slot :: ((s.queues k).remove slot).toList) :=
  TaskQueue.perm_cons_remove (h.buckets.nodup k) ((h.mem_iff k slot).mpr hlevel)

theorem boostPartner_spec (hlt : slot < maxTasks) :
    ∃ s', s.boostPartner slot = some s' ∧ Consistent s'.tasks s'.queues ∧ Reprioritised s s' ∧
      s'.tickCount = s.tickCount ∧ s'.boostCountdown = s.boostCountdown := by
  unfold boostPartner
  rw [taskAt_of_lt hlt]
  cases ht : s.tasks slot with
  | none => exact ⟨s, rfl, h, Reprioritised.refl s, rfl, rfl⟩
  | some t =>
    have hp := h.priority_lt slot t hlt ht
    have hp0 : 0 < priorityLevels := by decide
    simp only [bind_eq_bind, bind_some]
    by_cases hmove : t.state = .ready ∧ t.priority ≠ 0
    · rw [if_pos hmove, onQueue_of_lt hp, bind_some, onQueue_of_lt hp0]
      have hlevel : levelOf s.tasks slot = some t.priority := by
        rw [levelOf_of_lt hlt, ht, readyLevel_ready hmove.1]
      have hcons := h.move (t := { t with priority := 0, ticksUsed := 0 })
        (h.remove_perm hlevel) (TaskQueue.lost_remove _ _) hmove.1 hp0 (·.pushFront slot)
        (fun p hp => ⟨TaskQueue.perm_pushFront hp, TaskQueue.lost_pushFront hp⟩)
      exact ⟨_, rfl, hcons, Reprioritised.update _ ht (by rfl) _, rfl, rfl⟩
    · rw [if_neg hmove]
      have hsame : readyLevel (some { t with priority := 0, ticksUsed := 0 })
          = readyLevel (s.tasks slot) := by
        rw [ht]
        refine readyLevel_congr rfl (fun hr => ?_)
        by_contra hne
        exact hmove ⟨hr, Ne.symm hne⟩
      exact ⟨_, rfl, h.setTask hlt hsame hp0, Reprioritised.update _ ht (by rfl) _, rfl, rfl⟩

/-- The slots a block reason names. -/
def BlockReason.InRange : BlockReason → Prop
  | .spscRingEmpty producerSlot => producerSlot < maxTasks
  | .spscRingFull consumerSlot => consumerSlot < maxTasks
  | _ => True

/-- The boosts keep the state consistent when the blocking task itself is no longer ready. -/
theorem boostForReason_spec {reason : BlockReason} (hlt : slot < maxTasks)
    (ht : s.tasks slot = some t) (hstate : t.state ≠ .ready) (hreason : reason.InRange) :
    ∃ s', s.boostForReason slot reason = some s' ∧ Consistent s'.tasks s'.queues ∧
      Reprioritised s s' := by
  have hp0 : 0 < priorityLevels := by decide
  -- the two I/O reasons share a branch: one level up, and no queue to leave
  have hio : ∃ s', s.boostForReason slot .fileRead = some s' ∧ Consistent s'.tasks s'.queues ∧
      Reprioritised s s' := by
    have hp := h.priority_lt slot t hlt ht
    have hnewPrio : (if t.priority > 0 then t.priority - 1 else t.priority) < priorityLevels := by
      split <;> omega
    unfold boostForReason
    simp only [bind_eq_bind, taskAt_of_lt hlt, bind_some, ht]
    rw [if_neg (fun hc => hstate hc.1)]
    refine ⟨_, rfl, h.setTask hlt ?_ hnewPrio, Reprioritised.update _ ht (by rfl) _⟩
    rw [ht]
    exact readyLevel_congr rfl (fun hr => absurd hr hstate)
  cases reason with
  | spscRingEmpty producerSlot =>
    obtain ⟨s₁, hrun₁, hcons₁, hrep₁, -, -⟩ := boostPartner_spec h hreason
    obtain ⟨t₁, ht₁, hfix⟩ := hrep₁.exists_task ht
    have hstate₁ : t₁.state ≠ .ready := by rw [Task.state_eq_of_fixed hfix]; exact hstate
    have hsame : readyLevel (some { t₁ with priority := 0, ticksUsed := 0 })
        = readyLevel (s₁.tasks slot) := by
      rw [ht₁]
      exact readyLevel_congr rfl (fun hr => absurd hr hstate₁)
    refine ⟨_, ?_, hcons₁.setTask hlt hsame hp0,
      hrep₁.trans (Reprioritised.update _ ht₁ (by rfl) _)⟩
    rw [boostForReason, hrun₁]
    simp only [bind_eq_bind, bind_some, taskAt_of_lt hlt, ht₁]
    rfl
  | spscRingFull consumerSlot =>
    obtain ⟨s₁, hrun₁, hcons₁, hrep₁, -, -⟩ := boostPartner_spec h hreason
    exact ⟨s₁, hrun₁, hcons₁, hrep₁⟩
  | sleep | yield | waiting => exact ⟨s, rfl, h, Reprioritised.refl s⟩
  | mutexContention => exact hio
  | fileRead => exact hio

end

end BeastOs.Scheduler
