import BeastOs.Lib.CircularBuffer
import BeastOs.Scheduler.Task

/-!
# The run queue of one priority level

`TaskQueue` of `kernel/src/scheduler/mlfq.rs`: a circular buffer of 64 task slots. Every operation
comes with its effect on `toList`, the queued slots in order, which is all the scheduler's proofs
use of it.

Main result: `mapM_run_eq_onList`, for sequences of operations.
-/

namespace BeastOs

open List Lib Scheduler

/-- Ring buffer of task slots for one priority level.

`lost` is a ghost: it counts the pushes that found the buffer full and were dropped. Nothing reads
it but statements about the queue. -/
structure TaskQueue where
  ring : CircularBuffer TaskId maxTasks
  lost : Nat

namespace TaskQueue

def new : TaskQueue := ⟨CircularBuffer.empty noTask (by decide), 0⟩

/-- The queued slots, next one first. -/
def toList (q : TaskQueue) : List TaskId := q.ring.toList

def len (q : TaskQueue) : Nat := q.ring.len

/-- What a push adds to the ghost count. -/
def dropped (q : TaskQueue) : Nat := if q.len ≥ maxTasks then 1 else 0

def pushBack (q : TaskQueue) (id : TaskId) : TaskQueue :=
  ⟨q.ring.pushBack id, q.lost + q.dropped⟩

def pushFront (q : TaskQueue) (id : TaskId) : TaskQueue :=
  ⟨q.ring.pushFront id, q.lost + q.dropped⟩

def popFront (q : TaskQueue) : Option (TaskId × TaskQueue) :=
  q.ring.popFront.map fun p => (p.1, ⟨p.2, q.lost⟩)

/-- The loop of `remove`: move everything but `id` from `q` to `new`. -/
def removeLoop (id : TaskId) : Nat → TaskQueue → TaskQueue → TaskQueue
  | 0, _, new => new
  | n + 1, q, new =>
    match q.popFront with
    | none => new
    | some (tid, q) => removeLoop id n q (if tid ≠ id then new.pushBack tid else new)

/-- Remove a specific task slot. -/
def remove (q : TaskQueue) (id : TaskId) : TaskQueue :=
  let new := removeLoop id q.len q TaskQueue.new
  ⟨new.ring, q.lost + new.lost⟩

/-! ### Effect on the queued slots -/

variable {q : TaskQueue} {id : TaskId}

@[simp] theorem toList_new : TaskQueue.new.toList = [] := rfl

@[simp] theorem lost_new : TaskQueue.new.lost = 0 := rfl

theorem length_toList (q : TaskQueue) : q.toList.length = q.len := q.ring.length_toList

section

variable (h : q.toList.length < maxTasks)
include h

theorem dropped_eq_zero : q.dropped = 0 := by
  rw [length_toList] at h
  exact if_neg (by omega)

theorem toList_pushBack : (q.pushBack id).toList = q.toList ++ [id] := by
  rw [length_toList] at h
  exact CircularBuffer.toList_pushBack id h

theorem lost_pushBack : (q.pushBack id).lost = q.lost := by
  show q.lost + q.dropped = q.lost
  rw [dropped_eq_zero h, add_zero]

theorem toList_pushFront : (q.pushFront id).toList = id :: q.toList := by
  rw [length_toList] at h
  exact CircularBuffer.toList_pushFront id h

theorem lost_pushFront : (q.pushFront id).lost = q.lost := by
  show q.lost + q.dropped = q.lost
  rw [dropped_eq_zero h, add_zero]

theorem perm_pushBack : (q.pushBack id).toList.Perm (id :: q.toList) := by
  rw [toList_pushBack h]
  exact perm_append_singleton id q.toList

theorem perm_pushFront : (q.pushFront id).toList.Perm (id :: q.toList) := by
  rw [toList_pushFront h]

end

/-- A full queue stays as it is. -/
theorem toList_pushBack_eq (q : TaskQueue) (id : TaskId) :
    (q.pushBack id).toList = if q.toList.length < maxTasks then q.toList ++ [id] else q.toList := by
  split
  next hroom => exact toList_pushBack hroom
  next hfull =>
    rw [length_toList] at hfull
    rw [toList, pushBack, CircularBuffer.pushBack_full id hfull, toList]

theorem toList_pushFront_eq (q : TaskQueue) (id : TaskId) :
    (q.pushFront id).toList = if q.toList.length < maxTasks then id :: q.toList else q.toList := by
  split
  next hroom => exact toList_pushFront hroom
  next hfull =>
    rw [length_toList] at hfull
    rw [toList, pushFront, CircularBuffer.pushFront_full id hfull, toList]

/-- A push adds nothing but its slot, and not even that if the queue is full. -/
theorem mem_pushBack {j : TaskId} (h : j ∈ (q.pushBack id).toList) : j ∈ q.toList ∨ j = id := by
  rw [toList_pushBack_eq] at h
  split at h
  · rwa [mem_append, mem_singleton] at h
  · exact .inl h

theorem mem_pushFront {j : TaskId} (h : j ∈ (q.pushFront id).toList) : j ∈ q.toList ∨ j = id := by
  rw [toList_pushFront_eq] at h
  split at h
  · exact (mem_cons.mp h).symm
  · exact .inl h

theorem popFront_eq_none (h : q.toList = []) : q.popFront = none := by
  unfold popFront
  rw [CircularBuffer.popFront_eq_none h]
  rfl

theorem popFront_eq_some {ids : List TaskId} (h : q.toList = id :: ids) :
    ∃ q', q.popFront = some (id, q') ∧ q'.toList = ids ∧ q'.lost = q.lost := by
  obtain ⟨ring, hpop, hlist⟩ := CircularBuffer.popFront_eq_some h
  refine ⟨⟨ring, q.lost⟩, ?_, hlist, rfl⟩
  unfold popFront
  rw [hpop]
  rfl

theorem toList_of_popFront {q' : TaskQueue} (h : q.popFront = some (id, q')) :
    q.toList = id :: q'.toList := by
  cases hq : q.toList with
  | nil =>
    rw [popFront_eq_none hq] at h
    cases h
  | cons j ids =>
    obtain ⟨q₁, hpop, hids, -⟩ := popFront_eq_some hq
    rw [hpop] at h
    cases h
    rw [hids]

/-- The loop of `remove` drops nothing: what it has moved and what it has still to move together
fit the buffer. -/
theorem removeLoop_spec (id : TaskId) (ids : List TaskId) :
    ∀ (q new : TaskQueue), q.toList = ids → new.toList.length + ids.length ≤ maxTasks →
      (removeLoop id ids.length q new).toList = new.toList ++ ids.filter (· ≠ id) ∧
      (removeLoop id ids.length q new).lost = new.lost := by
  induction ids with
  | nil =>
    intro q new _ _
    simp [removeLoop]
  | cons tid ids ih =>
    intro q new hq hlen
    simp only [length_cons] at hlen
    obtain ⟨q', hpop, hq', -⟩ := popFront_eq_some hq
    have hroom : new.toList.length < maxTasks := by omega
    simp only [length_cons, removeLoop, hpop]
    by_cases hid : tid = id
    · obtain ⟨hlist, hlost⟩ := ih q' new hq' (by omega)
      simp only [hid, ne_eq, not_true_eq_false, if_false, decide_false, Bool.false_eq_true,
        not_false_eq_true, filter_cons_of_neg]
      exact ⟨hlist, hlost⟩
    · have hnew : (new.pushBack tid).toList = new.toList ++ [tid] := toList_pushBack hroom
      obtain ⟨hlist, hlost⟩ := ih q' (new.pushBack tid) hq' (by
        rw [hnew, length_append, length_singleton]; omega)
      simp only [hid, ne_eq, not_false_eq_true, if_true, decide_true, filter_cons_of_pos]
      refine ⟨?_, hlost.trans (lost_pushBack hroom)⟩
      rw [hlist, hnew, append_assoc]
      rfl

theorem toList_remove (q : TaskQueue) (id : TaskId) :
    (q.remove id).toList = q.toList.filter (· ≠ id) := by
  have hspec := removeLoop_spec id q.toList q TaskQueue.new rfl (by
    simp only [toList_new, length_nil, zero_add, length_toList]
    exact q.ring.len_le)
  rw [length_toList] at hspec
  exact hspec.1

theorem lost_remove (q : TaskQueue) (id : TaskId) : (q.remove id).lost = q.lost := by
  have hspec := removeLoop_spec id q.toList q TaskQueue.new rfl (by
    simp only [toList_new, length_nil, zero_add, length_toList]
    exact q.ring.len_le)
  rw [length_toList] at hspec
  show q.lost + (removeLoop id q.len q TaskQueue.new).lost = q.lost
  rw [hspec.2, lost_new, add_zero]

/-- Removing a slot that is queued once leaves the others in their order. -/
theorem perm_cons_remove (hnd : q.toList.Nodup) (hid : id ∈ q.toList) :
    q.toList.Perm (id :: (q.remove id).toList) := by
  have hfilter : q.toList.filter (· ≠ id) = q.toList.erase id := by
    rw [hnd.erase_eq_filter id]
    apply filter_congr
    intro x _
    exact Bool.eq_iff_iff.mpr (by rw [decide_eq_true_iff, bne_iff_ne])
  rw [toList_remove, hfilter]
  exact perm_cons_erase hid

/-! ### Against a list -/

inductive Op
  | pushBack (id : TaskId)
  | pushFront (id : TaskId)
  | popFront
  | remove (id : TaskId)

/-- The result is what `pop_front` returns. -/
def Op.run : Op → StateM TaskQueue (Option TaskId)
  | pushBack id, q => (none, q.pushBack id)
  | pushFront id, q => (none, q.pushFront id)
  | popFront, q =>
    match q.popFront with
    | none => (none, q)
    | some (id, q) => (some id, q)
  | remove id, q => (none, q.remove id)

/-- The same on a list with at most 64 elements. -/
def Op.onList : Op → StateM (List TaskId) (Option TaskId)
  | pushBack id, l => (none, if l.length < maxTasks then l ++ [id] else l)
  | pushFront id, l => (none, if l.length < maxTasks then id :: l else l)
  | popFront, l => (l.head?, l.tail)
  | remove id, l => (none, l.filter (· ≠ id))

theorem Op.onList_eq (op : Op) (q : TaskQueue) :
    op.onList q.toList = ((op.run q).1, (op.run q).2.toList) := by
  cases op with
  | pushBack id => simp [onList, run, toList_pushBack_eq]
  | pushFront id => simp [onList, run, toList_pushFront_eq]
  | remove id => simp [onList, run, toList_remove]
  | popFront =>
    cases hq : q.toList with
    | nil => simp [onList, run, popFront_eq_none hq, hq]
    | cons id ids =>
      obtain ⟨q', hpop, hids, -⟩ := popFront_eq_some hq
      simp [onList, run, hpop, hids]

/-- **The queue is a bounded deque**: every run returns what the run on lists returns and ends with
its list. -/
theorem mapM_run_eq_onList (ops : List Op) :
    let (results, q) := ops.mapM Op.run new
    ops.mapM Op.onList [] = (results, q.toList) ∧
      q.ring.tail = (q.ring.head + q.ring.len) % maxTasks := by
  have hruns : ∀ q : TaskQueue, ops.mapM Op.onList q.toList =
      ((ops.mapM Op.run q).1, (ops.mapM Op.run q).2.toList) := by
    induction ops with
    | nil => exact fun _ => rfl
    | cons op ops ih =>
      intro q
      simp only [mapM_cons, bind, StateT.bind, Op.onList_eq, ih]
      rfl
  exact ⟨hruns new, CircularBuffer.tail_eq _⟩

end TaskQueue

end BeastOs
