import BeastOs.Scheduler.TaskQueue

/-!
# The multilevel feedback queue

`kernel/src/scheduler/mlfq.rs`, function by function. An array `[T; n]` of the source is a function
on indices here; indexing it at or beyond `n` is a panic, and a function that can panic answers
`none` then. A `while let Some(x) = queue.pop_front()` loop runs once per queued element, so its
model recurses on the length the queue had when the loop began.
-/

namespace BeastOs

namespace Scheduler

/-- Time quanta per level, in timer ticks. -/
def quanta : List Nat := [1, 2, 4, 8, 16, 32]

/-- All tasks are boosted to level 0 every this many ticks. -/
def boostInterval : Nat := 500

end Scheduler

open Scheduler

/-! ## The scheduler -/

/-- Core MLFQ scheduler state. -/
structure Scheduler where
  /-- `[Option<Task>; MAX_TASKS]` -/
  tasks : Nat → Option Task
  /-- `[TaskQueue; PRIORITY_LEVELS]` -/
  queues : Nat → TaskQueue
  /-- The running task's slot, `noTask` before the scheduler runs. -/
  current : TaskId
  tickCount : Nat
  boostCountdown : Nat
  nextId : Nat

namespace Scheduler

def new : Scheduler where
  tasks := fun _ => none
  queues := fun _ => TaskQueue.new
  current := noTask
  tickCount := 0
  boostCountdown := boostInterval
  nextId := 0

/-- `self.tasks[slot]`. -/
def taskAt (s : Scheduler) (slot : TaskId) : Option (Option Task) :=
  if slot < maxTasks then some (s.tasks slot) else none

/-- `self.tasks[slot] = Some(t)`, for a slot already known to be in range. -/
def setTask (s : Scheduler) (slot : TaskId) (t : Task) : Scheduler :=
  { s with tasks := Function.update s.tasks slot (some t) }

/-- The queue of a level replaced, for a level already known to be in range. -/
def setQueue (s : Scheduler) (level : Nat) (q : TaskQueue) : Scheduler :=
  { s with queues := Function.update s.queues level q }

/-- An operation on `self.queues[level]`. -/
def onQueue (s : Scheduler) (level : Nat) (f : TaskQueue → TaskQueue) : Option Scheduler :=
  if level < priorityLevels then some (s.setQueue level (f (s.queues level))) else none

def findFreeSlot (s : Scheduler) : Option TaskId :=
  (List.range maxTasks).find? fun slot => (s.tasks slot).isNone

/-- Spawn a kernel task. `phys` is the answer of its stack allocation, `cr3` the page table in
use. -/
def spawn (s : Scheduler) (pf : Platform) (phys : Option U64) (cr3 entry : U64) (name : String)
    (priority : Nat) : Option (Scheduler × Option TaskId) :=
  match s.findFreeSlot with
  | none => some (s, none)
  | some slot =>
    let id := s.nextId
    let s := { s with nextId := s.nextId + 1 }
    let prio := min priority (priorityLevels - 1)
    match Task.new pf phys id entry name prio (cr3 &&& ~~~0xFFF) with
    | none => some (s, none)
    | some task => ((s.setTask slot task).onQueue prio (·.pushBack slot)).map (·, some slot)

/-- Mark a task as dead and remove it from its queue. -/
def kill (s : Scheduler) (slot : TaskId) : Option Scheduler := do
  match ← s.taskAt slot with
  | none => return s
  | some task =>
    (s.setTask slot { task with state := .dead }).onQueue task.priority (·.remove slot)

/-- Drain the queue of one level into level 0. -/
def boostLevel (level : Nat) : Nat → Scheduler → Option Scheduler
  | 0, s => some s
  | n + 1, s =>
    match (s.queues level).popFront with
    | none => some s
    | some (slot, q) => do
      let s := s.setQueue level q
      let s ← match ← s.taskAt slot with
        | none => some s
        | some task => some (s.setTask slot { task with priority := 0, ticksUsed := 0 })
      let s ← s.onQueue 0 (·.pushBack slot)
      boostLevel level n s

/-- Simple one-level promotion. -/
def promote (s : Scheduler) (slot : TaskId) : Option Scheduler := do
  match ← s.taskAt slot with
  | none => return s
  | some task =>
    return s.setTask slot
      { task with
        ticksUsed := 0
        priority := if task.priority > 0 then task.priority - 1 else task.priority }

/-- Anti-starvation: move all ready tasks to level 0. -/
def boostAll (s : Scheduler) : Option Scheduler :=
  (List.range' 1 (priorityLevels - 1)).foldlM
    (fun s level => boostLevel level (s.queues level).len s) s

/-- Demote the current task one level. -/
def demoteCurrent (s : Scheduler) : Option Scheduler := do
  match ← s.taskAt s.current with
  | none => return s
  | some task =>
    return s.setTask s.current
      { task with
        ticksUsed := 0
        priority := if task.priority < priorityLevels - 1 then task.priority + 1
          else task.priority }

/-- The boost countdown of `tick`. -/
def countdown (s : Scheduler) : Option Scheduler := do
  let s := { s with tickCount := s.tickCount + 1, boostCountdown := s.boostCountdown - 1 }
  if s.boostCountdown = 0 then
    let s ← s.boostAll
    return { s with boostCountdown := boostInterval }
  else return s

/-- Called on every timer tick. Answers whether the current task's quantum expired. -/
def tick (s : Scheduler) : Option (Scheduler × Bool) := do
  let s ← s.countdown
  if s.current = noTask then return (s, false)
  match ← s.taskAt s.current with
  | none => return (s, false)
  | some task =>
    let task := { task with ticksUsed := task.ticksUsed + 1 }
    let quantum ← quanta[task.priority]?
    let s := s.setTask s.current task
    if task.ticksUsed ≥ quantum then
      let s ← s.demoteCurrent
      return (s, true)
    else return (s, false)

/-- Pop one level until a ready task turns up; stale entries are dropped. -/
def pickLevel (level : Nat) : Nat → Scheduler → Option (Scheduler × Option TaskId)
  | 0, s => some (s, none)
  | n + 1, s =>
    match (s.queues level).popFront with
    | none => some (s, none)
    | some (slot, q) => do
      let s := s.setQueue level q
      match ← s.taskAt slot with
      | none => pickLevel level n s
      | some task => if task.state = .ready then return (s, some slot) else pickLevel level n s

/-- `pickLevel` over the given levels in order. -/
def pickFrom : List Nat → Scheduler → Option (Scheduler × TaskId)
  | [], s => some (s, noTask)
  | level :: levels, s => do
    match ← pickLevel level (s.queues level).len s with
    | (s, some slot) => return (s, slot)
    | (s, none) => pickFrom levels s

/-- Pick the highest-priority ready task, or `noTask` if nothing is runnable. -/
def pickNext (s : Scheduler) : Option (Scheduler × TaskId) :=
  pickFrom (List.range priorityLevels) s

/-- Raise the task at the other end of a ring to level 0. A ready task also moves, to the front of
the level-0 queue. -/
def boostPartner (s : Scheduler) (partner : TaskId) : Option Scheduler := do
  match ← s.taskAt partner with
  | none => return s
  | some t =>
    let oldPrio := t.priority
    let s := s.setTask partner { t with priority := 0, ticksUsed := 0 }
    if t.state = .ready ∧ oldPrio ≠ 0 then
      let s ← s.onQueue oldPrio (·.remove partner)
      s.onQueue 0 (·.pushFront partner)
    else return s

/-- Priority boosting by the reason the task in `slot` blocks for. -/
def boostForReason (s : Scheduler) (slot : TaskId) (reason : BlockReason) : Option Scheduler :=
  match reason with
  | .spscRingEmpty producerSlot => do
    let s ← s.boostPartner producerSlot
    match ← s.taskAt slot with
    | none => return s
    | some t => return s.setTask slot { t with priority := 0, ticksUsed := 0 }
  | .spscRingFull consumerSlot => s.boostPartner consumerSlot
  | .fileRead | .mutexContention => do
    match ← s.taskAt slot with
    | none => return s
    | some t =>
      let oldPrio := t.priority
      let newPrio := if t.priority > 0 then t.priority - 1 else t.priority
      let s := s.setTask slot { t with ticksUsed := 0, priority := newPrio }
      if t.state = .ready ∧ oldPrio ≠ newPrio then
        let s ← s.onQueue oldPrio (·.remove slot)
        s.onQueue newPrio (·.pushBack slot)
      else return s
  | .sleep | .yield | .waiting => some s

end Scheduler

end BeastOs
