import BeastOs.Scheduler.Mlfq

/-!
# Scheduler entry points

The functions of `kernel/src/scheduler/mod.rs`: blocking, waking, exiting, spawning and replacing
user tasks, and the context switch. The part of a context switch written in assembly (loading `CR3`
and the registers, `iretq`) is what `Dispatch` records: the context and the address space the CPU
continues with. A function that returns to its caller without switching answers `none` there.
-/

namespace BeastOs.Scheduler

/-- What a context switch loads into the CPU. -/
structure Dispatch where
  slot : TaskId
  context : Context
  cr3 : U64
  kernelStackTop : U64
  deriving DecidableEq, Repr

/-- Start the scheduler. Panics when there is no task to run. -/
def run (s : Scheduler) : Option (Scheduler × Dispatch) := do
  let (s, slot) ← s.pickNext
  if slot = noTask then failure
  let task ← (← s.taskAt slot)
  let s := { s with current := slot }
  let s := s.setTask slot { task with state := .running }
  return (s, { slot, context := task.context, cr3 := task.pageTable
               kernelStackTop := task.stackVirt + BitVec.ofNat 64 taskStackSize })

/-- The first half of `block_current`: the state change, up to the software interrupt that
reschedules. -/
def blockCurrent (s : Scheduler) (reason : BlockReason) : Option Scheduler := do
  let slot := s.current
  match ← s.taskAt slot with
  | none => return s
  | some task => (s.setTask slot { task with state := .blocked }).boostForReason slot reason

/-- The slot `wake_task` finds: the first one whose task has this id. -/
def findTask (s : Scheduler) (taskId : TaskId) : Option TaskId :=
  (List.range maxTasks).find? fun slot => (s.tasks slot).any (·.id = taskId)

def wakeTask (s : Scheduler) (taskId : TaskId) : Option Scheduler :=
  match s.findTask taskId with
  | none => some s
  | some slot => do
    let task ← (← s.taskAt slot)
    if task.state = .blocked then
      (s.setTask slot { task with state := .ready }).onQueue task.priority (·.pushBack slot)
    else return s.setTask slot { task with awakePending := true }

/-- The first half of `exit_current`, up to the software interrupt. -/
def exitCurrent (s : Scheduler) : Option Scheduler := s.kill s.current

def spawnUserWithPageTableAndTrampoline (s : Scheduler) (pf : Platform) (phys : Option U64)
    (entry userStackTop : U64) (name : String) (priority : Nat) (pageTable trampoline : U64) :
    Option (Scheduler × Option TaskId) :=
  match s.findFreeSlot with
  | none => some (s, none)
  | some slot =>
    let id := s.nextId
    let s := { s with nextId := s.nextId + 1 }
    match Task.newUser pf phys id entry userStackTop name priority pageTable with
    | none => some (s, none)
    | some task =>
      let task := if trampoline ≠ 0 then
          { task with context := { task.context with rip := trampoline } } else task
      ((s.setTask slot task).onQueue priority (·.pushBack slot)).map (·, some id)

/-- `exec`: replace the running task by a fresh one under the same id. Panics when the new kernel
stack cannot be allocated. -/
def replaceCurrentTask (s : Scheduler) (pf : Platform) (phys : Option U64)
    (entry userStackTop : U64) (name : String) (pageTable argc argv : U64) :
    Option (Scheduler × Dispatch) := do
  let oldTask ← (← s.taskAt s.current)
  let newTask ← Task.newUser pf phys oldTask.id entry userStackTop name 1 pageTable
  let newTask := { newTask with
    cwd := oldTask.cwd, state := .running
    context := { newTask.context with r14 := argc, r15 := argv } }
  let slot := s.current
  return (s.setTask slot newTask,
    { slot, context := newTask.context, cr3 := pageTable
      kernelStackTop := newTask.kernelStackTop })

/-- The context saved for a task that was interrupted with `regs` on the stack at `framePtr`. -/
def saveContext (regs : AllRegisters) (framePtr : U64) : Context where
  rax := regs.rax
  rbx := regs.rbx
  rcx := regs.rcx
  rdx := regs.rdx
  rbp := regs.rbp
  rsi := regs.rsi
  rdi := regs.rdi
  r8 := regs.r8
  r9 := regs.r9
  r10 := regs.r10
  r11 := regs.r11
  r12 := regs.r12
  r13 := regs.r13
  r14 := regs.r14
  r15 := regs.r15
  rip := regs.rip
  cs := regs.cs
  rflags := regs.rflags
  -- from kernel mode the CPU pushes neither SS nor RSP: the stack pointer is computed
  rsp := if regs.cs &&& 3 = 0 then framePtr + 152 else regs.rsp
  ss := if regs.cs &&& 3 = 0 then 0x10 else regs.ss

/-- The first half of `reschedule`: save the old task and put it back if it was running. -/
def requeueOld (s : Scheduler) (regs : AllRegisters) (framePtr : U64) : Option Scheduler := do
  let oldSlot := s.current
  match ← s.taskAt oldSlot with
  | none => return s
  | some task =>
    let context := saveContext regs framePtr
    if task.state = .running then
      (s.setTask oldSlot { task with state := .ready, context }).onQueue task.priority
        (·.pushBack oldSlot)
    else return s.setTask oldSlot { task with context }

/-- The second half of `reschedule`: pick a task and switch to it, or resume the old one. -/
def switchTo (s : Scheduler) (oldSlot : TaskId) : Option (Scheduler × Option Dispatch) := do
  let (s, newSlot) ← s.pickNext
  if newSlot = noTask ∨ newSlot = oldSlot then
    match ← s.taskAt oldSlot with
    | none => return (s, none)
    | some t => return (s.setTask oldSlot { t with state := .running }, none)
  else
    let s := { s with current := newSlot }
    let task ← (← s.taskAt newSlot)
    let task := { task with state := .running }
    return (s.setTask newSlot task,
      some { slot := newSlot, context := task.context, cr3 := task.pageTable
             kernelStackTop := task.kernelStackTop })

def reschedule (s : Scheduler) (regs : AllRegisters) (framePtr : U64) :
    Option (Scheduler × Option Dispatch) := do
  let oldSlot := s.current
  let s ← s.requeueOld regs framePtr
  s.switchTo oldSlot

/-- The timer interrupt: a tick, and a context switch when it asks for one. -/
def timerTick (s : Scheduler) (regs : AllRegisters) (framePtr : U64) :
    Option (Scheduler × Option Dispatch) := do
  let (s, expired) ← s.tick
  if expired then s.reschedule regs framePtr else return (s, none)

end BeastOs.Scheduler
