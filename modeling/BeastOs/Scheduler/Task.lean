import BeastOs.Word

/-!
# Task control blocks

The records of `kernel/src/scheduler/task.rs` and the register frame of `kernel/src/arch/idt.rs`
that `reschedule` saves from. Fields of `Task` that no modelled function reads (`base_priority`,
`ticks`, `waiting_on`, `fds`, `latency_class`) are left out.

Creating a task allocates a kernel stack. What `pmm::alloc_contiguous` answered is an argument
here, so that statements about the scheduler hold whatever the allocator does.
-/

namespace BeastOs.Scheduler

/-- A task slot, or a task id: the source uses one type for both. -/
abbrev TaskId := Nat

/-- Maximum concurrent tasks. -/
def maxTasks : Nat := 64

/-- MLFQ priority levels (0 = highest, 5 = background). -/
def priorityLevels : Nat := 6

/-- Sentinel value: no task selected (`usize::MAX`). -/
def noTask : TaskId := 2 ^ 64 - 1

/-- Bytes of a kernel stack: 32 pages of 4 KiB. -/
def taskStackSize : Nat := 32 * 4096

/-- Task lifecycle states. -/
inductive TaskState where
  | ready
  | running
  | blocked
  | dead
  deriving DecidableEq, Repr

/-- Why a task blocked. -/
inductive BlockReason where
  | spscRingEmpty (producerSlot : TaskId)
  | spscRingFull (consumerSlot : TaskId)
  | mutexContention
  | sleep
  | fileRead
  | yield
  | waiting
  deriving DecidableEq, Repr

/-- Saved CPU context. -/
structure Context where
  (rax rbx rcx rdx rbp rsi rdi r8 r9 r10 r11 r12 r13 r14 r15 : U64)
  (rip cs rflags rsp ss : U64)
  deriving DecidableEq, Repr, Inhabited

/-- All registers saved by the interrupt stubs. -/
structure AllRegisters where
  (rax rbx rcx rdx rbp rsi rdi r8 r9 r10 r11 r12 r13 r14 r15 : U64)
  errorCode : U64
  (rip cs rflags rsp ss : U64)
  deriving DecidableEq, Repr, Inhabited

/-- Addresses fixed at boot: the direct map's offset and the two entry stubs. -/
structure Platform where
  hhdmOffset : U64
  taskStartTrampoline : U64
  userEntryTrampoline : U64
  deriving DecidableEq, Repr

/-- Task Control Block. -/
structure Task where
  id : TaskId
  state : TaskState
  priority : Nat
  ticksUsed : Nat
  context : Context
  pageTable : U64
  kernelStackTop : U64
  stackPhys : U64
  stackVirt : U64
  userEntry : U64
  userStackTop : U64
  name : List UInt8
  awakePending : Bool
  cwd : String
  brk : U64
  deriving DecidableEq, Repr

namespace Task

/-- The part of a name a task keeps: its first 32 bytes. -/
def nameBuf (nameStr : String) : List UInt8 := nameStr.toUTF8.toList.take 32

/-- A kernel task that starts in `entry`. `phys` is the answer of the stack allocation. -/
def newWithArgs (pf : Platform) (phys : Option U64) (id : TaskId) (entry arg1 arg2 : U64)
    (nameStr : String) (priority : Nat) (pageTable : U64) : Option Task := do
  let phys ← phys
  let virt := phys + pf.hhdmOffset
  let stackTop := virt + BitVec.ofNat 64 taskStackSize
  -- a dummy return address sits on top of the new stack
  let rsp := stackTop - 8
  return {
    id, state := .ready, priority, ticksUsed := 0
    context := {
      rax := 0, rbx := 0, rcx := 0, rdx := 0, rbp := 0, rsi := 0, rdi := 0, r8 := 0
      r9 := 0, r10 := 0, r11 := 0, r12 := entry, r13 := arg1, r14 := arg2, r15 := 0
      rip := pf.taskStartTrampoline, cs := 0x08, rflags := 0x202, rsp, ss := 0x10 }
    pageTable, kernelStackTop := stackTop, stackPhys := phys, stackVirt := virt
    userEntry := arg1, userStackTop := arg2, name := nameBuf nameStr
    awakePending := false, cwd := "/", brk := 0 }

/-- A kernel task whose entry takes no arguments. -/
def new (pf : Platform) (phys : Option U64) (id : TaskId) (entry : U64) (nameStr : String)
    (priority : Nat) (pageTable : U64) : Option Task :=
  newWithArgs pf phys id entry 0 0 nameStr priority pageTable

/-- Where a user task's heap starts. -/
def heapStart : U64 := 0x0000200000000000

/-- A user task that starts in `entry` on its own stack. -/
def newUser (pf : Platform) (phys : Option U64) (id : TaskId) (entry userStackTop : U64)
    (nameStr : String) (priority : Nat) (pageTableCr3 : U64) : Option Task := do
  let kernelStackPhys ← phys
  let kernelStackVirt := kernelStackPhys + pf.hhdmOffset
  let kernelStackTop := kernelStackVirt + BitVec.ofNat 64 taskStackSize
  return {
    id, state := .ready, priority, ticksUsed := 0
    context := {
      rax := 0, rbx := 0, rcx := 0, rdx := 0, rbp := 0, rsi := 0, rdi := 0, r8 := 0
      r9 := 0, r10 := 0, r11 := 0, r12 := userStackTop, r13 := entry, r14 := 0, r15 := 0
      rip := pf.userEntryTrampoline, cs := 0x23, rflags := 0x202, rsp := userStackTop
      ss := 0x1b }
    pageTable := pageTableCr3, kernelStackTop, stackPhys := kernelStackPhys
    stackVirt := kernelStackVirt, userEntry := entry, userStackTop, name := nameBuf nameStr
    awakePending := false, cwd := "/", brk := heapStart }

/-! ### What a fresh task looks like to the scheduler -/

/-- A task that has just been created: ready, with a whole quantum. -/
structure Fresh (id : TaskId) (priority : Nat) (t : Task) : Prop where
  id_eq : t.id = id
  ready : t.state = .ready
  priority_eq : t.priority = priority
  ticksUsed_eq : t.ticksUsed = 0

section

variable {pf : Platform} {phys : Option U64} {id : TaskId} {entry userStackTop : U64}
  {nameStr : String} {priority : Nat} {pageTable : U64} {t : Task}

section

variable (h : newUser pf phys id entry userStackTop nameStr priority pageTable = some t)
include h

theorem newUser_fresh : t.Fresh id priority := by
  obtain ⟨p, -, h⟩ := Option.bind_eq_some_iff.mp h
  cases h
  exact ⟨rfl, rfl, rfl, rfl⟩

/-- A user task has an empty heap and starts at the root. -/
theorem newUser_eq_some : t.pageTable = pageTable ∧ t.brk = heapStart ∧ t.cwd = "/" := by
  obtain ⟨p, -, h⟩ := Option.bind_eq_some_iff.mp h
  cases h
  exact ⟨rfl, rfl, rfl⟩

end

end

end Task

end BeastOs.Scheduler
