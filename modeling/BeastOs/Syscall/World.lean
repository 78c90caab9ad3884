import BeastOs.Lib.Simulation
import BeastOs.Memory.Vmm
import BeastOs.Scheduler.Mlfq
import BeastOs.Syscall.Files

/-!
# System calls and their locks

A system call of the current task runs on the state of the kernel (`World`). Two of the locks that
it takes are followed: `SCHEDULER` and the table of the task's open files. Neither of them is
reentrant. A call may not return: it spins on a lock that it holds, it waits for keys for ever, or
it panics (`Stop`).

`yield_now` and `block_current` let other tasks run, and their way there takes `SCHEDULER`. A call
that comes there with `SCHEDULER` held is stopped.

The code is written for any implementation of the locks (`Locks`); `checked` is what they are.
-/

namespace BeastOs.Syscall

open Lib

inductive Lock
  | scheduler
  | fds
  deriving DecidableEq, Repr

/-- Why a call does not return. -/
inductive Stop
  /-- it acquires a lock that it holds already -/
  | acquires (lock : Lock)
  /-- it comes to `yield_now` or `block_current` while it holds the lock -/
  | reschedules (lock : Lock)
  /-- it waits for a key -/
  | waits
  | panics
  deriving DecidableEq, Repr

structure World where
  /-- the locks that the call holds -/
  held : List Lock
  sched : Scheduler
  /-- the open files of the task in a slot -/
  fds : Scheduler.TaskId → List (Option File)
  machine : Machine
  devices : Devices
  /-- `KEYBOARD_BUFFER` -/
  keyboard : KeyboardBuffer
  /-- what interrupts and other tasks do to the keyboard buffer, before each of the times that the
  call is going to look at it -/
  changes : List (KeyboardBuffer → KeyboardBuffer)

abbrev Sys := EStateM Stop World

/-- What a call has returned. -/
def returned {α : Type} : EStateM.Result Stop World α → Option α
  | .ok a _ => some a
  | .error _ _ => none

/-- The state in which a call has returned or is stopped. -/
def ended {α : Type} : EStateM.Result Stop World α → World
  | .ok _ w => w
  | .error _ w => w

theorem eq_ok_of_returned {α : Type} {a : α} {r : EStateM.Result Stop World α}
    (h : returned r = some a) : r = .ok a (ended r) := by
  cases r with
  | ok a' w =>
    cases h
    rfl
  | error => cases h

/-! ## Locks -/

structure Locks where
  acquire : Lock → Sys Unit
  release : Lock → Sys Unit
  /-- where `yield_now` and `block_current` let other tasks run -/
  reschedule : Sys Unit

namespace Locks

def checked : Locks where
  acquire l := fun w =>
    if l ∈ w.held then .error (.acquires l) w else .ok () { w with held := l :: w.held }
  release l := modify fun w => { w with held := w.held.erase l }
  reschedule := fun w =>
    if .scheduler ∈ w.held then .error (.reschedules .scheduler) w else .ok () w

/-- A guard that lives as long as `body`. -/
def locked {α : Type} (k : Locks) (l : Lock) (body : Sys α) : Sys α := do
  k.acquire l
  let a ← body
  k.release l
  return a

end Locks

/-- The call holds these locks. -/
def World.holding (w : World) (held : List Lock) : World := { w with held }

@[simp] theorem World.holding_held (w : World) (held : List Lock) :
    (w.holding held).held = held := rfl

@[simp] theorem World.holding_sched (w : World) (held : List Lock) :
    (w.holding held).sched = w.sched := rfl

theorem World.holding_self (w : World) : w.holding w.held = w := rfl

theorem World.holding_nil {w : World} (hheld : w.held = []) : w.holding [] = w := hheld ▸ rfl

namespace Locks

variable {w w' : World} {l : Lock} {held : List Lock}

theorem acquire_checked (h : l ∉ held) :
    checked.acquire l (w.holding held) = .ok () (w.holding (l :: held)) := by
  show (if _ then _ else _) = _
  rw [World.holding_held, if_neg h]
  rfl

theorem acquire_held (h : l ∈ w.held) : checked.acquire l w = .error (.acquires l) w :=
  if_pos h

theorem release_checked : checked.release l (w.holding (l :: held)) = .ok () (w.holding held) := by
  show EStateM.Result.ok () (w.holding ((l :: held).erase l)) = _
  rw [List.erase_cons_head]

/-- A guard that is dropped when the body has returned. -/
theorem locked_checked {α : Type} {body : Sys α} {a : α} (h : l ∉ held)
    (hbody : body (w.holding (l :: held)) = .ok a (w'.holding (l :: held))) :
    checked.locked l body (w.holding held) = .ok a (w'.holding held) := by
  unfold locked
  rw [bind_of_ok (acquire_checked h), bind_of_ok hbody, bind_of_ok release_checked]
  rfl

end Locks

/-! ## Tasks -/

/-- `sched.current` and `sched.tasks[sched.current]` -/
def currentTask : Sys (Scheduler.TaskId × Option Scheduler.Task) := fun w =>
  match w.sched.taskAt w.sched.current with
  | none => .error .panics w
  | some task => .ok (w.sched.current, task) w

/-- The page table of the current task, or 0. -/
def userCr3 (k : Locks) : Sys U64 :=
  k.locked .scheduler do
    let (_, task) ← currentTask
    return (task.map (·.pageTable)).getD 0

/-- `current_slot` -/
def currentSlot (k : Locks) : Sys Scheduler.TaskId :=
  k.locked .scheduler (gets (·.sched.current))

/-- `block_current`. When the task goes on, it is running again. -/
def blockCurrent (k : Locks) : Sys Unit := do
  let _ ← k.locked .scheduler currentTask
  k.reschedule

/-! ## The keyboard -/

/-- What is in the keyboard buffer now. -/
def look : Sys KeyboardBuffer := fun w =>
  match w.changes with
  | [] => .ok w.keyboard w
  | change :: changes =>
    .ok (change w.keyboard) { w with keyboard := change w.keyboard, changes }

def popKeyboardChar : Sys (Option U8) := do
  match (← look).pop with
  | none => return none
  | some (ch, keyboard) =>
    modify fun w => { w with keyboard }
    return some ch

/-- As many keys as there are, but at most `n`. -/
def drain : (n : Nat) → Sys (List U8)
  | 0 => return []
  | n + 1 => do
    match ← popKeyboardChar with
    | none => return []
    | some ch => return ch :: (← drain n)

/-- `StdinFile::read` with a buffer of `len` bytes. A task whose buffer does not change any more
waits for ever. -/
def stdinRead (k : Locks) (len : Nat) : (turns : Nat) → Sys (List U8)
  | 0 => throw .waits
  | turns + 1 => do
    match ← popKeyboardChar with
    | some ch =>
      -- `buf[0]`
      if len = 0 then throw .panics
      else do
        let rest ← drain (len - 1)
        return ch :: rest
    | none =>
      k.reschedule
      stdinRead k len turns

/-- The times that the task can find something new in the buffer. -/
def World.turns (w : World) : Nat := w.changes.length + 1

def World.withDevices (w : World) (devices : Devices) : World := { w with devices }

/-- What is done with a file that does not wait; `none` is a panic. -/
def onDevices {α : Type} (f : Devices → Option (α × PlainFile × Devices)) : Sys (α × File) :=
  fun w => match f w.devices with
    | none => .error .panics w
    | some (result, file, devices) => .ok (result, .plain file) (w.withDevices devices)

/-- `File::read` -/
def readFile (k : Locks) (file : File) (len : Nat) : Sys (Except FsError (List U8) × File) :=
  match file with
  | .stdin => do
    let turns ← gets (·.turns)
    let bytes ← stdinRead k len turns
    return (.ok bytes, .stdin)
  | .plain file => onDevices fun d => file.read len d

/-- `File::write` -/
def writeFile (file : File) (data : List U8) : Sys (Except FsError Nat × File) :=
  match file with
  | .stdin => return (.error .permissionDenied, .stdin)
  | .plain file => onDevices fun d => file.write data d

/-- `File::seek` -/
def seekFile (file : File) (offset : U64) : Sys (Except FsError U64 × File) :=
  match file with
  | .stdin => return (.error .ioError, .stdin)
  | .plain file => do
    let (result, file) ← gets fun w => file.seek offset w.devices
    return (result, .plain file)

end BeastOs.Syscall
