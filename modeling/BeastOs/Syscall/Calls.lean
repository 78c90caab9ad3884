import BeastOs.Fs.Token
import BeastOs.Lib.Text
import BeastOs.Syscall.Brk

/-!
# Calls for files

`sys_read`, `sys_write`, `sys_open`, `sys_close` and `sys_lseek` of `kernel/src/syscall/mod.rs`. The
mounted file systems and the user's memory are parameters (`Env`).
-/

namespace BeastOs.Syscall

open Lib

structure Env where
  vfs : Mounts.Vfs Devices File
  /-- a byte of the memory that a page table shows -/
  loadUser : Machine → (cr3 addr : U64) → U8
  storeUser : (cr3 addr : U64) → List U8 → Machine → Machine

def onMemory (f : Machine → Machine) : Sys Unit :=
  modify fun w => w.withMachine (f w.machine)

/-! ## Open files -/

/-- The current task's open files. `SCHEDULER` and the table are held while `body` runs. -/
def withFds {α : Type} (k : Locks) (noTask : α) (body : Scheduler.TaskId → Sys α) : Sys α :=
  k.locked .scheduler do
    let (slot, task) ← currentTask
    match task with
    | none => return noTask
    | some _ => k.locked .fds (body slot)

def World.setFds (w : World) (slot : Scheduler.TaskId) (fds : List (Option File)) : World :=
  { w with fds := Function.update w.fds slot fds }

/-- `if let Some(ref mut file) = fds[fd as usize]`, else `EBADF` -/
def withFile (k : Locks) (fd : U64) (body : File → Sys (U64 × File)) : Sys U64 :=
  withFds k (-9) fun slot => do
    let fds ← gets (·.fds slot)
    match fds[fd.toNat]?.join with
    | none => return -9
    | some file =>
      let (result, file) ← body file
      modify (·.setFds slot (fds.set fd.toNat (some file)))
      return result

/-- What was read goes to memory, and its length is the result. -/
def storeRead (store : List U8 → Machine → Machine) (out : Except FsError (List U8) × File) :
    Sys (U64 × File) :=
  match out with
  | (.error _, file) => return (-1, file)
  | (.ok bytes, file) => do
    onMemory (store bytes)
    return (BitVec.ofNat 64 bytes.length, file)

/-- What `sys_read` does with a file. -/
def readOpenFile (k : Locks) (fd : U64) (len : Nat) (store : List U8 → Machine → Machine) :
    Sys U64 :=
  withFile k fd fun file => readFile k file len >>= storeRead store

/-- The loop of `sys_read` on descriptor 0. -/
def readKeyboard (env : Env) (k : Locks) (cr3 buf count : U64) : (turns : Nat) → Sys U64
  | 0 => throw .waits
  | turns + 1 => do
    let keys ← look
    if keys.isEmpty then
      -- once for the message, and once for `KEYBOARD_WAITING_TASK`
      let _ ← currentSlot k
      let _ ← currentSlot k
      blockCurrent k
      readKeyboard env k cr3 buf count turns
    else
      let toCopy := min count.toNat keys.len
      let (bytes, keyboard) := keys.popMany toCopy
      modify fun w => { w with keyboard }
      onMemory (env.storeUser cr3 buf bytes)
      return BitVec.ofNat 64 toCopy

def sysRead (env : Env) (k : Locks) (fd buf count : U64) : Sys U64 :=
  if buf = 0 ∨ count = 0 then return -22
  else do
    let cr3 ← userCr3 k
    if cr3 = 0 then return -1
    else if fd = 0 then
      let turns ← gets (·.turns)
      readKeyboard env k cr3 buf count turns
    else readOpenFile k fd count.toNat (env.storeUser cr3 buf)

/-- `read_user_buf`, in user space only -/
def readUserBuf (env : Env) (σ : Machine) (cr3 buf count : U64) : Option (List U8) :=
  if buf + count > 0x0000800000000000 then none
  else some ((List.range count.toNat).map fun i => env.loadUser σ cr3 (buf + BitVec.ofNat 64 i))

def sysWrite (env : Env) (k : Locks) (fd buf count : U64) : Sys U64 :=
  if buf = 0 ∨ count = 0 then return -22
  else do
    let cr3 ← userCr3 k
    if cr3 = 0 then return -1
    else
      let data ← gets fun w => readUserBuf env w.machine cr3 buf count
      match data with
      | none => return -22
      | some data =>
        if fd = 1 ∨ fd = 2 then
          match fromUtf8 data with
          | none => return -22
          | some _ =>
            modify fun w => { w with
              devices := { w.devices with serialOut := w.devices.serialOut ++ data } }
            return count
        else withFile k fd fun file => do
          let (result, file) ← writeFile file data
          match result with
          | .ok n => return (BitVec.ofNat 64 n, file)
          | .error _ => return (-1, file)

/-- The bytes before the first 0, if it comes soon enough. -/
def untilNul (load : U64 → U8) : (fuel : Nat) → (addr : U64) → Option (List U8)
  | 0, _ => none
  | fuel + 1, addr =>
    let c := load addr
    if c = 0 then some [] else (untilNul load fuel (addr + 1)).map (c :: ·)

def readUserString (env : Env) (σ : Machine) (cr3 ptr : U64) : Except U64 String :=
  if ptr = 0 then .error (-22)
  else
    match untilNul (env.loadUser σ cr3) 4097 ptr with
    | none => .error (-36)
    | some bytes => .ok (String.ofList (bytes.map fun c => Char.ofNat c.toNat))

def readUserStringWithLen (env : Env) (σ : Machine) (cr3 ptr len : U64) : Except U64 String :=
  if ptr = 0 then .error (-22)
  else
    let slice := (List.range len.toNat).map fun i => env.loadUser σ cr3 (ptr + BitVec.ofNat 64 i)
    match fromUtf8 slice with
    | none => .error (-22)
    | some s => .ok s

def resolveUserPath (env : Env) (k : Locks) (cr3 ptr len : U64) : Sys (Except U64 String) := do
  let path ← gets fun w =>
    if len = 0 then readUserString env w.machine cr3 ptr
    else readUserStringWithLen env w.machine cr3 ptr len
  match path with
  | .error e => return .error e
  | .ok path => k.locked .scheduler do
      let (_, task) ← currentTask
      match task with
      | none => return .error (-1)
      | some task =>
        if path.startsWith "/" then
          return .ok (String.ofList (Fs.PathNormalizer.normalize path.toList))
        else if path = "." then return .ok task.cwd
        else return .ok (String.ofList (Fs.PathNormalizer.join task.cwd.toList path.toList))

/-- The first free descriptor from 3 on, or a new one. -/
def insertFile (fds : List (Option File)) (file : File) : Nat × List (Option File) :=
  match (List.range fds.length).find? fun i => 3 ≤ i ∧ (fds.getD i none).isNone with
  | some i => (i, fds.set i (some file))
  | none =>
    let fds := fds ++ List.replicate (3 - fds.length) none
    (fds.length, fds ++ [some file])

/-- `VFS.lock().open(path)` -/
def vfsOpen (env : Env) (path : String) : Sys (Except FsError File) := fun w =>
  let (result, devices) := env.vfs.open path w.devices
  .ok result (w.withDevices devices)

def sysOpen (env : Env) (k : Locks) (ptr len : U64) : Sys U64 := do
  let cr3 ← userCr3 k
  let path ← resolveUserPath env k cr3 ptr len
  match path with
  | .error e => return e
  | .ok path =>
    match ← vfsOpen env path with
    | .error _ => return -2
    | .ok file => withFds k (-1) fun slot => do
      let fds ← gets (·.fds slot)
      let (id, fds) := insertFile fds file
      modify (·.setFds slot fds)
      return BitVec.ofNat 64 id

def sysClose (k : Locks) (fd : U64) : Sys U64 :=
  withFds k (-9) fun slot => do
    let fds ← gets (·.fds slot)
    if fd.toNat < fds.length then
      modify (·.setFds slot (fds.set fd.toNat none))
      return 0
    else return -9

def sysLseek (k : Locks) (fd offset : U64) : Sys U64 :=
  withFile k fd fun file => do
    let (result, file) ← seekFile file offset
    match result with
    | .ok newOff => return (newOff, file)
    | .error _ => return (-1, file)

/-- Only devices can be opened. The memory of the user holds these bytes from `start` on. -/
def deviceEnv (start : U64) (bytes : List U8) : Env where
  vfs := Mounts.Vfs.new.mount "/dev" devFs
  loadUser _ _ addr := bytes.getD (addr - start).toNat 0
  storeUser _ _ _ σ := σ

end BeastOs.Syscall
