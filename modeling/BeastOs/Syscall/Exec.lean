import BeastOs.Fs.Tar
import BeastOs.Fs.UniversalExec
import BeastOs.Scheduler.Entry
import BeastOs.Syscall.Descriptors

/-!
# Executing a program

`sys_exec` of `kernel/src/syscall/mod.rs`: it finds a file of the initial archive, loads it into a
new page table, gives it a stack and replaces the current task. A call that returns has failed.

Up to the new page table nothing is allocated. From there on, what a call has taken it never gives
back: the loaders return with `?` and the caller returns the error. `failedExec_keeps_iff` says
which calls fail without a loss, and `failedExecs_lose` that every other one costs a page, for ever.
-/

namespace BeastOs

open Lib

open Fs (Bytes TarArchive)

open UniversalExec (Load Slice)

open Scheduler (taskStackSize)

namespace Syscall

/-! ## The call -/

/-- How a call of `sys_exec` ends. -/
inductive ExecEnd
  | returns (code : U64)
  /-- the CPU goes on in the new program -/
  | enters (dispatch : Scheduler.Dispatch)
  /-- a loop of a loader has not come to its end yet -/
  | loads
  deriving DecidableEq, Repr

/-- `path.strip_prefix('/')`, or the path -/
def tarPath (path : String) : String :=
  match path.toList with
  | '/' :: stripped => String.ofList stripped
  | _ => path

/-- `archive.get_file`, of the archive in `INITRD_DATA` -/
def initrdFile (initrd : Bytes) (name : String) : Option Bytes :=
  ((⟨initrd.data⟩ : TarArchive).getFile name).pmap (fun file h => ⟨file.data, h⟩) fun _ hfile =>
    (TarArchive.length_data_le hfile).trans initrd.length_le

/-- `core::slice::from_raw_parts` in the memory of the task -/
def userSlice (env : Env) (σ : Machine) (cr3 ptr len : U64) : List U8 :=
  (List.range len.toNat).map fun i => env.loadUser σ cr3 (ptr + BitVec.ofNat 64 i)

/-- The file to execute, or the error of the call. -/
def findProgram (env : Env) (initrd : Bytes) (σ : Machine) (cr3 ptr len : U64) :
    Except U64 Bytes :=
  if cr3 = 0 then .error (-1)
  else if len = 0 then .error (-22)
  else
    match fromUtf8 (userSlice env σ cr3 ptr len) with
    | none => .error (-22)
    | some path =>
      match initrdFile initrd (tarPath path) with
      | none => .error (-2)
      | some data => .ok data

/-- An operation of the memory manager whose error is a panic. -/
def onVmm {α : Type} (x : Vmm α) : Sys α := fun w =>
  match x w.machine with
  | .ok a σ => .ok a (w.withMachine σ)
  | .error _ σ => .error .panics (w.withMachine σ)

def onLoad {r : U64} {ε α : Type} (x : Load r ε α) : Sys (Except ε α) := fun w =>
  .ok (x w.machine).result (w.withMachine (x w.machine).state)

def guardFlags : U64 := Flags.present ||| Flags.user

/-- The page at 0, if there is one left. Whether it can be mapped is only printed. -/
def mapGuardPage (r : U64) : Vmm Unit := fun σ =>
  match σ.pmm.allocPage with
  | (none, pmm) => .ok () { σ with pmm }
  | (some phys, pmm) =>
    .ok () (Vmm.after (Vmm.mapPageWithFlags r 0 phys guardFlags { σ with pmm }))

def stackTop : U64 := 0x00007FFFFFFFF000

def stackFlags : U64 := Flags.present ||| Flags.writable ||| Flags.user

def mapStackPage (r : U64) (i : Nat) : Vmm Unit := do
  let stackPageVirt := stackTop - (BitVec.ofNat 64 i + 1) * 4096
  let phys ← Vmm.allocPage "Failed to alloc stack page"
  Vmm.mapPageWithFlags r stackPageVirt phys stackFlags
  Vmm.zeroPage phys

def taskStackPages : Nat := 32

/-- The kernel stack of `Task::new_user`, with the entry on top of it. -/
def newKernelStack (entry : U64) : Vmm (Option U64) := fun σ =>
  match σ.pmm.allocContiguous taskStackPages with
  | (none, pmm) => .ok none { σ with pmm }
  | (some phys, pmm) =>
    (do
      Vmm.zeroTables phys taskStackPages
      Vmm.writeEntry (phys + BitVec.ofNat 64 (taskStackSize - 4096)) 511 entry
      return some phys : Vmm (Option U64)) { σ with pmm }

/-- `replace_current_task`. It panics if there is no task or no kernel stack for the new one. -/
def replaceCurrentTask (k : Locks) (pf : Scheduler.Platform) (entry userStackTop : U64)
    (name : String) (pageTable argc argv : U64) : Sys Scheduler.Dispatch := do
  match ← k.locked .scheduler currentTask with
  | (_, none) => throw .panics
  | (_, some _) =>
    let phys ← onVmm (newKernelStack entry)
    k.locked .scheduler fun w =>
      match w.sched.replaceCurrentTask pf phys entry userStackTop name pageTable argc argv with
      | none => .error .panics w
      | some (sched, dispatch) => .ok dispatch { w with sched }

/-- What is left to do when the image is loaded. -/
def enterProgram (k : Locks) (pf : Scheduler.Platform) (r entry : U64) : Sys ExecEnd := do
  onVmm (mapGuardPage r)
  onVmm ((List.range 16).forM (mapStackPage r))
  let dispatch ← replaceCurrentTask k pf entry stackTop "shell" r 0 (stackTop - 8)
  return .enters dispatch

/-- Load a file into the page table `r`. `around` is what the kernel has in memory around the file,
and `fuel` how often the loops of a loader may go round. -/
def loadProgram (k : Locks) (pf : Scheduler.Platform) (around : Machine → U64 → U8) (fuel : Nat)
    (data : Bytes) (r : U64) : Sys ExecEnd := do
  onVmm (Vmm.new r)
  match ← onLoad (UniversalExec.load (r := r) ⟨data, around⟩ fuel) with
  | .error (.error _) => return .returns (-8)
  | .error .outOfFuel => return .loads
  | .ok image => enterProgram k pf r image.entry

def execProgram (k : Locks) (pf : Scheduler.Platform) (around : Machine → U64 → U8) (fuel : Nat)
    (data : Bytes) : Sys ExecEnd := do
  match ← onVmm Vmm.createUserPageTable with
  | none => return .returns (-12)
  | some r => loadProgram k pf around fuel data r

def sysExec (env : Env) (k : Locks) (pf : Scheduler.Platform) (initrd : Bytes)
    (around : Machine → U64 → U8) (fuel : Nat) (pathPtr pathLen : U64) : Sys ExecEnd := do
  let cr3 ← userCr3 k
  match ← gets fun w => findProgram env initrd w.machine cr3 pathPtr pathLen with
  | .error code => return .returns code
  | .ok data => execProgram k pf around fuel data

/-! ## Pages are taken only -/

theorem free_le_of_action (r : U64) (a : UniversalExec.Action) (σ : Machine) :
    (a.run r σ).pmm.freeSet ≤ σ.pmm.freeSet := by
  cases a with
  | loadSegment | writeBytes => exact le_rfl
  | allocPage =>
    show (Vmm.after (Vmm.allocPage "" σ)).pmm.freeSet ≤ _
    exact Vmm.free_le_after (Vmm.descends_allocPage "") σ
  | mapPageWithFlags virt phys flags =>
    show (Vmm.after (Vmm.mapPageWithFlags r virt phys flags σ)).pmm.freeSet ≤ _
    exact Vmm.free_le_after (Vmm.descends_mapEntry r virt phys flags) σ
  | copy phys bytes | patch phys value => exact (congrArg Pmm.freeSet Vmm.writeBytes_pmm).le

/-- A load frees no page, whether it succeeds or fails. -/
theorem free_le_of_load {r : U64} {ε α : Type} (x : Load r ε α) (σ : Machine) :
    (x σ).state.pmm.freeSet ≤ σ.pmm.freeSet := by
  obtain ⟨-, τ, σ', hrun⟩ := x σ
  induction hrun with
  | nil => exact le_rfl
  | @snoc _ m a _ _ hstep ih =>
    subst hstep
    exact (free_le_of_action r a m).trans ih

/-! ## Calls that fail -/

variable {env : Env} {pf : Scheduler.Platform} {initrd data : Bytes} {around : Machine → U64 → U8}
  {fuel : Nat} {pathPtr pathLen code cr3 : U64} {w w' : World} {σ : Machine}

/-- The page table of the task that calls, or 0. -/
def World.pageTable (w : World) : U64 := (w.task.map (·.pageTable)).getD 0

/-- The file that the call would execute. -/
def World.program (w : World) (env : Env) (initrd : Bytes) (pathPtr pathLen : U64) :
    Except U64 Bytes :=
  findProgram env initrd w.machine w.pageTable pathPtr pathLen

/-- How a call can have failed. -/
inductive Failed (env : Env) (initrd : Bytes) (pathPtr pathLen : U64) (w : World) :
    U64 → World → Prop
  | notFound {code : U64} : w.program env initrd pathPtr pathLen = .error code →
      Failed env initrd pathPtr pathLen w code w
  | noPage {data : Bytes} : w.program env initrd pathPtr pathLen = .ok data →
      w.machine.pmm.freeSet = ∅ → Failed env initrd pathPtr pathLen w (-12) w
  /-- the page is the new page table -/
  | notLoaded {data : Bytes} {page : Nat} {w' : World} :
      w.program env initrd pathPtr pathLen = .ok data → page ∈ w.machine.pmm.freeSet →
      w'.machine.pmm.freeSet ≤ w.machine.pmm.freeSet.erase page →
      Failed env initrd pathPtr pathLen w (-8) w'

theorem findProgram_error (h : findProgram env initrd σ cr3 pathPtr pathLen = .error code) :
    code = -1 ∨ code = -22 ∨ code = -2 := by
  unfold findProgram at h
  split at h
  · exact .inl (Except.error.inj h).symm
  · right
    split at h
    · exact .inl (Except.error.inj h).symm
    · split at h
      · exact .inl (Except.error.inj h).symm
      · split at h
        · exact .inr (Except.error.inj h).symm
        · cases h

variable (h : Failed env initrd pathPtr pathLen w code w')

include h in
theorem Failed.neg : code.toInt < 0 := by
  cases h with
  | notFound hfind => rcases findProgram_error hfind with rfl | rfl | rfl <;> decide
  | noPage | notLoaded => decide

theorem sched_of_acquire {l : Lock} (h : Locks.checked.acquire l w = .ok () w') :
    w'.sched = w.sched := by
  change (if l ∈ w.held then _ else _) = _ at h
  split at h
  · cases h
  · cases h
    rfl

theorem task_of_currentTask {slot : Scheduler.TaskId} {task : Option Scheduler.Task}
    (h : currentTask w = .ok (slot, task) w') : w.task = task := by
  unfold currentTask at h
  unfold World.task
  split at h
  · cases h
  next task' htask =>
    cases h
    rw [htask]
    rfl

/-- The call reads the page table of its task. -/
theorem userCr3_eq_ok {w₁ : World} (h : userCr3 .checked w = .ok cr3 w₁) :
    w₁ = w ∧ cr3 = w.pageTable := by
  refine ⟨reads_userCr3 h, ?_⟩
  obtain ⟨_, w₂, hacquire, h⟩ := bind_eq_ok.mp h
  obtain ⟨c, w₃, hbody, h⟩ := bind_eq_ok.mp h
  obtain ⟨_, w₄, -, h⟩ := bind_eq_ok.mp h
  cases h
  obtain ⟨⟨slot, task⟩, w₅, htask, hbody⟩ := bind_eq_ok.mp hbody
  cases hbody
  have hsame : w₂.task = w.task := by
    unfold World.task
    rw [sched_of_acquire hacquire]
  unfold World.pageTable
  rw [← hsame, task_of_currentTask htask]

theorem onVmm_of_ok {α : Type} {x : Vmm α} {a : α} (h : x w.machine = .ok a σ) :
    onVmm x w = .ok a (w.withMachine σ) := by
  unfold onVmm
  rw [h]

theorem enterProgram_ne_returns {r entry : U64} :
    enterProgram .checked pf r entry w ≠ .ok (.returns code) w' := by
  intro h
  obtain ⟨_, _, -, h⟩ := bind_eq_ok.mp h
  obtain ⟨_, _, -, h⟩ := bind_eq_ok.mp h
  obtain ⟨_, _, -, h⟩ := bind_eq_ok.mp h
  cases h

/-- The new page table stays where it is, and so does whatever the loader has taken. -/
theorem loadProgram_returns {r : U64}
    (h : loadProgram .checked pf around fuel data r w = .ok (.returns code) w') :
    code = -8 ∧ w'.machine.pmm.freeSet ≤ w.machine.pmm.freeSet := by
  obtain ⟨_, w₁, hnew, h⟩ := bind_eq_ok.mp h
  cases hnew
  obtain ⟨result, w₂, hload, h⟩ := bind_eq_ok.mp h
  cases result with
  | ok image => exact absurd h enterProgram_ne_returns
  | error stop =>
    cases stop with
    | outOfFuel => cases h
    | error e =>
      cases h
      obtain ⟨-, rfl⟩ := EStateM.Result.ok.inj hload
      exact ⟨rfl, free_le_of_load _ _⟩

/-- Every way of a call to return. -/
theorem sysExec_failed
    (h : sysExec env .checked pf initrd around fuel pathPtr pathLen w = .ok (.returns code) w') :
    Failed env initrd pathPtr pathLen w code w' := by
  obtain ⟨cr3, w₁, hcr3, h⟩ := bind_eq_ok.mp h
  obtain ⟨rfl, rfl⟩ := userCr3_eq_ok hcr3
  obtain ⟨found, w₂, hgets, h⟩ := bind_eq_ok.mp h
  obtain ⟨hfind, rfl⟩ : w₁.program env initrd pathPtr pathLen = found ∧ w₁ = w₂ :=
    EStateM.Result.ok.inj hgets
  cases found with
  | error e =>
    cases h
    exact .notFound hfind
  | ok data =>
    rcases Vmm.createUserPageTable_takes w₁.machine with
      ⟨hempty, hcreate⟩ | ⟨page, hpage, r, σ, hcreate, hpmm⟩
    · cases (bind_of_ok (onVmm_of_ok hcreate)).symm.trans h
      exact .noPage hfind hempty
    · obtain ⟨rfl, hle⟩ := loadProgram_returns ((bind_of_ok (onVmm_of_ok hcreate)).symm.trans h)
      refine .notLoaded hfind hpage (hle.trans ?_)
      show σ.pmm.freeSet ≤ _
      rw [hpmm, Pmm.freeSet_take]

/-- The pages that are allocated are the same, and so is the number of free ones. -/
structure KeepsPages (w w' : World) : Prop where
  freeSet : w'.machine.pmm.freeSet = w.machine.pmm.freeSet
  freePages : w'.machine.pmm.freePages = w.machine.pmm.freePages

/-- The call cannot get as far as a page table: the task has none itself, its path names no file of
the archive, or there is no page left. -/
def FailsEarly (env : Env) (initrd : Bytes) (pathPtr pathLen : U64) (w : World) : Prop :=
  (∃ code, w.program env initrd pathPtr pathLen = .error code) ∨ w.machine.pmm.freeSet = ∅

/-- **A failed `exec` gives back its memory only if it has not taken any.** A call that returns has
failed. The pages that are allocated are those from before the call if and only if it has failed
before it had a page table; otherwise that page is lost, with all that the loader has taken. -/
theorem failedExec_keeps_iff
    (h : sysExec env .checked pf initrd around fuel pathPtr pathLen w = .ok (.returns code) w') :
    code.toInt < 0 ∧ (KeepsPages w w' ↔ FailsEarly env initrd pathPtr pathLen w) := by
  have hfailed := sysExec_failed h
  refine ⟨hfailed.neg, ?_⟩
  cases hfailed with
  | notFound hfind => exact ⟨fun _ => Or.inl ⟨_, hfind⟩, fun _ => ⟨rfl, rfl⟩⟩
  | noPage hfind hempty => exact ⟨fun _ => Or.inr hempty, fun _ => ⟨rfl, rfl⟩⟩
  | notLoaded hfind hpage hle =>
    constructor
    · intro hkeeps
      rw [← hkeeps.freeSet] at hpage
      exact absurd rfl (Finset.ne_of_mem_erase (hle hpage))
    · rintro (⟨code, herror⟩ | hempty)
      · rw [hfind] at herror
        cases herror
      · rw [hempty] at hpage
        cases hpage

/-! ## One call after the other -/

include h in
/-- An error of the loader costs a page. -/
theorem Failed.exists_lost (hcode : code = -8) :
    ∃ page ∈ w.machine.pmm.freeSet, w'.machine.pmm.freeSet ≤ w.machine.pmm.freeSet.erase page := by
  cases h with
  | notFound hfind =>
    subst hcode
    rcases findProgram_error hfind with hcode | hcode | hcode <;> exact absurd hcode (by decide)
  | noPage => exact absurd hcode (by decide)
  | notLoaded _ hpage hle => exact ⟨_, hpage, hle⟩

include h in
theorem Failed.free_le :
    w'.machine.pmm.freeSet ≤ w.machine.pmm.freeSet := by
  cases h with
  | notFound | noPage => exact le_rfl
  | notLoaded _ _ hle => exact hle.trans (Finset.erase_subset _ _)

/-- What a task asks for, and the error it gets. -/
structure ExecCall where
  env : Env
  (pathPtr pathLen code : U64)

def ExecStep (pf : Scheduler.Platform) (initrd : Bytes) (around : Machine → U64 → U8) (w : World)
    (call : ExecCall) (w' : World) : Prop :=
  ∃ fuel, sysExec call.env .checked pf initrd around fuel call.pathPtr call.pathLen w =
    .ok (.returns call.code) w'

/-- **Failures use memory up.** In a run of failed calls every error of the loader has cost a page,
so there are at most as many of them as there were free pages. -/
theorem failedExecs_lose {τ : List (Transition World ExecCall)}
    (hrun : Run (ExecStep pf initrd around) w τ w') :
    w'.machine.pmm.freeSet.card + τ.countP (fun t => t.label.code = -8) ≤
      w.machine.pmm.freeSet.card := by
  induction hrun with
  | nil => rw [List.countP_nil, Nat.add_zero]
  | @snoc τ m call w'' _ hstep ih =>
    obtain ⟨fuel, hcall⟩ := hstep
    have hfailed := sysExec_failed hcall
    rw [List.countP_append, List.countP_singleton]
    by_cases hcode : call.code = -8
    · obtain ⟨page, hpage, hle⟩ := hfailed.exists_lost hcode
      have hcard := Finset.card_le_card hle
      have hlt := Finset.card_erase_lt_of_mem hpage
      rw [if_pos (decide_eq_true hcode)]
      omega
    · have hcard := Finset.card_le_card hfailed.free_le
      rw [if_neg (by simpa using hcode)]
      omega

/-- The loader knows no format of this file. -/
theorem loadProgram_unknown (hunknown : UniversalExec.detectFormat data = .unknown) (r : U64) :
    ∃ w', loadProgram .checked pf around fuel data r w = .ok (.returns (-8)) w' := by
  have hload : ∀ w : World, onLoad (UniversalExec.load (r := r) ⟨data, around⟩ fuel) w =
      .ok (.error (.error .invalidFormat)) w := by
    intro w
    unfold onLoad UniversalExec.load
    rw [hunknown]
    rfl
  obtain ⟨w₁, hnew⟩ : ∃ w₁, onVmm (Vmm.new r) w = .ok () w₁ := ⟨_, rfl⟩
  exact ⟨w₁, (bind_of_ok hnew).trans (bind_of_ok (hload w₁))⟩

/-- It is found out when there is a page table already. -/
theorem exists_sysExec_unknown {task : Scheduler.Task} (hheld : w.held = [])
    (htask : w.task = some task) (hfind : w.program env initrd pathPtr pathLen = .ok data)
    (hunknown : UniversalExec.detectFormat data = .unknown)
    (hfree : w.machine.pmm.freeSet.Nonempty) :
    ∃ w', sysExec env .checked pf initrd around fuel pathPtr pathLen w =
      .ok (.returns (-8)) w' := by
  have hcr3 : userCr3 .checked w = .ok w.pageTable w := by
    rw [userCr3_eq hheld htask, World.pageTable, htask]
    rfl
  have hfound : (gets fun w' => findProgram env initrd w'.machine w.pageTable pathPtr pathLen :
      Sys (Except U64 Bytes)) w = .ok (.ok data) w := congrArg (EStateM.Result.ok · w) hfind
  rcases Vmm.createUserPageTable_takes w.machine with ⟨hempty, -⟩ | ⟨-, -, r, σ, hcreate, -⟩
  · exact absurd hempty hfree.ne_empty
  · obtain ⟨w', hloaded⟩ : ∃ w', loadProgram .checked pf around fuel data r (w.withMachine σ) =
        .ok (.returns (-8)) w' := loadProgram_unknown hunknown r
    refine ⟨w', (bind_of_ok hcr3).trans ((bind_of_ok hfound).trans ?_)⟩
    exact (bind_of_ok (onVmm_of_ok hcreate)).trans hloaded

/-! ### A file that is no program -/

/-- A user whose memory holds the path `/bin/sh`. -/
def shellEnv : Env := deviceEnv 0x400000 (utf8 "/bin/sh")

/-- The file has two bytes. -/
def shellInitrd : Bytes :=
  ⟨(TarArchive.ofEntries [TarArchive.shell]).rawData, by decide +kernel⟩

theorem initrdFile_shell (name : String) (hn : name.toList.head? ≠ some '/') :
    (initrdFile shellInitrd name).map (·.data) =
      (TarArchive.entryNamed [TarArchive.shell.record] name).map (·.file.data) := by
  have hend : TarArchive.EndOfArchive (List.replicate 1024 0) :=
    Or.inr ⟨_, List.replicate_add 512 512 0⟩
  have hopen := TarArchive.open_ofRecords [TarArchive.shell.record] hend hn 0
  rw [TarArchive.withSlashes, List.replicate_zero, List.nil_append, String.ofList_toList] at hopen
  unfold initrdFile
  rw [Option.map_pmap, Option.pmap_eq_map, TarArchive.getFile_eq_toOption_open]
  show Option.map _ (Except.toOption (TarArchive.open (.ofRecords [_] _) name)) = _
  rw [hopen]
  cases TarArchive.entryNamed [TarArchive.shell.record] name <;> rfl

/-- A call with the first bytes of the path. -/
theorem program_path (len : U64) (path : String) (hlen : len ≠ 0)
    (hslice : userSlice shellEnv smallWorld.machine smallWorld.pageTable 0x400000 len = utf8 path) :
    smallWorld.program shellEnv shellInitrd 0x400000 len =
      (initrdFile shellInitrd (tarPath path)).elim (.error (-2)) .ok := by
  have htable : smallWorld.pageTable ≠ 0 := by
    show (0x2000 : U64) ≠ 0
    decide
  have hpath : fromUtf8 (utf8 path) = some path := fromUtf8_utf8 path
  rw [World.program, findProgram, if_neg htable, if_neg hlen, hslice, hpath]
  dsimp only
  cases initrdFile shellInitrd (tarPath path) <;> rfl

theorem program_shell : ∃ data : Bytes,
    smallWorld.program shellEnv shellInitrd 0x400000 7 = .ok data ∧ data.data = [7, 8] := by
  have hprogram := program_path 7 "/bin/sh" (by decide) (by decide +kernel)
  have hpath : tarPath "/bin/sh" = "bin/sh" := by decide +kernel
  obtain ⟨data, hfile, hdata⟩ := Option.map_eq_some_iff.mp
    ((initrdFile_shell "bin/sh" (by decide)).trans rfl)
  rw [hpath, hfile] at hprogram
  exact ⟨data, hprogram, hdata⟩

theorem free_smallWorld : smallWorld.machine.pmm.freeSet.Nonempty :=
  ⟨3, Pmm.mem_freeSet.mpr ⟨by decide, by decide +kernel⟩⟩

/-- There is no file `/bin`. -/
theorem failedExec_keeps_noFile : ∃ w', sysExec shellEnv .checked ⟨0, 0, 0⟩ shellInitrd
      (fun _ _ => 0) 0 0x400000 4 smallWorld = .ok (.returns (-2)) w' ∧
    KeepsPages smallWorld w' := by
  have hprogram := program_path 4 "/bin" (by decide) (by decide +kernel)
  have hpath : tarPath "/bin" = "bin" := by decide +kernel
  have hfile := Option.map_eq_none_iff.mp ((initrdFile_shell "bin" (by decide)).trans rfl)
  rw [hpath, hfile] at hprogram
  have hfound : (gets fun w => findProgram shellEnv shellInitrd w.machine smallWorld.pageTable
      0x400000 4 : Sys (Except U64 Bytes)) smallWorld = .ok (.error (-2)) smallWorld :=
    congrArg (EStateM.Result.ok · smallWorld) hprogram
  have h : sysExec shellEnv .checked ⟨0, 0, 0⟩ shellInitrd (fun _ _ => 0) 0 0x400000 4 smallWorld =
      .ok (.returns (-2)) smallWorld :=
    (bind_of_ok (userCr3_eq rfl rfl)).trans (bind_of_ok hfound)
  exact ⟨_, h, (failedExec_keeps_iff h).2.mpr (.inl ⟨_, hprogram⟩)⟩

/-- The loader does not know the format of the file, and a page is lost. -/
theorem failedExec_loses_page : ∃ w', sysExec shellEnv .checked ⟨0, 0, 0⟩ shellInitrd
      (fun _ _ => 0) 0 0x400000 7 smallWorld = .ok (.returns (-8)) w' ∧
    w'.machine.pmm.freeSet ⊂ smallWorld.machine.pmm.freeSet := by
  obtain ⟨data, hfind, hdata⟩ := program_shell
  have hunknown : UniversalExec.detectFormat data = .unknown := by
    unfold UniversalExec.detectFormat
    rw [hdata]
  obtain ⟨w', h⟩ : ∃ w', sysExec shellEnv .checked ⟨0, 0, 0⟩ shellInitrd (fun _ _ => 0) 0
      0x400000 7 smallWorld = .ok (.returns (-8)) w' :=
    exists_sysExec_unknown rfl rfl hfind hunknown free_smallWorld
  refine ⟨w', h, ?_⟩
  obtain ⟨page, hpage, hle⟩ := (sysExec_failed h).exists_lost rfl
  exact lt_of_le_of_lt hle (Finset.erase_ssubset hpage)

/-- A call for a file that is no program. -/
theorem failedExecs_lose_shell : ∃ τ w',
    Run (ExecStep ⟨0, 0, 0⟩ shellInitrd fun _ _ => 0) smallWorld τ w' ∧
      w'.machine.pmm.freeSet.card < smallWorld.machine.pmm.freeSet.card := by
  obtain ⟨data, hfind, hdata⟩ := program_shell
  have hunknown : UniversalExec.detectFormat data = .unknown := by
    rw [UniversalExec.detectFormat, hdata]
  obtain ⟨w', h⟩ := exists_sysExec_unknown rfl rfl hfind hunknown free_smallWorld
  have hrun := Run.single (show ExecStep ⟨0, 0, 0⟩ shellInitrd (fun _ _ => 0) smallWorld
    ⟨shellEnv, 0x400000, 7, -8⟩ w' from ⟨0, h⟩)
  exact ⟨_, w', hrun, failedExecs_lose hrun⟩

end Syscall

end BeastOs
