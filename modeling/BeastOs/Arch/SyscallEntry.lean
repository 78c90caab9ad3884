import BeastOs.Scheduler.RunQueue

/-!
# System call entry and exit

`kernel/src/arch/syscall_entry.rs` keeps the caller's `CR3` in one global, `USER_CR3_SCRATCH`: the
entry stub stores `CR3` there and loads the kernel's, the exit stub loads `CR3` from there before
`sysretq`. In between the scheduler may switch to other tasks and back, loading the page table of
each task it picks.

The machine below couples the scheduler with `CR3` and the scratch variable. Interrupts are masked
during a system call, so the timer only ticks outside one. A run returns every system call to its
caller's address space exactly when, at each `sysretq`, the most recent entry was made with the
returning task's page table: another task's entry in between is what goes wrong.

Main result: `returnsToCaller_run_iff`; `not_returnsToCaller_twoTasks` is a run with such an entry.
-/

namespace BeastOs.SyscallEntry

open Option Lib Scheduler

/-! ## The machine -/

structure Machine where
  sched : Scheduler
  cr3 : U64
  userCr3Scratch : U64
  kernelCr3 : U64
  /-- the tasks between the entry stub and `sysretq` -/
  inSyscall : TaskId → Bool
  /-- ghost: the page table of the task that last went through the entry stub -/
  entryPageTable : U64

namespace Machine

def currentTask (m : Machine) : Option Task := m.sched.tasks m.sched.current

def inUserMode (m : Machine) : Prop := m.inSyscall m.sched.current = false

instance (m : Machine) : Decidable m.inUserMode := inferInstanceAs (Decidable (_ = _))

/-- After `run` has switched to the first task. -/
def start (s : Scheduler) (d : Dispatch) (kernelCr3 : U64) : Machine where
  sched := s
  cr3 := d.cr3
  userCr3Scratch := 0
  kernelCr3 := kernelCr3
  inSyscall := fun _ => false
  entryPageTable := 0

end Machine

inductive Action where
  | syscallEntry
  | sysretq
  /-- a handler of a system call looks at its caller's memory, or is done with it -/
  | writeCr3 (user : Bool)
  | kernel (e : Event)

def Action.Allowed : Action → Prop
  | .kernel e => e.Allowed
  | _ => True

/-- What `reschedule`, or a return from it, leaves in `CR3`. -/
def loadCr3 (cr3 : U64) : Option Dispatch → U64
  | none => cr3
  | some d => d.cr3

/-- The entry stub, up to the call of the dispatcher. -/
def syscallEntry (m : Machine) : Option Machine := do
  let task ← m.currentTask
  if m.inUserMode then
    some { m with
      userCr3Scratch := m.cr3
      cr3 := m.kernelCr3
      inSyscall := Function.update m.inSyscall m.sched.current true
      entryPageTable := task.pageTable }
  else none

/-- The exit stub, up to and including `sysretq`. -/
def sysretq (m : Machine) : Option Machine :=
  if m.inUserMode then none
  else some { m with
    cr3 := m.userCr3Scratch
    inSyscall := Function.update m.inSyscall m.sched.current false }

def writeCr3 (m : Machine) (user : Bool) : Option Machine := do
  let task ← m.currentTask
  if m.inUserMode then none
  else some { m with cr3 := if user then task.pageTable else m.kernelCr3 }

/-- A scheduler event. The timer cannot tick during a system call; a task that exits when there is
no other to switch to halts the CPU; `exec` enters the new program in user mode. -/
def kernel (m : Machine) (e : Event) : Option Machine := do
  let (sched, d) ← m.sched.step e
  let m' := { m with sched, cr3 := loadCr3 m.cr3 d }
  match e with
  | .timer .. => if m.inUserMode then some m' else none
  | .exit .. => if d.isSome then some m' else none
  | .exec .. => some { m' with inSyscall := Function.update m.inSyscall m.sched.current false }
  | _ => some m'

def step (m : Machine) : Action → Option Machine
  | .syscallEntry => syscallEntry m
  | .sysretq => sysretq m
  | .writeCr3 user => writeCr3 m user
  | .kernel e => kernel m e

def machineStep (m : Machine) (a : Action) (m' : Machine) : Prop :=
  a.Allowed ∧ step m a = some m'

/-! ## Returning to the caller -/

/-- If the transition is a `sysretq`, it leaves `CR3` at the page table of the task that returns. -/
def ReturnsToCaller (t : Transition Machine Action) : Prop :=
  t.label = .sysretq → ∃ task, t.src.currentTask = some task ∧ t.dst.cr3 = task.pageTable

/-- If the transition is a `sysretq`, the last entry was made with the page table of the task that
returns. -/
def LastEntryOwn (t : Transition Machine Action) : Prop :=
  t.label = .sysretq →
    ∃ task, t.src.currentTask = some task ∧ t.src.entryPageTable = task.pageTable

structure Inv (m : Machine) : Prop where
  settled : Settled m.sched
  user_cr3 : m.inUserMode → ∃ task, m.currentTask = some task ∧ m.cr3 = task.pageTable
  scratch_eq : m.userCr3Scratch = m.entryPageTable

variable {m m' : Machine} {a : Action} {e : Event}

/-- A scheduler event leaves `CR3` right for a task in user mode. -/
theorem user_cr3_of_continues {d : Option Dispatch} {s' : Scheduler} {cr3 : U64}
    (hcont : Continues m.sched s' d)
    (hcr3 : d = none → ∃ task, m.currentTask = some task ∧ cr3 = task.pageTable) :
    ∃ task, s'.tasks s'.current = some task ∧ loadCr3 cr3 d = task.pageTable := by
  cases d with
  | some d =>
    obtain ⟨-, t, ht, hd⟩ := hcont
    exact ⟨t, ht, hd⟩
  | none =>
    obtain ⟨hcur, hpt⟩ := hcont
    obtain ⟨task, htask, heq⟩ := hcr3 rfl
    rw [show m.sched.tasks m.sched.current = some task from htask] at hpt
    obtain ⟨t, ht, hpt⟩ := map_eq_some_iff.mp hpt
    rw [hcur]
    exact ⟨t, ht, heq.trans hpt.symm⟩

/-- What a scheduler event does to the machine. -/
theorem kernel_eq_some (h : kernel m e = some m') :
    ∃ d, m.sched.step e = some (m'.sched, d) ∧ m'.cr3 = loadCr3 m.cr3 d ∧
      m'.userCr3Scratch = m.userCr3Scratch ∧ m'.entryPageTable = m.entryPageTable ∧
      (d = none → m'.inSyscall = m.inSyscall) := by
  obtain ⟨⟨s', d⟩, hstep, h⟩ := bind_eq_some_iff.mp h
  refine ⟨d, ?_⟩
  cases e with
  | timer regs framePtr | exit regs framePtr =>
    dsimp only at h
    split at h
    · cases h
      exact ⟨hstep, rfl, rfl, rfl, fun _ => rfl⟩
    · cases h
  | exec pf phys entry userStackTop name pageTable argc argv =>
    cases h
    refine ⟨hstep, rfl, rfl, rfl, ?_⟩
    rintro rfl
    obtain ⟨p, -, hp⟩ := map_eq_some_iff.mp hstep
    cases hp
  | _ =>
    cases h
    exact ⟨hstep, rfl, rfl, rfl, fun _ => rfl⟩

theorem Inv.kernel (h : Inv m) (he : e.Allowed) (hstep : kernel m e = some m') : Inv m' := by
  obtain ⟨d, hsched, hcr3, hscratch, hentry, hmode⟩ := kernel_eq_some hstep
  obtain ⟨hsettled, hcont⟩ := step_keeps h.settled he hsched
  refine ⟨hsettled, ?_, ?_⟩
  · intro huser
    rw [hcr3]
    refine user_cr3_of_continues hcont ?_
    -- without a switch the same task goes on in the same mode
    rintro rfl
    apply h.user_cr3
    have hcur : m'.sched.current = m.sched.current := hcont.1
    unfold Machine.inUserMode at huser ⊢
    rw [hmode rfl, hcur] at huser
    exact huser
  · rw [hscratch, hentry]
    exact h.scratch_eq

theorem Inv.syscallEntry (h : Inv m) (hstep : syscallEntry m = some m') : Inv m' := by
  obtain ⟨task, htask, hstep⟩ := bind_eq_some_iff.mp hstep
  split at hstep
  · next huser =>
      cases hstep
      obtain ⟨task', htask', hcr3⟩ := h.user_cr3 huser
      rw [htask] at htask'
      cases htask'
      refine ⟨h.settled, ?_, hcr3⟩
      intro hmode
      simp [Machine.inUserMode] at hmode
  · cases hstep

theorem sysretq_eq_some (hstep : sysretq m = some m') : ¬ m.inUserMode ∧
    m' = { m with cr3 := m.userCr3Scratch
                  inSyscall := Function.update m.inSyscall m.sched.current false } := by
  unfold sysretq at hstep
  split at hstep
  · cases hstep
  · next hmode =>
      cases hstep
      exact ⟨hmode, rfl⟩

theorem Inv.writeCr3 {user : Bool} (h : Inv m) (hstep : writeCr3 m user = some m') : Inv m' := by
  obtain ⟨task, -, hstep⟩ := bind_eq_some_iff.mp hstep
  split at hstep
  · cases hstep
  · next hmode =>
      cases hstep
      exact ⟨h.settled, fun huser => absurd huser hmode, h.scratch_eq⟩

/-- At a `sysretq` the scratch variable holds the last entry's page table. -/
theorem returnsToCaller_iff (h : Inv m) (hstep : machineStep m a m') :
    ReturnsToCaller ⟨m, a, m'⟩ ↔ LastEntryOwn ⟨m, a, m'⟩ := by
  refine imp_congr_right ?_
  rintro rfl
  obtain ⟨-, heq⟩ := sysretq_eq_some hstep.2
  show (∃ task : Task, _ ∧ m'.cr3 = task.pageTable) ↔ _
  rw [heq]
  show (∃ task : Task, _ ∧ m.userCr3Scratch = task.pageTable) ↔ _
  rw [h.scratch_eq]

theorem Inv.step (h : Inv m) (hstep : machineStep m a m') (hown : LastEntryOwn ⟨m, a, m'⟩) :
    Inv m' := by
  obtain ⟨hallowed, hrun⟩ := hstep
  cases a with
  | syscallEntry => exact h.syscallEntry hrun
  | writeCr3 user => exact h.writeCr3 hrun
  | kernel e => exact h.kernel hallowed hrun
  | sysretq =>
    obtain ⟨task, htask, hpt⟩ := hown rfl
    obtain ⟨-, rfl⟩ := sysretq_eq_some hrun
    exact ⟨h.settled, fun _ => ⟨task, htask, h.scratch_eq.trans hpt⟩, h.scratch_eq⟩

/-- The machine when the scheduler has started the first task. -/
def Started (m : Machine) : Prop :=
  ∃ boot s₀ s₁ d kernelCr3, Run bootStep Scheduler.new boot s₀ ∧ s₀.run = some (s₁, d) ∧
    m = Machine.start s₁ d kernelCr3

theorem inv_of_started (h : Started m) : Inv m := by
  obtain ⟨boot, s₀, s₁, d, kernelCr3, hboot, hrun, rfl⟩ := h
  obtain ⟨hsettled, -, t, ht, hcr3⟩ := settled_of_boot hboot hrun
  exact ⟨hsettled, fun _ => ⟨t, ht, hcr3⟩, rfl⟩

/-- **When system calls return to their callers.** In a run from the start of the scheduler every
`sysretq` leaves `CR3` at the returning task's page table exactly when at every `sysretq` the last
entry was made with that page table. -/
theorem returnsToCaller_run_iff {τ : List (Transition Machine Action)} (hstart : Started m)
    (hrun : Run machineStep m τ m') :
    (∀ t ∈ τ, ReturnsToCaller t) ↔ ∀ t ∈ τ, LastEntryOwn t :=
  hrun.forall_iff (inv_of_started hstart)
    (fun _ _ _ hm hstep => returnsToCaller_iff hm hstep)
    (fun _ _ _ hm hstep hown => hm.step hstep hown)

/-- Two user tasks with page tables `0x1000` and `0x2000`, the first of which has been started. -/
def twoTasks : Option Machine := do
  let s ← perform (fun s e => (s.step e).map (·.1)) Scheduler.new
    [.spawnUser ⟨0, 0, 0⟩ (some 0x100000) 0x400000 0x7000 "a" 1 0x1000 0,
     .spawnUser ⟨0, 0, 0⟩ (some 0x200000) 0x400000 0x7000 "b" 1 0x2000 0]
  let (s, d) ← s.run
  return Machine.start s d 0x9000

theorem started_of_twoTasks (h : twoTasks = some m) : Started m := by
  unfold twoTasks at h
  obtain ⟨s₀, hboot, h⟩ := bind_eq_some_iff.mp h
  obtain ⟨⟨s₁, d⟩, hrun, h⟩ := bind_eq_some_iff.mp h
  cases h
  obtain ⟨τ, hτ, hlabels⟩ := exists_run_of_perform hboot
  refine ⟨τ, s₀, s₁, d, 0x9000, hτ.imp ?_, hrun, rfl⟩
  intro t ht hstep
  obtain ⟨⟨s', d'⟩, hs, heq⟩ := map_eq_some_iff.mp hstep
  have hmem : t.label ∈ τ.map (·.label) := List.mem_map_of_mem ht
  rw [hlabels] at hmem
  cases heq
  have hlevel : 1 < priorityLevels := by decide
  rcases List.mem_pair.mp hmem with heq | heq
  · exact ⟨by rw [heq]; exact hlevel, by rw [heq]; trivial, d', hs⟩
  · exact ⟨by rw [heq]; exact hlevel, by rw [heq]; trivial, d', hs⟩

/-- The first task yields in a system call, and a call of the second one runs to its end. -/
theorem returnsToCaller_switch : ∃ m m' τ, Started m ∧ Run machineStep m τ m' ∧ τ.length = 4 ∧
    ∀ t ∈ τ, ReturnsToCaller t := by
  obtain ⟨m₀, m₁, m₂, m₃, m₄, task, h₀, h₁, h₂, h₃, h₄, htask, hpt⟩ : ∃ m₀ m₁ m₂ m₃ m₄ task,
      twoTasks = some m₀ ∧ machineStep m₀ .syscallEntry m₁ ∧
      machineStep m₁ (.kernel (.yield default 0)) m₂ ∧ machineStep m₂ .syscallEntry m₃ ∧
      machineStep m₃ .sysretq m₄ ∧ m₃.currentTask = some task ∧
      m₃.entryPageTable = task.pageTable :=
    ⟨_, _, _, _, _, _, rfl, ⟨trivial, rfl⟩, ⟨trivial, rfl⟩, ⟨trivial, rfl⟩, ⟨trivial, rfl⟩,
      rfl, rfl⟩
  have hstart := started_of_twoTasks h₀
  have hrun : Run machineStep m₀ _ m₄ := .cons h₁ (.cons h₂ (.cons h₃ (.single h₄)))
  refine ⟨m₀, m₄, _, hstart, hrun, rfl, (returnsToCaller_run_iff hstart hrun).mpr ?_⟩
  simp only [List.forall_mem_cons, List.not_mem_nil, IsEmpty.forall_iff, implies_true, and_true]
  exact ⟨nofun, nofun, nofun, fun _ => ⟨task, htask, hpt⟩⟩

/-- Each of two tasks enters a system call and yields in it: the first one to return does so in the
other's address space. -/
theorem not_returnsToCaller_twoTasks : ∃ m m' τ, Started m ∧ Run machineStep m τ m' ∧
    ∃ t ∈ τ, ¬ ReturnsToCaller t := by
  obtain ⟨m₀, m₁, m₂, m₃, m₄, m₅, task, h₀, h₁, h₂, h₃, h₄, h₅, htask, hpt⟩ :
      ∃ m₀ m₁ m₂ m₃ m₄ m₅ task, twoTasks = some m₀ ∧
      machineStep m₀ .syscallEntry m₁ ∧ machineStep m₁ (.kernel (.yield default 0)) m₂ ∧
      machineStep m₂ .syscallEntry m₃ ∧ machineStep m₃ (.kernel (.yield default 0)) m₄ ∧
      machineStep m₄ .sysretq m₅ ∧ m₄.currentTask = some task ∧ m₅.cr3 ≠ task.pageTable :=
    ⟨_, _, _, _, _, _, _, rfl, ⟨trivial, rfl⟩, ⟨trivial, rfl⟩, ⟨trivial, rfl⟩, ⟨trivial, rfl⟩,
      ⟨trivial, rfl⟩, rfl, by decide⟩
  refine ⟨m₀, m₅, _, started_of_twoTasks h₀,
    .snoc (.snoc (.snoc (.snoc (.single h₁) h₂) h₃) h₄) h₅, ⟨m₄, .sysretq, m₅⟩, by simp, ?_⟩
  intro hreturns
  obtain ⟨task', htask', hcr3⟩ := hreturns rfl
  rw [htask] at htask'
  cases htask'
  exact hpt hcr3

end BeastOs.SyscallEntry
