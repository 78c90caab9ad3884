import BeastOs.Lib.Stack
import BeastOs.Word

/-!
# The registers of a system call

The instructions of `syscall_entry` in `kernel/src/arch/syscall_entry.rs`, between the `syscall` of
the wrappers in `libs/beast_syscall` and the return to them. The wrappers name the registers of the
arguments and those that a call changes; the stub moves the arguments to where an `extern "C"`
function expects them, and saves the rest on the kernel's stack.

The stub needs a register to load `CR3` with, and takes `r10`, before it has saved it: the fourth
argument is lost, and the caller finds another value in `r10`.

Main result: `contract_iff`.
-/

namespace BeastOs.SyscallStub

open Lib Lib.Stack

/-! ## The CPU -/

inductive Reg where
  | rax | rbx | rcx | rdx | rsi | rdi | rbp | rsp
  | r8 | r9 | r10 | r11 | r12 | r13 | r14 | r15
  deriving DecidableEq, Repr

/-- The variables of `syscall_entry.rs`. -/
inductive Static where
  | userRspScratch
  | userCr3Scratch
  | kernelStackPtr
  | kernelCr3
  deriving DecidableEq, Repr

/-- Memory is that of the kernel's stack, in words; the variables lie elsewhere. -/
structure Cpu where
  reg : Reg → U64
  /-- the next instruction; not kept while the stub runs -/
  rip : U64
  rflags : U64
  cr3 : U64
  gsBase : U64
  kernelGsBase : U64
  static : Static → U64
  mem : U64 → U64

/-- What can be pushed. -/
inductive Operand where
  | imm (v : U64)
  | static (v : Static)
  | reg (r : Reg)
  deriving DecidableEq, Repr

inductive Instr where
  | swapgs
  | movFromCr3 (dst : Reg)
  | movToCr3 (src : Reg)
  | store (dst : Static) (src : Reg)
  | load (dst : Reg) (src : Static)
  | mov (dst src : Reg)
  /-- `mov dst, [base]` -/
  | movFrom (dst base : Reg)
  /-- `test r, r`, and a `jnz` to the next instruction -/
  | testJnz (r : Reg)
  | push (o : Operand)
  | pop (r : Reg)
  | add (dst : Reg) (v : U64)
  | sysretq
  deriving DecidableEq, Repr

namespace Cpu

def setReg (c : Cpu) (r : Reg) (v : U64) : Cpu := { c with reg := Function.update c.reg r v }

def value (c : Cpu) : Operand → U64
  | .imm v => v
  | .static v => c.static v
  | .reg r => c.reg r

/-- Another stack: the stack pointer and the memory. -/
def withStack (c : Cpu) (sp : U64) (mem : U64 → U64) : Cpu := { c.setReg .rsp sp with mem }

def pushWord (c : Cpu) (v : U64) : Cpu :=
  c.withStack (c.reg .rsp - 8) (Function.update c.mem (c.reg .rsp - 8) v)

def exec (c : Cpu) : Instr → Cpu
  | .swapgs => { c with gsBase := c.kernelGsBase, kernelGsBase := c.gsBase }
  | .movFromCr3 dst => c.setReg dst c.cr3
  | .movToCr3 src => { c with cr3 := c.reg src }
  | .store dst src => { c with static := Function.update c.static dst (c.reg src) }
  | .load dst src => c.setReg dst (c.static src)
  | .mov dst src => c.setReg dst (c.reg src)
  | .movFrom dst base => c.setReg dst (c.mem (c.reg base))
  -- the flags that `test` and `add` set are not read before `sysretq` replaces them
  | .testJnz _ => c
  | .push o => c.pushWord (c.value o)
  | .pop r => (c.setReg .rsp (c.reg .rsp + 8)).setReg r (c.mem (c.reg .rsp))
  | .add dst v => c.setReg dst (c.reg dst + v)
  | .sysretq => { c with rip := c.reg .rcx, rflags := c.reg .r11 &&& 0x3C7FD7 ||| 2 }

def execAll (c : Cpu) (is : List Instr) : Cpu := is.foldl exec c

/-- The instruction `syscall`; `init` has set the mask of the flags to `0x0600`. -/
def syscall (c : Cpu) : Cpu :=
  { (c.setReg .rcx c.rip).setReg .r11 c.rflags with rflags := c.rflags &&& ~~~0x0600 }

end Cpu

/-! ## The stub -/

/-- `syscall_entry` up to the call of `syscall_dispatch`. -/
def entry : List Instr :=
  [ .swapgs,
    .movFromCr3 .r10,
    .store .userCr3Scratch .r10,
    .load .r10 .kernelCr3,
    .movToCr3 .r10,
    .store .userRspScratch .rsp,
    .load .rsp .kernelStackPtr,
    .testJnz .rsp,
    .push (.imm 0x1b),
    .push (.static .userRspScratch),
    .push (.reg .r11),
    .push (.imm 0x23),
    .push (.reg .rcx),
    .push (.reg .r15), .push (.reg .r14), .push (.reg .r13), .push (.reg .r12),
    .push (.reg .r10), .push (.reg .r9), .push (.reg .r8),
    .push (.reg .rbp), .push (.reg .rdi), .push (.reg .rsi), .push (.reg .rdx), .push (.reg .rbx),
    .push (.imm 0),
    .mov .r9 .r8,
    .mov .r8 .r10,
    .mov .rcx .rdx,
    .mov .rdx .rsi,
    .mov .rsi .rdi,
    .mov .rdi .rax ]

/-- `syscall_entry` after the call. -/
def leave : List Instr :=
  [ .add .rsp 8,
    .pop .rbx, .pop .rdx, .pop .rsi, .pop .rdi, .pop .rbp, .pop .r8, .pop .r9, .pop .r10,
    .pop .r12, .pop .r13, .pop .r14, .pop .r15,
    .pop .rcx,
    .add .rsp 8,
    .pop .r11,
    .load .r10 .userCr3Scratch,
    .movToCr3 .r10,
    .movFrom .rsp .rsp,
    .swapgs,
    .sysretq ]

/-- The words that the stub pushes. -/
def frameWords : Nat := 18

/-! ## The two conventions -/

/-- Where an `extern "C"` function finds its arguments. -/
def externCArgs : List Reg := [.rdi, .rsi, .rdx, .rcx, .r8, .r9]

def calleeSaved : List Reg := [.rbx, .rbp, .rsp, .r12, .r13, .r14, .r15]

/-- What the compiler makes of `syscall_dispatch`, from the `call` to the instruction after it, if
it returns. Anything may have changed in between but the registers that a callee saves and the
words its caller has on the stack. -/
structure ExternC where
  run : Cpu → Option Cpu
  saved : ∀ {c c'}, run c = some c' → ∀ r ∈ calleeSaved, c'.reg r = c.reg r
  frame : ∀ {c c'}, run c = some c' → ∀ vs, vs.length ≤ frameWords →
    Holds c.mem (c.reg .rsp) vs → Holds c'.mem (c.reg .rsp) vs

/-- The operands `in(..)` of `syscall5`: the number and five arguments. The wrappers with fewer
arguments name the first of them. -/
def wrapperArgs : List Reg := [.rax, .rdi, .rsi, .rdx, .r10, .r8]

/-- The operands `lateout(..)` and `out(..)` of all wrappers. -/
def wrapperClobbers : List Reg := [.rax, .rcx, .r11]

/-- The registers as a wrapper sets them for its `syscall`. -/
def pass (args : List U64) (c : Cpu) : Cpu :=
  (wrapperArgs.zip args).foldl (fun c p => c.setReg p.1 p.2) c

/-- The CPU at the `call` of the dispatcher. -/
def atDispatch (c : Cpu) : Cpu := c.syscall.execAll entry

/-- The arguments of `syscall_dispatch`: `num` and `a1` to `a5`. -/
def received (c : Cpu) : List U64 := externCArgs.map (atDispatch c).reg

/-- From the `syscall` to the instruction after it. -/
def roundTrip (d : ExternC) (c : Cpu) : Option Cpu :=
  (d.run (atDispatch c)).map fun c => c.execAll leave

/-- Both conventions are kept. -/
structure Contract (d : ExternC) (c : Cpu) : Prop where
  args : received c = wrapperArgs.map c.reg
  kept : ∀ c', roundTrip d c = some c' → ∀ r, r ∉ wrapperClobbers → c'.reg r = c.reg r

variable {c c' : Cpu} {d : ExternC}

/-! ## On the way in -/

theorem received_eq (c : Cpu) : received c =
    [c.reg .rax, c.reg .rdi, c.reg .rsi, c.reg .rdx, c.static .kernelCr3, c.reg .r8] :=
  rfl

/-- What is on the stack when the dispatcher is called. -/
def savedFrame (c : Cpu) : List U64 :=
  [ 0, c.reg .rbx, c.reg .rdx, c.reg .rsi, c.reg .rdi, c.reg .rbp, c.reg .r8, c.reg .r9,
    c.static .kernelCr3, c.reg .r12, c.reg .r13, c.reg .r14, c.reg .r15,
    c.rip, 0x23, c.rflags, c.reg .rsp, 0x1b ]

theorem length_savedFrame (c : Cpu) : (savedFrame c).length = frameWords := rfl

/-- The operands of the pushes, in order. -/
def saves : List Operand :=
  [ .imm 0x1b, .static .userRspScratch, .reg .r11, .imm 0x23, .reg .rcx,
    .reg .r15, .reg .r14, .reg .r13, .reg .r12, .reg .r10, .reg .r9, .reg .r8,
    .reg .rbp, .reg .rdi, .reg .rsi, .reg .rdx, .reg .rbx, .imm 0 ]

theorem entry_eq : entry = entry.take 8 ++ saves.map .push ++ entry.drop 26 := rfl

theorem value_withStack {o : Operand} (ho : o ≠ .reg .rsp) (sp : U64) (mem : U64 → U64) :
    (c.withStack sp mem).value o = c.value o := by
  cases o with
  | imm v => rfl
  | static v => rfl
  | reg r => exact Function.update_of_ne (fun heq => ho (by rw [heq])) _ _

/-- A sequence of pushes. -/
theorem execAll_push {os : List Operand} (hos : Operand.reg .rsp ∉ os) :
    c.execAll (os.map .push) = c.withStack (pushAll c.mem (c.reg .rsp) (os.map c.value)).2
      (pushAll c.mem (c.reg .rsp) (os.map c.value)).1 := by
  induction os generalizing c with
  | nil => simp [Cpu.execAll, pushAll, Cpu.withStack, Cpu.setReg]
  | cons o os ih =>
    rw [List.mem_cons, not_or] at hos
    have hvalues : os.map (c.pushWord (c.value o)).value = os.map c.value := by
      apply List.map_congr_left
      intro o' ho'
      exact value_withStack (fun heq => hos.2 (heq ▸ ho')) _ _
    show (c.pushWord (c.value o)).execAll (os.map .push) = _
    rw [ih hos.2, hvalues]
    simp [Cpu.pushWord, Cpu.withStack, Cpu.setReg, pushAll]

/-- The moves after the pushes leave the stack alone. -/
theorem stack_passArgs (c : Cpu) : (c.execAll (entry.drop 26)).mem = c.mem ∧
    (c.execAll (entry.drop 26)).reg .rsp = c.reg .rsp := ⟨rfl, rfl⟩

theorem stack_loadKernel (c : Cpu) : (c.syscall.execAll (entry.take 8)).mem = c.mem ∧
    (c.syscall.execAll (entry.take 8)).reg .rsp = c.static .kernelStackPtr ∧
    saves.map (c.syscall.execAll (entry.take 8)).value = (savedFrame c).reverse := ⟨rfl, rfl, rfl⟩

theorem atDispatch_eq (c : Cpu) : atDispatch c =
    ((c.syscall.execAll (entry.take 8)).execAll (saves.map .push)).execAll (entry.drop 26) := by
  unfold atDispatch Cpu.execAll
  rw [← List.foldl_append, ← List.foldl_append, ← List.append_assoc, ← entry_eq]

theorem holds_savedFrame (c : Cpu) :
    Holds (atDispatch c).mem ((atDispatch c).reg .rsp) (savedFrame c) := by
  have hempty : Holds c.mem (c.static .kernelStackPtr) [] := trivial
  have hlen : (savedFrame c).reverse.length + ([] : List U64).length < 2 ^ 61 := by
    rw [List.length_reverse, length_savedFrame]
    decide
  have hholds := hempty.pushAll hlen
  obtain ⟨hmem, hrsp, hvalues⟩ := stack_loadKernel c
  rw [atDispatch_eq, execAll_push (by decide), hmem, hrsp, hvalues, (stack_passArgs _).1,
    (stack_passArgs _).2]
  exact hholds

/-! ## On the way out -/

/-- The registers that the exit half of the stub leaves, over a frame like that of the entry. -/
theorem reg_leave (u : Cpu) (h : Holds c.mem (c.reg .rsp) (savedFrame u)) (r : Reg)
    (hr : r ∉ wrapperClobbers) :
    (c.execAll leave).reg r = if r = .r10 then c.static .userCr3Scratch else u.reg r := by
  obtain ⟨-, hrbx, hrdx, hrsi, hrdi, hrbp, hr8, hr9, -, hr12, hr13, hr14, hr15, -, -, -, hrsp, -,
    -⟩ := h
  cases r with
  | rax | rcx | r11 => exact absurd (by decide) hr
  | rbx => exact hrbx
  | rdx => exact hrdx
  | rsi => exact hrsi
  | rdi => exact hrdi
  | rbp => exact hrbp
  | rsp => exact hrsp
  | r8 => exact hr8
  | r9 => exact hr9
  | r10 => rfl
  | r12 => exact hr12
  | r13 => exact hr13
  | r14 => exact hr14
  | r15 => exact hr15

/-- After the call the frame is still there. -/
theorem holds_of_run (h : d.run (atDispatch c) = some c') :
    Holds c'.mem (c'.reg .rsp) (savedFrame c) := by
  rw [d.saved h .rsp (by decide)]
  exact d.frame h _ (length_savedFrame c).le (holds_savedFrame c)

/-- **All registers come back but `r10`**, which holds the page table that is returned to. -/
theorem reg_roundTrip (h : roundTrip d c = some c') {r : Reg} (hr : r ∉ wrapperClobbers) :
    c'.reg r = if r = .r10 then c'.static .userCr3Scratch else c.reg r := by
  obtain ⟨c₁, hrun, rfl⟩ := Option.map_eq_some_iff.mp h
  exact reg_leave c (holds_of_run hrun) r hr

/-! ## The contract -/

/-- **The contract is kept only by luck**: exactly if `r10` happens to hold the kernel's page table,
and also the one that is loaded for the return. -/
theorem contract_iff (d : ExternC) (c : Cpu) : Contract d c ↔
    c.reg .r10 = c.static .kernelCr3 ∧
      ∀ c', roundTrip d c = some c' → c'.static .userCr3Scratch = c.reg .r10 := by
  have hargs : received c = wrapperArgs.map c.reg ↔ c.reg .r10 = c.static .kernelCr3 := by
    rw [received_eq]
    simp [wrapperArgs, eq_comm]
  constructor
  · intro hcontract
    refine ⟨hargs.mp hcontract.args, ?_⟩
    intro c' hc'
    have hr10 := hcontract.kept c' hc' .r10 (by decide)
    rwa [reg_roundTrip hc' (by decide), if_pos rfl] at hr10
  · rintro ⟨hr10, hscratch⟩
    refine ⟨hargs.mpr hr10, ?_⟩
    intro c' hc' r hr
    rw [reg_roundTrip hc' hr]
    split
    next heq => rw [hscratch c' hc', heq]
    · rfl

/-- A dispatcher that answers 0 to every call. -/
def answerZero : ExternC where
  run c := some (c.setReg .rax 0)
  saved h r hr := by
    cases h
    exact Function.update_of_ne (fun heq => by rw [heq] at hr; exact absurd hr (by decide)) _ _
  frame h vs _ hvs := by
    cases h
    exact hvs

/-- A caller with page table `0x3000` in a kernel with page table `0x2000`. -/
def caller : Cpu where
  reg := fun _ => 0
  rip := 0x400000
  rflags := 0x202
  cr3 := 0x3000
  gsBase := 0
  kernelGsBase := 0
  static
    | .kernelStackPtr => 0x100000
    | .kernelCr3 => 0x2000
    | _ => 0
  mem := fun _ => 0

/-- `sys_move` called with the lengths 5 and 7: the dispatcher takes `0x2000` for the second one,
and the caller finds `0x3000` in `r10`. -/
theorem not_contract_move :
    received (pass [14, 0x5000, 5, 0x6000, 7] caller) = [14, 0x5000, 5, 0x6000, 0x2000, 0] ∧
    (roundTrip answerZero (pass [14, 0x5000, 5, 0x6000, 7] caller)).map (·.reg .r10)
      = some 0x3000 ∧
    ¬ Contract answerZero (pass [14, 0x5000, 5, 0x6000, 7] caller) := by
  refine ⟨rfl, rfl, ?_⟩
  intro hcontract
  have hargs := hcontract.args
  exact absurd hargs (by decide)

end BeastOs.SyscallStub
