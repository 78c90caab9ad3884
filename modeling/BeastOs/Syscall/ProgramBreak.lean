import BeastOs.Syscall.Brk

/-!
# Runs of calls that move the break

A user task calls `sys_brk` again and again. An invariant of its break and of the memory has to be
kept when the break is lowered, when it is raised, and when memory runs out halfway
(`CallsBrk.heap`).

* `brk_backed` — below the break, the heap is mapped, if no call that raises the break leaves it
  inside a page that is not mapped;
* `brk_inWindow` — the break stays in the window of 32 MiB from `HEAP_START`, and nothing is mapped
  outside, if the calls ask for no break outside.
-/

namespace BeastOs.Syscall

open Lib Paging Vmm

open Scheduler (Task)

/-! ## Runs of calls -/

/-- A call: its argument, and its result if it returns. -/
structure BrkCall where
  addr : U64
  result : Option U64

/-- The current task calls `sys_brk`. A task that is stopped holds `SCHEDULER`, so it does not call
again. -/
inductive CallsBrk (w : World) : BrkCall → World → Prop
  | returns {addr b : U64} {w' : World} : w.held = [] → sysBrk .checked addr w = .ok b w' →
      CallsBrk w ⟨addr, some b⟩ w'
  | stops {addr : U64} {e : Stop} {w' : World} : w.held = [] →
      sysBrk .checked addr w = .error e w' → CallsBrk w ⟨addr, none⟩ w'

/-- A user task is the current one. Its page table is one of those that were created since the boot.
-/
structure UserTask (w : World) (task : Task) : Prop where
  current : w.task = some task
  table : ∃ s₀ τ s, Boot s₀ ∧ Run Vmm.Step s₀ τ s ∧ s.machine = w.machine ∧
    task.pageTable ∈ s.roots

/-- The current task has the page table `r`, and `P` holds of its break and the memory. -/
def World.Heap (P : U64 → Machine → Prop) (r : U64) (w : World) : Prop :=
  ∃ task, w.task = some task ∧ task.pageTable = r ∧ P task.brk w.machine

variable {w w' : World} {task : Task} {c : BrkCall} {r b : U64} {P : U64 → Machine → Prop}
  {kernel : Nat → Set U64} {roots : Set U64} {own : U64 → Option (U64 × List Nat)} {σ : Machine}

theorem task_withBrk (h : w.task = some task) (addr : U64) :
    (w.withBrk task addr).task = some { task with brk := addr } :=
  task_setTask h _

section

variable (h : CallsBrk w c w')
include h

/-- What a call can do, and what it returns. -/
theorem CallsBrk.cases (htask : w.task = some task) : ∃ result, BrkCases w task c.addr result ∧
      ((∃ b, result = .ok b w' ∧ c.result = some b) ∨
        ∃ e, result = .error e w' ∧ c.result = none) := by
  cases h with
  | returns hheld hok => exact ⟨_, sysBrk_cases hheld htask _, Or.inl ⟨_, hok, rfl⟩⟩
  | stops hheld herr => exact ⟨_, sysBrk_cases hheld htask _, Or.inr ⟨_, herr, rfl⟩⟩

/-- **The rule for an invariant of the break and the memory.** -/
theorem CallsBrk.heap (htask : w.task = some task) (hP : P task.brk w.machine)
    (hshrink : c.addr ≠ 0 → c.addr < task.brk → P c.addr w.machine) (hgrow : Grows task.brk c.addr →
      P task.brk (after (growHeap task.pageTable (startPage task.brk) (endPage c.addr) w.machine)) ∧
        ∀ σ, growHeap task.pageTable (startPage task.brk) (endPage c.addr) w.machine = .ok () σ →
          P c.addr σ) : w'.Heap P task.pageTable := by
  obtain ⟨result, hcases, hresult⟩ := h.cases htask
  rcases hresult with ⟨b, rfl, -⟩ | ⟨e, rfl, -⟩
  · cases hcases with
    | ask | tooFar => exact ⟨task, htask, rfl, hP⟩
    | shrink h0 hlt => exact ⟨_, task_withBrk htask _, rfl, hshrink h0 hlt⟩
    | @grow σ hgrows hok =>
      exact ⟨_, task_withBrk (w := w.withMachine σ) htask _, rfl, (hgrow hgrows).2 σ hok⟩
    | noMemory hgrows herr =>
      have hfail := (hgrow hgrows).1
      rw [herr, after_error] at hfail
      exact ⟨task, htask, rfl, hfail⟩
  · cases hcases with
    | deadlock => exact ⟨task, htask, rfl, hP⟩

/-- A result that is not negative is the break. -/
theorem CallsBrk.result (htask : w.task = some task) (hb : c.result = some b)
    (hpos : b.slt 0 = false) : ∃ task', w'.task = some task' ∧ task'.brk = b := by
  obtain ⟨result, hcases, hresult⟩ := h.cases htask
  rcases hresult with ⟨b', heq, hb'⟩ | ⟨e, -, hnone⟩
  · obtain rfl : b' = b := Option.some.inj (hb'.symm.trans hb)
    rw [heq] at hcases
    cases hcases with
    | ask => exact ⟨task, htask, rfl⟩
    | shrink => exact ⟨_, task_withBrk htask _, rfl⟩
    | tooFar | noMemory => exact absurd hpos (by decide)
    | @grow σ => exact ⟨_, task_withBrk (w := w.withMachine σ) htask _, rfl⟩
  · rw [hnone] at hb
    cases hb

end

/-! ## Memory below the break -/

/-- From the start of the heap to `b`, all is mapped. -/
def Backed (σ : Machine) (r b : U64) : Prop :=
  ∀ a, Task.heapStart ≤ a → a < b → Mapped σ r a

/-- If the call raises the break, then to the end of a page or into a page that is mapped. -/
def EndsMapped (w : World) (addr : U64) : Prop :=
  ∀ task, w.task = some task → Grows task.brk addr →
    addr &&& 0xFFF = 0 ∨ addr ≤ Task.heapStart ∨ Mapped w.machine task.pageTable addr

/-! ### The pages of a growth -/

section Growth

variable {brk addr page : U64}

section

variable (h : Grows brk addr) (hbrk : brk.toNat < 2 ^ 46)
include h hbrk

theorem Grows.le_near : brk.toNat ≤ addr.toNat ∧ addr.toNat ≤ brk.toNat + 2 ^ 25 := by
  have hsum : (brk + maxHeap).toNat = brk.toNat + 2 ^ 25 := by
    rw [BitVec.toNat_add]
    exact Nat.mod_eq_of_lt (by show brk.toNat + 2 ^ 25 < 2 ^ 64; omega)
  have hnear : addr.toNat ≤ (brk + maxHeap).toNat := h.near
  rw [hsum] at hnear
  exact ⟨h.ge, hnear⟩

theorem Grows.mem_pages : page ∈ pagesBetween (startPage brk) (endPage addr) ↔
      (brk.toNat + 4095) / 4096 * 4096 ≤ page.toNat ∧ page.toNat < addr.toNat / 4096 * 4096 ∧
        page.toNat % 4096 = 0 := by
  have hstart : (startPage brk).toNat = _ := toNat_startPage (by omega)
  have hend := toNat_endPage addr
  rw [mem_pagesBetween h.pages (by omega) (by omega), hstart, hend]

theorem Grows.length_pages :
    (brk.toNat + 4095) / 4096 + (pagesBetween (startPage brk) (endPage addr)).length =
      addr.toNat / 4096 ∧ 0 < (pagesBetween (startPage brk) (endPage addr)).length := by
  have hstart : (startPage brk).toNat = _ := toNat_startPage (by omega)
  have hend := toNat_endPage addr
  have hlt : (startPage brk).toNat < (endPage addr).toNat := h.pages
  have hsub : (endPage addr - startPage brk).toNat = (endPage addr).toNat - (startPage brk).toNat :=
    BitVec.toNat_sub_of_le (Nat.le_of_lt hlt)
  rw [length_pagesBetween, hsub]
  omega

theorem Grows.growHeap_spec (hinv : Inv kernel roots own σ) (hr : r ∈ roots) :
    Grown kernel roots r σ (after (growHeap r (startPage brk) (endPage addr) σ))
        (pagesBetween (startPage brk) (endPage addr)) ∧
      ∀ σ', growHeap r (startPage brk) (endPage addr) σ = .ok () σ' →
        (∀ page ∈ pagesBetween (startPage brk) (endPage addr), ∀ v, path v = path page →
          Mapped σ' r v) ∧
        σ'.pmm.freeSet.card + (pagesBetween (startPage brk) (endPage addr)).length ≤
          σ.pmm.freeSet.card := by
  refine Syscall.growHeap_spec hinv hr fun page hpage => userHalf_of_lt ?_
  have hmem := (h.mem_pages hbrk).mp hpage
  have hnear := h.le_near hbrk
  omega

end

end Growth

/-! ### The invariant -/

/-- All below the break is mapped. How far the break can get is bounded by the free pages: a call
that takes `n` of them raises it by less than `n + 2` pages. -/
structure BackedBreak (kernel : Nat → Set U64) (roots : Set U64) (r brk : U64) (σ : Machine) :
    Prop where
  owned : ∃ own, Inv kernel roots own σ
  backed : Backed σ r brk
  bound : brk.toNat + 3 * 4096 * σ.pmm.freeSet.card ≤ 2 ^ 45 + 3 * 2 ^ 32

theorem path_endPage (a : U64) : path a = path (endPage a) := by
  rw [path_eq_iff, toNat_endPage]
  omega

/-- The pages that a growth maps fill the heap up to the new break. -/
theorem Backed.grow {σ' : Machine} {brk addr : U64} (h : Backed σ r brk) (hgrows : Grows brk addr)
    (hbrk : brk.toNat < 2 ^ 46) (hinv : Inv kernel roots own σ') (hr : r ∈ roots)
    (hkept : ∀ v, userHalf (pml4Index v) → Mapped σ r v → Mapped σ' r v)
    (hpages : ∀ page ∈ pagesBetween (startPage brk) (endPage addr), ∀ v, path v = path page →
      Mapped σ' r v)
    (hends : addr &&& 0xFFF = 0 ∨ addr ≤ Task.heapStart ∨ Mapped σ r addr) : Backed σ' r addr := by
  intro a hstart ha
  have hstart' : 2 ^ 45 ≤ a.toNat := hstart
  have ha' : a.toNat < addr.toNat := ha
  have hnear := hgrows.le_near hbrk
  have hend := toNat_endPage a
  have hpath := path_endPage a
  have huser : userHalf (pml4Index (endPage a)) := userHalf_of_lt (by omega)
  -- the page of `a` lies below the old break, is one of the new ones, or is the page of `addr`
  by_cases hold : (endPage a).toNat < brk.toNat
  · have hmapped : Mapped σ r (endPage a) :=
      h (endPage a) (show 2 ^ 45 ≤ (endPage a).toNat by omega) hold
    exact hinv.mapped_of_path hr huser hpath (hkept _ huser hmapped)
  · by_cases hnew : (endPage a).toNat < addr.toNat / 4096 * 4096
    · refine hpages (endPage a) ((hgrows.mem_pages hbrk).mpr ?_) a hpath
      omega
    · have hsame : path a = path addr := path_eq_iff.mpr (by omega)
      have huser' : userHalf (pml4Index addr) := userHalf_of_lt (by omega)
      rcases hends with haligned | hlow | hmapped
      · have hmask : (addr &&& 0xFFF).toNat = addr.toNat % 4096 := by
          rw [BitVec.toNat_and]
          exact Nat.and_two_pow_sub_one_eq_mod addr.toNat 12
        rw [haligned] at hmask
        have hzero : addr.toNat % 4096 = 0 := hmask.symm
        omega
      · have hlow' : addr.toNat ≤ 2 ^ 45 := hlow
        omega
      · exact hinv.mapped_of_path hr huser' hsame (hkept _ huser' hmapped)

theorem CallsBrk.backed (h : CallsBrk w c w') (hr : r ∈ roots)
    (hw : w.Heap (BackedBreak kernel roots r) r) (hends : EndsMapped w c.addr) :
    w'.Heap (BackedBreak kernel roots r) r := by
  obtain ⟨task, htask, rfl, hP⟩ := hw
  obtain ⟨own, hinv⟩ := hP.owned
  have hbound := hP.bound
  refine h.heap htask hP ?_ ?_
  · intro _ hlt
    have hlt' : c.addr.toNat < task.brk.toNat := hlt
    refine ⟨hP.owned, fun a hstart ha => hP.backed a hstart (BitVec.lt_trans ha hlt), ?_⟩
    omega
  · intro hgrows
    have hbrk : task.brk.toNat < 2 ^ 46 := by omega
    obtain ⟨hgrown, hok⟩ := hgrows.growHeap_spec hbrk hinv hr
    constructor
    · refine ⟨hgrown.owned, ?_, ?_⟩
      · intro a hstart ha
        have ha' : a.toNat < task.brk.toNat := ha
        exact hgrown.mapped a (userHalf_of_lt (by omega)) (hP.backed a hstart ha)
      · have hfree := Finset.card_le_card hgrown.free_le
        omega
    · intro σ' heq
      rw [heq, after_ok] at hgrown
      obtain ⟨hpages, hcard⟩ := hok σ' heq
      obtain ⟨own', hinv'⟩ := hgrown.owned
      refine ⟨hgrown.owned, ?_, ?_⟩
      · exact hP.backed.grow hgrows hbrk hinv' hr hgrown.mapped hpages (hends task htask hgrows)
      · have hlength := hgrows.length_pages hbrk
        omega

/-- The task has just been created. -/
theorem UserTask.backed (h : UserTask w task) (hbrk : task.brk = Task.heapStart) :
    ∃ kernel roots, task.pageTable ∈ roots ∧
      w.Heap (BackedBreak kernel roots task.pageTable) task.pageTable := by
  obtain ⟨s₀, τ, s, hboot, hrun, hmachine, hr⟩ := h.table
  obtain ⟨own, hinv⟩ := owned_of_run hboot hrun
  rw [hmachine] at hinv
  refine ⟨s.kernel, s.roots, hr, task, h.current, rfl, ⟨own, hinv⟩, ?_, ?_⟩
  · intro a hstart ha
    rw [hbrk] at ha
    exact absurd ha (BitVec.not_lt.mpr hstart)
  · have hcard := Finset.card_le_card w.machine.pmm.freeSet_subset
    rw [Finset.card_range] at hcard
    have hpages : Pmm.maxPages = 2 ^ 20 := rfl
    have hstart : task.brk.toNat = 2 ^ 45 := by rw [hbrk]; rfl
    omega

/-- **The break is backed by memory** as long as it is not left inside a page that is not mapped. -/
theorem brk_backed {τ : List (Transition World BrkCall)} (h : UserTask w task)
    (hbrk : task.brk = Task.heapStart) (hrun : Run CallsBrk w τ w')
    (hends : ∀ t ∈ τ, EndsMapped t.src t.label.addr) :
    ∀ t ∈ τ, ∀ b, t.label.result = some b → b.slt 0 = false →
      Backed t.dst.machine task.pageTable b := by
  obtain ⟨kernel, roots, hr, hstart⟩ := h.backed hbrk
  refine hrun.forall_of_invariant (C := fun t => EndsMapped t.src t.label.addr) hstart ?_ hends
  intro m c m' hm hcall hcond
  have hm' := hcall.backed hr hm hcond
  refine ⟨hm', fun b hresult hpos => ?_⟩
  obtain ⟨task', htask', -, -⟩ := hm
  obtain ⟨last, hlast, rfl⟩ := hcall.result htask' hresult hpos
  obtain ⟨last', hlast', -, hbacked⟩ := hm'
  obtain rfl : last' = last := Option.some.inj (hlast'.symm.trans hlast)
  exact hbacked.backed

/-! ### A hole in the heap -/

/-- A user task with a page table at 0x2000. There are six free pages. -/
def smallTask : Task :=
  (Task.newUser ⟨0, 0, 0⟩ (some 0x9000) 0 0x400000 0x8000 "init" 1 0x2000).get rfl

def smallWorld : World where
  held := []
  sched := { Scheduler.new with
    tasks := fun i => if i = 0 then some smallTask else none
    current := 0 }
  fds := fun _ => []
  machine := (smallSystem.create 0x2000).machine
  devices := ⟨⟨0, 0, false, false, false⟩, ⟨none, 0, 0, 0⟩, [], [], .new, fun _ _ => none⟩
  keyboard := .new
  changes := []

theorem userTask_smallWorld : UserTask smallWorld smallTask where
  current := rfl
  table := by
    refine ⟨_, _, _, boot_smallSystem, Run.single step_create_smallSystem, ?_, Or.inr rfl⟩
    dsimp only [smallWorld]

theorem callsBrk_of_returned {addr : U64} (hheld : w.held = [])
    (h : returned (sysBrk .checked addr w) = some b) :
    CallsBrk w ⟨addr, some b⟩ (ended (sysBrk .checked addr w)) :=
  .returns hheld (eq_ok_of_returned h)

/-- The break is raised by a page and then by another. -/
theorem callsBrk_twice : ∃ m w',
    CallsBrk smallWorld ⟨Task.heapStart + 0x1000, some (Task.heapStart + 0x1000)⟩ m ∧
      CallsBrk m ⟨Task.heapStart + 0x2000, some (Task.heapStart + 0x2000)⟩ w' := by
  have hrun : returned (sysBrk .checked (Task.heapStart + 0x1000) smallWorld) =
        some (Task.heapStart + 0x1000) ∧
      (ended (sysBrk .checked (Task.heapStart + 0x1000) smallWorld)).held = [] ∧
      returned (sysBrk .checked (Task.heapStart + 0x2000)
        (ended (sysBrk .checked (Task.heapStart + 0x1000) smallWorld))) =
          some (Task.heapStart + 0x2000) := by
    decide +kernel
  obtain ⟨hfirst, hheld, hsecond⟩ := hrun
  exact ⟨_, _, callsBrk_of_returned rfl hfirst, callsBrk_of_returned hheld hsecond⟩

/-- After both calls there are two pages. -/
theorem brk_backed_twice : ∃ τ w', Run CallsBrk smallWorld τ w' ∧ τ.length = 2 ∧
    Backed w'.machine smallTask.pageTable (Task.heapStart + 0x2000) := by
  obtain ⟨m, w', hfirst, hsecond⟩ := callsBrk_twice
  have hrun : Run CallsBrk smallWorld _ w' := .cons hfirst (.single hsecond)
  have hends : EndsMapped smallWorld (Task.heapStart + 0x1000) := fun _ _ _ => .inl (by decide)
  have hends' : EndsMapped m (Task.heapStart + 0x2000) := fun _ _ _ => .inl (by decide)
  have hbacked := brk_backed userTask_smallWorld rfl hrun
    (List.forall_mem_cons.mpr ⟨hends, List.forall_mem_singleton.mpr hends'⟩)
  have hlast := (List.forall_mem_cons.mp hbacked).2 _ (List.mem_singleton_self _)
  exact ⟨_, w', hrun, rfl, hlast _ rfl (by decide)⟩

/-- A break in the middle of the second page: only the first one is mapped. -/
theorem brk_leaves_hole :
    UserTask smallWorld smallTask ∧ smallTask.brk = Task.heapStart ∧
      ∃ w', CallsBrk smallWorld ⟨Task.heapStart + 0x1800, some (Task.heapStart + 0x1800)⟩ w' ∧
        ¬ Backed w'.machine smallTask.pageTable (Task.heapStart + 0x1800) := by
  have hrun : returned (sysBrk .checked (Task.heapStart + 0x1800) smallWorld) =
        some (Task.heapStart + 0x1800) ∧
      (translate (ended (sysBrk .checked (Task.heapStart + 0x1800) smallWorld)).machine
        smallTask.pageTable (Task.heapStart + 0x1000)).isSome = false := by
    decide +kernel
  obtain ⟨hreturned, hhole⟩ := hrun
  refine ⟨userTask_smallWorld, rfl, _, callsBrk_of_returned rfl hreturned, fun h => ?_⟩
  have hpage := (h (Task.heapStart + 0x1000) (by decide) (by decide)).present
  rw [hhole] at hpage
  cases hpage

/-! ## The window of the heap -/

def InWindow (brk : U64) : Prop := Task.heapStart ≤ brk ∧ brk ≤ Task.heapStart + maxHeap

/-- The call asks for a break in the window, or gets nothing. -/
def AsksInWindow (w : World) (addr : U64) : Prop :=
  ∀ task, w.task = some task → addr ≠ 0 → addr ≤ task.brk + maxHeap → InWindow addr

/-- A canonical address that is not in the window. Those in slot 510 show the tables themselves. -/
structure Outside (v : U64) : Prop where
  canonical : v.toNat < 2 ^ 47 ∨ 2 ^ 64 - 2 ^ 47 ≤ v.toNat
  slot : pml4Index v ≠ recursiveEntry
  outside : ¬ (Task.heapStart ≤ v ∧ v < Task.heapStart + maxHeap)

/-- The break is in the window, and outside the memory is as in `σ₀`. -/
structure WindowBreak (kernel : Nat → Set U64) (roots : Set U64) (r : U64) (σ₀ : Machine)
    (brk : U64) (σ : Machine) : Prop where
  owned : ∃ own, Inv kernel roots own σ
  window : InWindow brk
  outside : ∀ v, Outside v → translate σ r v = translate σ₀ r v

theorem InWindow.toNat (h : InWindow b) : 2 ^ 45 ≤ b.toNat ∧ b.toNat ≤ 2 ^ 45 + 2 ^ 25 := h

/-- The pages of a growth in the window are in the window. -/
theorem Outside.path_ne {v brk addr page : U64} (h : Outside v) (hbrk : InWindow brk)
    (haddr : InWindow addr) (hgrows : Grows brk addr)
    (hpage : page ∈ pagesBetween (startPage brk) (endPage addr)) : path v ≠ path page := by
  have hbrk' := hbrk.toNat
  have haddr' := haddr.toNat
  have hmem := (hgrows.mem_pages (by omega)).mp hpage
  intro hpath
  have hindex : pml4Index v = pml4Index page := (List.cons.inj hpath).1
  have huser : userHalf (pml4Index page) := userHalf_of_lt (by omega)
  rcases h.canonical with hlow | hhigh
  · have hsame := path_eq_iff.mp hpath
    refine h.outside ⟨show 2 ^ 45 ≤ v.toNat by omega, show v.toNat < 2 ^ 45 + 2 ^ 25 by omega⟩
  · rw [← hindex] at huser
    have hslot : (v >>> 39 &&& 0x1FF).toNat < 256 := huser
    rw [toNat_shift_and] at hslot
    omega

theorem CallsBrk.inWindow {σ₀ : Machine} (h : CallsBrk w c w') (hr : r ∈ roots)
    (hw : w.Heap (WindowBreak kernel roots r σ₀) r) (hasks : AsksInWindow w c.addr) :
    w'.Heap (WindowBreak kernel roots r σ₀) r := by
  obtain ⟨task, htask, rfl, hP⟩ := hw
  obtain ⟨own, hinv⟩ := hP.owned
  have hbrk := hP.window.toNat
  have hsum : (task.brk + maxHeap).toNat = task.brk.toNat + 2 ^ 25 := by
    rw [BitVec.toNat_add]
    exact Nat.mod_eq_of_lt (by show task.brk.toNat + 2 ^ 25 < 2 ^ 64; omega)
  refine h.heap htask hP ?_ ?_
  · intro h0 hlt
    have hlt' : c.addr.toNat < task.brk.toNat := hlt
    have hnear : c.addr ≤ task.brk + maxHeap := by
      show c.addr.toNat ≤ (task.brk + maxHeap).toNat
      omega
    exact ⟨hP.owned, hasks task htask h0 hnear, hP.outside⟩
  · intro hgrows
    have haddr := hasks task htask hgrows.ne_zero hgrows.near
    obtain ⟨hgrown, -⟩ := hgrows.growHeap_spec (by omega) hinv hr
    have houtside : ∀ v, Outside v → translate _ task.pageTable v = translate σ₀ task.pageTable v :=
      fun v hv => (hgrown.translate_eq v hv.slot fun page hpage =>
        hv.path_ne hP.window haddr hgrows hpage).trans (hP.outside v hv)
    refine ⟨⟨hgrown.owned, hP.window, houtside⟩, fun σ' heq => ?_⟩
    rw [heq, after_ok] at hgrown houtside
    exact ⟨hgrown.owned, haddr, houtside⟩

/-- **The break stays in the window, and nothing is mapped outside,** as long as no call asks for a
break outside. -/
theorem brk_inWindow {τ : List (Transition World BrkCall)} {pf : Scheduler.Platform}
    {phys : Option U64} {id : Scheduler.TaskId} {entry userStackTop pageTable : U64}
    {name : String} {priority : Nat} {fresh : Task} (h : UserTask w task)
    (hnew : Task.newUser pf phys id entry userStackTop name priority pageTable = some fresh)
    (hbrk : task.brk = fresh.brk) (hrun : Run CallsBrk w τ w')
    (hasks : ∀ t ∈ τ, AsksInWindow t.src t.label.addr) :
    (∃ task', w'.task = some task' ∧ InWindow task'.brk) ∧
      ∀ v, Outside v →
        translate w'.machine task.pageTable v = translate w.machine task.pageTable v := by
  obtain ⟨s₀, τ₀, s, hboot, hrun₀, hmachine, hr⟩ := h.table
  obtain ⟨own, hinv⟩ := owned_of_run hboot hrun₀
  rw [hmachine] at hinv
  have hstart : InWindow task.brk := by
    rw [hbrk, (Task.newUser_eq_some hnew).2.1]
    exact ⟨BitVec.le_refl _, by decide⟩
  have hw : w.Heap (WindowBreak s.kernel s.roots task.pageTable w.machine) task.pageTable :=
    ⟨task, h.current, rfl, ⟨own, hinv⟩, hstart, fun _ _ => rfl⟩
  obtain ⟨task', htask', -, hP⟩ :=
    hrun.invariant (C := fun t => AsksInWindow t.src t.label.addr) hw
      (fun m c m' hm hcall hcond => hcall.inWindow hr hm hcond) hasks
  exact ⟨⟨task', htask', hP.window⟩, hP.outside⟩

/-- Two pages of heap, and nothing is mapped where programs are loaded. -/
theorem brk_inWindow_twice : ∃ τ w', Run CallsBrk smallWorld τ w' ∧ τ.length = 2 ∧
    (∃ task, w'.task = some task ∧ InWindow task.brk) ∧
      translate w'.machine smallTask.pageTable 0x400000 = none := by
  obtain ⟨m, w', hfirst, hsecond⟩ := callsBrk_twice
  have hrun : Run CallsBrk smallWorld _ w' := .cons hfirst (.single hsecond)
  have hnew : Task.newUser ⟨0, 0, 0⟩ (some 0x9000) 0 0x400000 0x8000 "init" 1 0x2000 =
      some smallTask := rfl
  have hasks : AsksInWindow smallWorld (Task.heapStart + 0x1000) :=
    fun _ _ _ _ => ⟨by decide, by decide⟩
  have hasks' : AsksInWindow m (Task.heapStart + 0x2000) :=
    fun _ _ _ _ => ⟨by decide, by decide⟩
  obtain ⟨hbrk, hsame⟩ := brk_inWindow userTask_smallWorld hnew rfl hrun
    (List.forall_mem_cons.mpr ⟨hasks, List.forall_mem_singleton.mpr hasks'⟩)
  refine ⟨_, w', hrun, rfl, hbrk, (hsame 0x400000 ⟨by decide, by decide, by decide⟩).trans ?_⟩
  decide +kernel

/-- The break is lowered to 1 and raised to 0x3000, which maps a page at 0x1000. -/
theorem brk_leaves_window :
    UserTask smallWorld smallTask ∧ smallTask.brk = Task.heapStart ∧ Outside 0x1000 ∧
      translate smallWorld.machine smallTask.pageTable 0x1000 = none ∧
      ∃ m w', CallsBrk smallWorld ⟨1, some 1⟩ m ∧ CallsBrk m ⟨0x3000, some 0x3000⟩ w' ∧
        (∃ task, m.task = some task ∧ ¬ InWindow task.brk) ∧
        (translate w'.machine smallTask.pageTable 0x1000).isSome = true := by
  have houtside : Outside 0x1000 := ⟨by decide, by decide, by decide⟩
  have hrun : translate smallWorld.machine smallTask.pageTable 0x1000 = none ∧
      returned (sysBrk .checked 1 smallWorld) = some 1 ∧
      (ended (sysBrk .checked 1 smallWorld)).held = [] ∧
      returned (sysBrk .checked 0x3000 (ended (sysBrk .checked 1 smallWorld))) = some 0x3000 ∧
      (translate (ended (sysBrk .checked 0x3000 (ended (sysBrk .checked 1 smallWorld)))).machine
        smallTask.pageTable 0x1000).isSome = true := by
    decide +kernel
  obtain ⟨hbefore, hreturned, hheld, hreturned', hafter⟩ := hrun
  have hlower := callsBrk_of_returned rfl hreturned
  obtain ⟨task, htask, hbrk⟩ := hlower.result userTask_smallWorld.current rfl (by decide)
  refine ⟨userTask_smallWorld, rfl, houtside, hbefore, _, _, hlower,
    callsBrk_of_returned hheld hreturned', ⟨task, htask, ?_⟩, hafter⟩
  rw [hbrk]
  exact fun h => absurd h.1 (by decide)

end BeastOs.Syscall
