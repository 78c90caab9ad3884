import BeastOs.Memory.UserPages
import BeastOs.Syscall.World

/-!
# The program break

`sys_brk` of `kernel/src/syscall/mod.rs`. To raise the break it rounds the old one up and the new
one down to pages and maps the pages in between. If there is none, it takes `SCHEDULER` a second
time and never returns.

So the break is backed by memory as long as each new break is the end of a page, or lies in a page
that is mapped already; and it stays in the heap's window as long as the calls ask for it.

Main result: `sysBrk_cases`; for sequences of calls see `ProgramBreak`.
-/

namespace BeastOs.Syscall

open List Lib PageTableEntry Paging

/-! ## The call -/

/-- `MAX_HEAP`: 32 MiB -/
def maxHeap : U64 := 32 * 1024 * 1024

def heapFlags : U64 := Flags.present ||| Flags.writable ||| Flags.user

def startPage (brk : U64) : U64 := (brk + 4095) &&& ~~~0xFFF

def endPage (addr : U64) : U64 := addr &&& ~~~0xFFF

/-- `(start_page..end_page).step_by(4096)` -/
def pagesBetween (first last : U64) : List U64 :=
  (List.range ((last - first).toNat / 4096)).map fun i => first + BitVec.ofNat 64 (i * 4096)

def mapHeapPage (cr3 page : U64) : Vmm Unit := do
  let phys ← Vmm.allocPage "ENOMEM"
  Vmm.zeroPage phys
  Vmm.mapPageWithFlags cr3 page phys heapFlags

def growHeap (cr3 first last : U64) : Vmm Unit := do
  Vmm.new cr3
  (pagesBetween first last).forM (mapHeapPage cr3)

def World.withMachine (w : World) (machine : Machine) : World := { w with machine }

/-- Whether an operation of the memory manager succeeds. -/
def onMachine (x : Vmm Unit) : Sys Bool := fun w =>
  match x w.machine with
  | .ok _ σ => .ok true (w.withMachine σ)
  | .error _ σ => .ok false (w.withMachine σ)

def World.setTask (w : World) (slot : Scheduler.TaskId) (task : Scheduler.Task) : World :=
  { w with sched := w.sched.setTask slot task }

/-- `if let Some(ref mut task) = sched.tasks[slot] { task.brk = addr; }` -/
def setBrk (slot : Scheduler.TaskId) (addr : U64) : Sys Unit :=
  modify fun w =>
    match w.sched.tasks slot with
    | none => w
    | some task => w.setTask slot { task with brk := addr }

def sysBrk (k : Locks) (addr : U64) : Sys U64 := do
  k.acquire .scheduler
  let (slot, task) ← currentTask
  match task with
  | none =>
    k.release .scheduler
    return -1
  | some task =>
    if addr = 0 then
      k.release .scheduler
      return task.brk
    else if addr < task.brk then
      setBrk slot addr
      k.release .scheduler
      return addr
    else if addr > task.brk + maxHeap then
      k.release .scheduler
      return -1
    else if endPage addr > startPage task.brk then
      k.release .scheduler
      if ← onMachine (growHeap task.pageTable (startPage task.brk) (endPage addr)) then
        k.locked .scheduler (setBrk slot addr)
        return addr
      else return -1
    else
      -- the first guard is still alive
      k.locked .scheduler (setBrk slot addr)
      k.release .scheduler
      return addr

/-- The current task. -/
def World.task (w : World) : Option Scheduler.Task :=
  (w.sched.taskAt w.sched.current).join

/-- The current task has this break. -/
def World.withBrk (w : World) (task : Scheduler.Task) (addr : U64) : World :=
  w.setTask w.sched.current { task with brk := addr }

/-- The call raises the break by pages. -/
structure Grows (brk addr : U64) : Prop where
  ne_zero : addr ≠ 0
  ge : brk ≤ addr
  near : addr ≤ brk + maxHeap
  pages : startPage brk < endPage addr

/-- What a call of a task with the break `brk` can do. -/
inductive BrkCases (w : World) (task : Scheduler.Task) (addr : U64) :
    EStateM.Result Stop World U64 → Prop
  | ask : addr = 0 → BrkCases w task addr (.ok task.brk w)
  | shrink : addr ≠ 0 → addr < task.brk → BrkCases w task addr (.ok addr (w.withBrk task addr))
  | tooFar : addr ≠ 0 → task.brk + maxHeap < addr → BrkCases w task addr (.ok (-1) w)
  | grow {σ : Machine} : Grows task.brk addr →
      growHeap task.pageTable (startPage task.brk) (endPage addr) w.machine = .ok () σ →
      BrkCases w task addr (.ok addr ((w.withMachine σ).withBrk task addr))
  | noMemory {m : String} {σ : Machine} : Grows task.brk addr →
      growHeap task.pageTable (startPage task.brk) (endPage addr) w.machine = .error m σ →
      BrkCases w task addr (.ok (-1) (w.withMachine σ))
  | deadlock : addr ≠ 0 → task.brk ≤ addr → addr ≤ task.brk + maxHeap →
      ¬ startPage task.brk < endPage addr →
      BrkCases w task addr (.error (.acquires .scheduler) (w.holding [.scheduler]))

variable {w w' : World} {task : Scheduler.Task} {addr : U64}

theorem taskAt_of_task (h : w.task = some task) :
    w.sched.taskAt w.sched.current = some (some task) := by
  unfold World.task at h
  cases htask : w.sched.taskAt w.sched.current with
  | none =>
    rw [htask] at h
    cases h
  | some t =>
    rw [htask] at h
    exact congrArg some h

@[simp] theorem World.withBrk_holding (w : World) (held : List Lock) (task : Scheduler.Task)
    (addr : U64) : (w.holding held).withBrk task addr = (w.withBrk task addr).holding held := rfl

theorem tasks_of_task (h : w.task = some task) : w.sched.tasks w.sched.current = some task := by
  have hat := taskAt_of_task h
  unfold Scheduler.taskAt at hat
  split at hat
  · exact Option.some.inj hat
  · cases hat

/-- The current task is replaced. -/
theorem task_setTask (h : w.task = some task) (task' : Scheduler.Task) :
    (w.setTask w.sched.current task').task = some task' := by
  have hat := taskAt_of_task h
  unfold Scheduler.taskAt at hat
  split at hat
  · next hlt =>
      have hself : (w.setTask w.sched.current task').sched.tasks w.sched.current = some task' :=
        if_pos rfl
      show Option.join (if w.sched.current < Scheduler.maxTasks then _ else _) = _
      rw [if_pos hlt]
      exact hself
  · cases hat

theorem setBrk_eq (htask : w.task = some task) (addr : U64) :
    setBrk w.sched.current addr w = .ok () (w.withBrk task addr) := by
  show EStateM.Result.ok () (match w.sched.tasks w.sched.current with
    | none => w
    | some task => w.setTask w.sched.current { task with brk := addr }) = _
  rw [tasks_of_task htask]
  rfl

theorem currentTask_eq (htask : w.task = some task) :
    currentTask w = .ok (w.sched.current, some task) w := by
  unfold currentTask
  rw [taskAt_of_task htask]

/-- A guard in a call that holds no lock. -/
theorem locked_eq {α : Type} {a : α} {l : Lock} {body : Sys α} (hheld : w.held = [])
    (hheld' : w'.held = []) (hbody : body (w.holding [l]) = .ok a (w'.holding [l])) :
    Locks.checked.locked l body w = .ok a w' := by
  have hlocked := Locks.locked_checked not_mem_nil hbody
  rwa [World.holding_nil hheld, World.holding_nil hheld'] at hlocked

theorem task_holding (htask : w.task = some task) (held : List Lock) :
    (w.holding held).task = some task := htask

theorem userCr3_eq (hheld : w.held = []) (htask : w.task = some task) :
    userCr3 .checked w = .ok task.pageTable w := by
  apply locked_eq hheld hheld
  rw [bind_of_ok (currentTask_eq (task_holding htask _))]
  rfl

/-- Growing the heap does not touch the tasks. -/
theorem onMachine_eq (x : Vmm Unit) (w : World) : (∃ σ, x w.machine = .ok () σ ∧
      onMachine x w = .ok true (w.withMachine σ)) ∨
    ∃ m σ, x w.machine = .error m σ ∧ onMachine x w = .ok false (w.withMachine σ) := by
  unfold onMachine
  cases x w.machine with
  | ok a σ => exact .inl ⟨σ, rfl, rfl⟩
  | error m σ => exact .inr ⟨m, σ, rfl, rfl⟩

/-- **What a call of `sys_brk` does**, case by case. -/
theorem sysBrk_cases (hheld : w.held = []) (htask : w.task = some task) (addr : U64) :
    BrkCases w task addr (sysBrk .checked addr w) := by
  have hself := World.holding_nil hheld
  have htask' : ∀ held, (w.holding held).task = some task := fun _ => htask
  have hnot : Lock.scheduler ∉ [] := not_mem_nil
  unfold sysBrk
  rw [← hself, bind_of_ok (Locks.acquire_checked hnot), bind_of_ok (currentTask_eq (htask' _)),
    hself]
  dsimp only [World.holding_sched]
  split
  · next h0 =>
      rw [bind_of_ok Locks.release_checked, hself]
      exact .ask h0
  split
  · next h0 hlt =>
      have hset := setBrk_eq (htask' [.scheduler]) addr
      rw [World.holding_sched, World.withBrk_holding] at hset
      rw [bind_of_ok hset, bind_of_ok Locks.release_checked, ← World.withBrk_holding, hself]
      exact .shrink h0 hlt
  split
  · next h0 _ hfar =>
      rw [bind_of_ok Locks.release_checked, hself]
      exact .tooFar h0 hfar
  split
  · next h0 hge hnear hpages =>
      have hgrows : Grows task.brk addr :=
        ⟨h0, BitVec.not_lt.mp hge, BitVec.not_lt.mp hnear, hpages⟩
      rw [bind_of_ok Locks.release_checked, hself]
      rcases onMachine_eq (growHeap task.pageTable (startPage task.brk) (endPage addr)) w with
        ⟨σ, hok, heq⟩ | ⟨m, σ, herr, heq⟩
      · rw [bind_of_ok heq, if_pos rfl]
        have hself' : (w.withMachine σ).holding [] = w.withMachine σ :=
          congrArg (·.withMachine σ) hself
        have hset : setBrk w.sched.current addr ((w.withMachine σ).holding [.scheduler]) =
            .ok () (((w.withMachine σ).withBrk task addr).holding [.scheduler]) :=
          setBrk_eq (w := (w.withMachine σ).holding [.scheduler]) htask addr
        rw [← hself', bind_of_ok (Locks.locked_checked hnot hset), ← World.withBrk_holding, hself']
        exact .grow hgrows hok
      · rw [bind_of_ok heq]
        exact .noMemory hgrows herr
  · next h0 hge hnear hpages =>
      exact .deadlock h0 (BitVec.not_lt.mp hge) (BitVec.not_lt.mp hnear) hpages

/-! ## Growing the heap -/

open Vmm

section Grow

variable {kernel : Nat → Set U64} {roots : Set U64} {own : U64 → Option (U64 × List Nat)}
  {σ σ' : Machine} {r page v : U64} {pages : List U64}

theorem mapHeapPage_spec (h : Inv kernel roots own σ) (hr : r ∈ roots)
    (hpage : userHalf (pml4Index page)) :
    Grown kernel roots r σ (after (mapHeapPage r page σ)) [page] ∧
      ∀ σ', mapHeapPage r page σ = .ok () σ' → (∀ v, path v = path page → Mapped σ' r v) ∧
        σ'.pmm.freeSet.card + 1 ≤ σ.pmm.freeSet.card := by
  rcases allocPage_cases "ENOMEM" σ with ⟨-, herr⟩ | ⟨phys, pmm', halloc, hok⟩
  · have hall : mapHeapPage r page σ = .error "ENOMEM" σ := bind_of_error herr
    rw [hall]
    exact ⟨h.grown_refl r [page], nofun⟩
  · have hall : mapHeapPage r page σ = mapEntry r page phys heapFlags (takeZeroed σ pmm' phys) :=
      bind_of_ok hok
    rw [hall]
    have htake := h.grown_takeZeroed hr halloc
    obtain ⟨own', h'⟩ := htake.owned
    have hflags : ∀ b, IsRight b → has heapFlags b = true := by
      rintro b (rfl | rfl) <;> decide
    obtain ⟨hmap, hmapped⟩ := h'.grown_mapEntry hr hpage phys (f := heapFlags) (by decide) hflags
    refine ⟨htake.trans hmap, fun σ' heq => ⟨hmapped σ' heq, ?_⟩⟩
    -- the page itself is taken, besides those for tables
    rw [heq] at hmap
    have hle := Finset.card_le_card hmap.free_le
    obtain ⟨n, hn, -, rfl⟩ := Pmm.allocPage_eq_some halloc
    have hlt := Finset.card_erase_lt_of_mem hn
    rw [← Pmm.freeSet_take] at hlt
    exact lt_of_le_of_lt hle hlt

/-- The loop over the pages: however it ends, pages that were mapped stay mapped, and other pages
are left alone. -/
theorem mapHeapPages_spec (h : Inv kernel roots own σ) (hr : r ∈ roots)
    (hpages : ∀ page ∈ pages, userHalf (pml4Index page)) :
    Grown kernel roots r σ (after (pages.forM (mapHeapPage r) σ)) pages ∧
      ∀ σ', pages.forM (mapHeapPage r) σ = .ok () σ' →
        (∀ page ∈ pages, ∀ v, path v = path page → Mapped σ' r v) ∧
          σ'.pmm.freeSet.card + pages.length ≤ σ.pmm.freeSet.card := by
  induction pages generalizing σ own with
  | nil =>
    refine ⟨h.grown_refl r [], ?_⟩
    rintro σ' heq
    cases heq
    exact ⟨fun _ hmem => absurd hmem not_mem_nil, le_of_eq (add_zero _)⟩
  | cons page pages ih =>
    rw [forall_mem_cons] at hpages
    obtain ⟨hfirst, hok⟩ := mapHeapPage_spec h hr hpages.1
    rw [List.forM]
    cases hone : mapHeapPage r page σ with
    | error m σ₁ =>
      rw [hone] at hfirst
      obtain ⟨own', h'⟩ := hfirst.owned
      rw [bind_of_error hone]
      exact ⟨hfirst.trans (h'.grown_refl r pages), fun _ heq => by cases heq⟩
    | ok u σ₁ =>
      rw [hone, after_ok] at hfirst
      obtain ⟨own', h'⟩ := hfirst.owned
      obtain ⟨hmapped, hcard⟩ := hok σ₁ hone
      obtain ⟨hrest, hoks⟩ := ih h' hpages.2
      rw [bind_of_ok hone]
      refine ⟨hfirst.trans hrest, fun σ' heq => ?_⟩
      obtain ⟨hmappeds, hcards⟩ := hoks σ' heq
      rw [heq, after_ok] at hrest
      constructor
      · intro page' hpage' v hpath
        rcases mem_cons.mp hpage' with rfl | hpage'
        · refine hrest.mapped v ?_ (hmapped v hpath)
          have hindex : pml4Index v = pml4Index page' := (cons.inj hpath).1
          rw [hindex]
          exact hpages.1
        · exact hmappeds page' hpage' v hpath
      · rw [length_cons]
        omega

theorem growHeap_spec {first last : U64} (h : Inv kernel roots own σ) (hr : r ∈ roots)
    (hpages : ∀ page ∈ pagesBetween first last, userHalf (pml4Index page)) :
    Grown kernel roots r σ (after (growHeap r first last σ)) (pagesBetween first last) ∧
      ∀ σ', growHeap r first last σ = .ok () σ' →
        (∀ page ∈ pagesBetween first last, ∀ v, path v = path page → Mapped σ' r v) ∧
          σ'.pmm.freeSet.card + (pagesBetween first last).length ≤ σ.pmm.freeSet.card := by
  have hnew := h.grown_new hr
  obtain ⟨own', h'⟩ := hnew.owned
  obtain ⟨hgrown, hok⟩ := mapHeapPages_spec h' hr hpages
  exact ⟨hnew.trans hgrown, hok⟩

end Grow

/-! ## Addresses of the heap -/

theorem userHalf_of_lt {a : U64} (h : a.toNat < 2 ^ 47) : userHalf (pml4Index a) := by
  unfold userHalf pml4Index
  rw [toNat_shift_and]
  omega

theorem toNat_startPage {brk : U64} (h : brk.toNat < 2 ^ 48) :
    (startPage brk).toNat = (brk.toNat + 4095) / 4096 * 4096 := by
  have hsum : (brk + 4095).toNat = brk.toNat + 4095 := by
    exact Nat.mod_eq_of_lt (by show brk.toNat + 4095 < 2 ^ 64; omega)
  have hmask := toNat_and_not_mask (brk + 4095) 12
  rw [hsum] at hmask
  exact hmask

theorem toNat_endPage (addr : U64) : (endPage addr).toNat = addr.toNat / 4096 * 4096 :=
  toNat_and_not_mask addr 12

/-- The pages that are mapped when the break is raised. -/
theorem mem_pagesBetween {first last page : U64} (hlt : first < last)
    (hfirst : first.toNat % 4096 = 0) (hlast : last.toNat % 4096 = 0) :
    page ∈ pagesBetween first last ↔
      first.toNat ≤ page.toNat ∧ page.toNat < last.toNat ∧ page.toNat % 4096 = 0 := by
  have hlt' : first.toNat < last.toNat := hlt
  have hsub : (last - first).toNat = last.toNat - first.toNat :=
    BitVec.toNat_sub_of_le (le_of_lt hlt')
  unfold pagesBetween
  rw [mem_map, hsub]
  constructor
  · rintro ⟨i, hi, rfl⟩
    rw [mem_range] at hi
    have hnat : (first + BitVec.ofNat 64 (i * 4096)).toNat = first.toNat + i * 4096 := by
      rw [BitVec.toNat_add, BitVec.toNat_ofNat, Nat.add_mod_mod, Nat.mod_eq_of_lt]
      omega
    omega
  · rintro ⟨hge, hlt, hmod⟩
    refine ⟨(page.toNat - first.toNat) / 4096, ?_, ?_⟩
    · rw [mem_range]
      omega
    · apply BitVec.eq_of_toNat_eq
      rw [BitVec.toNat_add, BitVec.toNat_ofNat, Nat.add_mod_mod, Nat.mod_eq_of_lt]
      · omega
      · omega

theorem length_pagesBetween (first last : U64) :
    (pagesBetween first last).length = (last - first).toNat / 4096 := by
  unfold pagesBetween
  rw [length_map, length_range]

end BeastOs.Syscall
