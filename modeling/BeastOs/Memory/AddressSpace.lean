import BeastOs.Memory.TableWalks

/-!
# Address spaces of a running system

Page tables are created, and the operations of the manager run on them at user addresses, in any
order and with any outcome. Whatever else the kernel does in between, it does not write to the user
halves of page tables and does not free a table; it may allocate and free other pages, write to
them, and change its own mappings.

All operations have one shape: they build the way to the page, and then store its entry unless they
have failed (`Touches`). In every state of such a system each table has one owner (`Step.owned`).
-/

namespace BeastOs.Vmm

open Lib PageTableEntry Paging

/-! ## Operations -/

/-- The machine after an operation, whether it succeeded or not. -/
def after {α : Type} : EStateM.Result String Machine α → Machine
  | .ok _ σ => σ
  | .error _ σ => σ

variable {α : Type} {kernel : Nat → Set U64} {roots : Set U64}
  {own own' : U64 → Option (U64 × List Nat)} {σ σ' : Machine} {p : List Nat} {i : Nat}

@[simp] theorem after_ok (a : α) (σ : Machine) :
    after (.ok a σ : EStateM.Result String Machine α) = σ := rfl

@[simp] theorem after_error (m : String) (σ : Machine) :
    after (.error m σ : EStateM.Result String Machine α) = σ := rfl

theorem free_le_after {x : Vmm α} (h : Descends (·.pmm.freeSet) x) (σ : Machine) :
    (after (x σ)).pmm.freeSet ≤ σ.pmm.freeSet := by
  cases hx : x σ with
  | ok a σ' => exact h.ok hx
  | error m σ' => exact h.error hx

/-- The operations on a page. -/
inductive Op
  | mapPageWithFlags (virt phys flags : U64)
  | mapPage (virt phys : U64) (user : Bool)
  | mapUserPage (virt : U64) (onDemand : Bool)
  | handleFault (virt : U64)
  | unmapPage (virt : U64)

namespace Op

def virt : Op → U64
  | mapPageWithFlags virt _ _ => virt
  | mapPage virt _ _ => virt
  | mapUserPage virt _ => virt
  | handleFault virt => virt
  | unmapPage virt => virt

/-- The operation is on the user half. -/
def User (op : Op) : Prop := pml4Index op.virt < 256

instance (op : Op) : Decidable op.User := inferInstanceAs (Decidable (_ < _))

def run (r : U64) (op : Op) (σ : Machine) : Machine :=
  match op with
  | mapPageWithFlags virt phys flags => after (Vmm.mapPageWithFlags r virt phys flags σ)
  | mapPage virt phys user => after (Vmm.mapPage r virt phys user σ)
  | mapUserPage virt onDemand => after (Vmm.mapUserPage r virt onDemand σ)
  | handleFault virt => after (Vmm.handleFault r virt σ)
  | unmapPage virt => after (Vmm.unmapPage r virt σ)

end Op

variable {r t u virt : U64}

/-- An operation at the address `virt` of the page table `r` builds the way to the page, and then
stores the page's entry unless it has failed. -/
def Touches (kernel : Nat → Set U64) (roots : Set U64) (own : U64 → Option (U64 × List Nat))
    (σ : Machine) (r virt : U64) (σ' : Machine) : Prop :=
  ∃ own' σ₁, Inv kernel roots own' σ₁ ∧ Builds kernel r own σ own' σ₁ ∧
    (σ' = σ₁ ∨ ∃ pt e, own' pt = some (r, directory virt) ∧ σ' = write σ₁ pt (ptIndex virt) e)

theorem Inv.touches_none (h : Inv kernel roots own σ) (r virt : U64) :
    Touches kernel roots own σ r virt σ :=
  ⟨own, σ, h, .refl r own σ, Or.inl rfl⟩

theorem Inv.touches_mapEntry (h : Inv kernel roots own σ) (hr : r ∈ roots)
    (hv : pml4Index virt < 256) (phys f : U64) :
    Touches kernel roots own σ r virt (after (mapEntry r virt phys f σ)) := by
  rcases mapEntry_spec h hr hv phys f with
    ⟨σ', own', herr, -, h', hbuilds⟩ | ⟨pt, σ', own', hok, h', hpt, hbuilds⟩
  · rw [herr]
    exact ⟨own', σ', h', hbuilds, Or.inl rfl⟩
  · rw [hok]
    exact ⟨own', σ', h', hbuilds, Or.inr ⟨pt, _, hpt, rfl⟩⟩

theorem Touches.of_builds (h : Touches kernel roots own' σ' r virt σ)
    {σ₀ : Machine} {own₀ : U64 → Option (U64 × List Nat)}
    (hbuilds : Builds kernel r own₀ σ₀ own' σ') : Touches kernel roots own₀ σ₀ r virt σ := by
  obtain ⟨own₁, σ₁, h₁, hbuilds₁, hwrite⟩ := h
  exact ⟨own₁, σ₁, h₁, hbuilds.trans hbuilds₁, hwrite⟩

section

variable (h : Inv kernel roots own σ) (hr : r ∈ roots)
include h hr

theorem Inv.touches_mapUserPage (hv : pml4Index virt < 256) (onDemand : Bool) :
    Touches kernel roots own σ r virt (after (mapUserPage r virt onDemand σ)) := by
  cases onDemand with
  | true => exact h.touches_mapEntry hr hv 0 onDemandFlags
  | false =>
    have hunfold : mapUserPage r virt false =
        allocPage "OOM: cannot allocate physical page for user mapping" >>= fun phys =>
          mapPage r virt phys true := rfl
    rw [hunfold]
    rcases allocPage_cases "OOM: cannot allocate physical page for user mapping" σ with
      ⟨-, hoom⟩ | ⟨phys, pmm', halloc, hok⟩
    · rw [bind_of_error hoom]
      exact h.touches_none r virt
    · rw [bind_of_ok hok]
      obtain ⟨h', hbuilds⟩ := h.take halloc r
      exact (h'.touches_mapEntry hr hv phys (mapPageFlags true)).of_builds hbuilds

theorem Inv.touches_handleFault (hv : pml4Index virt < 256) :
    Touches kernel roots own σ r virt (after (handleFault r virt σ)) := by
  rcases handleFault_spec h hr hv with ⟨m, herr, -⟩ | ⟨pt, phys, pmm', hpt, -, halloc, hok⟩
  · rw [herr]
    exact h.touches_none r virt
  · rw [hok]
    exact ⟨own, takeZeroed σ pmm' phys, h.of_unchanged (h.fresh halloc).2.2,
      h.builds_fresh halloc r, Or.inr ⟨pt, _, hpt, rfl⟩⟩

theorem Inv.touches_unmapPage (hv : pml4Index virt < 256) :
    Touches kernel roots own σ r virt (after (unmapPage r virt σ)) := by
  rcases unmapPage_spec h hr hv with ⟨m, herr, -⟩ | ⟨pt, hpt, -, hok⟩
  · rw [herr]
    exact h.touches_none r virt
  · rw [hok]
    exact ⟨own, σ, h, .refl r own σ, Or.inr ⟨pt, _, hpt, rfl⟩⟩

theorem Op.touches {op : Op} (hop : op.User) :
    Touches kernel roots own σ r op.virt (op.run r σ) := by
  cases op with
  | mapPageWithFlags virt phys flags => exact h.touches_mapEntry hr hop phys flags
  | mapPage virt phys user => exact h.touches_mapEntry hr hop phys (mapPageFlags user)
  | mapUserPage virt onDemand => exact h.touches_mapUserPage hr hop onDemand
  | handleFault virt => exact h.touches_handleFault hr hop
  | unmapPage virt => exact h.touches_unmapPage hr hop

end

/-- So an operation keeps the ownership of tables, and leaves other page tables alone. -/
theorem Touches.keeps (h : Touches kernel roots own σ r virt σ') :
    ∃ own', Inv kernel roots own' σ' ∧ Keeps kernel r own σ own' σ' := by
  obtain ⟨own', σ₁, h₁, hbuilds, rfl | ⟨pt, e, hpt, rfl⟩⟩ := h
  · exact ⟨own', h₁, hbuilds.toKeeps⟩
  · exact ⟨own', h₁.write_leaf hpt rfl (ptIndex virt) e,
      hbuilds.toKeeps.trans (h₁.keeps_write hpt (ptIndex virt) e)⟩

/-- `VirtualMemoryManager::new` on a page table only writes the recursive entry. -/
theorem Inv.new (h : Inv kernel roots own σ) (hr : r ∈ roots) :
    Inv kernel roots own (after (Vmm.new r σ)) ∧
      Builds kernel r own σ own (after (Vmm.new r σ)) := by
  have hroot := h.forest.root r hr
  refine ⟨h.write_outer hroot ?_ ?_ _, h.builds_write hroot (by decide) recursiveEntry _⟩
  · intro hinner
    exact absurd (hinner.2 rfl) (by decide)
  · intro _ hkernel
    exact hkernel.2.2 rfl

/-! ## The system -/

structure System where
  machine : Machine
  /-- the PML4s that `create_user_page_table` has returned -/
  roots : Set U64
  /-- the pages that serve as tables of the kernel half, by level -/
  kernel : Nat → Set U64

/-- `other` is whatever else the kernel does. -/
inductive Event
  | create
  | attach (root : U64)
  | op (root : U64) (op : Op)
  | other

/-- The event is an operation on this page table. -/
def Event.On (root : U64) : Event → Prop
  | create => False
  | attach r => r = root
  | op r _ => r = root
  | other => False

/-- The kernel leaves the user halves of page tables alone and frees no table. -/
structure LeavesTables (s s' : System) : Prop where
  roots : s'.roots = s.roots
  user : ∀ r ∈ s.roots, ∀ p t, InnerPath Inner p → walk (child s.machine.mem) r p = some t →
    (∀ i, (p = [] → i < 256) → s'.machine.mem t i = s.machine.mem t i) ∧
      ¬ Free s'.machine.pmm t ∧ ∀ l, t ∉ s'.kernel l
  tables : KernelTables s'.machine s'.kernel
  shared : ∀ r ∈ s.roots, ∀ i u, KernelIndex i → child s'.machine.mem r i = some u →
    u ∈ s'.kernel 1

inductive Step : System → Event → System → Prop
  | create {s : System} {result : Option U64} {σ : Machine} :
      createUserPageTable s.machine = .ok result σ →
      Step s .create { s with machine := σ, roots := s.roots ∪ { u | result = some u } }
  | attach {s : System} {r : U64} : r ∈ s.roots →
      Step s (.attach r) { s with machine := after (new r s.machine) }
  | op {s : System} {r : U64} {op : Op} : r ∈ s.roots → op.User →
      Step s (.op r op) { s with machine := op.run r s.machine }
  | other {s s' : System} : LeavesTables s s' → Step s .other s'

/-- The kernel has its tables, and there is no user page table yet. -/
structure Boot (s : System) : Prop where
  roots : s.roots = ∅
  tables : KernelTables s.machine s.kernel

/-- Every table has one owner. -/
def System.Owned (s : System) : Prop := ∃ own, Inv s.kernel s.roots own s.machine

theorem Boot.owned {s : System} (h : Boot s) : s.Owned := by
  refine ⟨fun _ => none, ⟨?_, ?_, ?_, ?_⟩, ?_, ?_, h.tables, ?_, fun _ _ _ => rfl⟩
  · intro r hr
    rw [h.roots] at hr
    exact absurd hr (Set.notMem_empty r)
  · intro t r p ht
    cases ht
  · intro t r p i u ht
    cases ht
  · intro t r p ht
    cases ht
  · intro t r p i ht
    cases ht
  · intro t n ht
    cases ht
  · intro r hr
    rw [h.roots] at hr
    exact absurd hr (Set.notMem_empty r)

variable {s s' : System}

/-- Everything else that happens keeps the owners. -/
theorem LeavesTables.inv (h : LeavesTables s s')
    (hinv : Inv s.kernel s.roots own s.machine) : Inv s'.kernel s'.roots own s'.machine := by
  have huser : ∀ t r p, own t = some (r, p) → (∀ i, (p = [] → i < 256) →
      s'.machine.mem t i = s.machine.mem t i) ∧ ¬ Free s'.machine.pmm t ∧ ∀ l, t ∉ s'.kernel l := by
    intro t r p ht
    obtain ⟨hr, hp⟩ := hinv.forest.valid t r p ht
    exact h.user r hr p t hp (hinv.forest.reached t r p ht)
  rw [h.roots]
  constructor
  · refine hinv.forest.congr ?_
    intro t r p i ht hi
    exact child_congr ((huser t r p ht).1 i hi.2)
  · intro t r p i ht hi hpresent
    rw [(huser t r p ht).1 i hi.2] at hpresent ⊢
    exact hinv.not_huge t r p i ht hi hpresent
  · intro t n ht
    exact (huser t n.1 n.2 ht).2.1
  · exact h.tables
  · exact h.shared
  · intro l t ht
    cases hown : own t with
    | none => rfl
    | some n => exact absurd ht ((huser t n.1 n.2 hown).2.2 l)

/-- **Every table has one owner, always.** -/
theorem Step.owned {event : Event} (h : s.Owned) (hstep : Step s event s') : s'.Owned := by
  obtain ⟨own, hinv⟩ := h
  cases hstep with
  | create hcreate =>
    rcases createUserPageTable_cases hinv hcreate with
      ⟨rfl, rfl⟩ | ⟨u, own', rfl, hinv', -, -⟩
    · refine ⟨own, ?_⟩
      simpa using hinv
    · refine ⟨own', ?_⟩
      have hroots : s.roots ∪ { v | some u = some v } = insert u s.roots := by
        ext v
        simp [eq_comm]
      rw [hroots]
      exact hinv'
  | attach hr => exact ⟨own, (hinv.new hr).1⟩
  | op hr hop =>
    obtain ⟨own', hinv', -⟩ := (Op.touches hinv hr hop).keeps
    exact ⟨own', hinv'⟩
  | other hleaves => exact ⟨own, hleaves.inv hinv⟩

theorem owned_of_run {τ : List (Transition System Event)} (h : Boot s)
    (hrun : Run Step s τ s') : s'.Owned :=
  hrun.invariant' h.owned fun _ _ _ hm hstep => hstep.owned hm

/-! ## A small machine -/

/-- Seven free pages, and a kernel whose PML4 is empty. -/
def smallSystem : System where
  machine := ⟨fun _ _ => 0, ⟨fun i => if i = 0 then 0x1FC else 0, 7, 7⟩, 0x1000⟩
  roots := ∅
  kernel := fun l => { t | l = 0 ∧ t = 0x1000 }

theorem boot_smallSystem : Boot smallSystem := by
  have hchild : ∀ t i u, child smallSystem.machine.mem t i ≠ some u := by
    intro t i u hchild
    have hpresent : isPresent 0 = true := (child_eq_some.mp hchild).1
    cases hpresent
  refine ⟨rfl, ⟨rfl, rfl⟩, ?_, ?_, ?_⟩
  · intro t _ i u _ h
    exact absurd h (hchild t i u)
  · intro l _ t _ _ i u h
    exact absurd h (hchild t i u)
  · rintro l t ⟨-, rfl⟩ ⟨page, hpage, heq⟩
    obtain ⟨hlt, hfree⟩ := Pmm.mem_freeSet.mp hpage
    have hone : Pmm.pageOf 0x1000 = page := by
      rw [heq, Pmm.pageOf_ofNat hlt]
    subst hone
    exact absurd hfree (by decide)

/-- What an operation has returned. -/
def value? {α : Type} : EStateM.Result String Machine α → Option α
  | .ok a _ => some a
  | .error _ _ => none

theorem eq_ok_of_value? {x : EStateM.Result String Machine α} {a : α}
    (h : value? x = some a) : x = .ok a (after x) := by
  cases x with
  | ok b σ =>
    cases h
    rfl
  | error m σ => cases h

/-- The system after a new page table `u`. -/
def System.create (s : System) (u : U64) : System :=
  { s with
    machine := after (createUserPageTable s.machine)
    roots := s.roots ∪ { v | some u = some v } }

theorem step_create {s : System} (h : value? (createUserPageTable s.machine) = some (some u)) :
    Step s .create (s.create u) :=
  .create (eq_ok_of_value? h)

theorem step_create_smallSystem : Step smallSystem .create (smallSystem.create 0x2000) :=
  step_create (by decide +kernel)

end BeastOs.Vmm
