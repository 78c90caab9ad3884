import BeastOs.Lib.Forest
import BeastOs.Lib.Simulation
import BeastOs.Memory.Vmm

/-!
# Ownership of page tables

The tables of the user halves of all page tables form a forest: each belongs to one PML4 and is
reached from it by one path. The tables of the kernel half are shared by all PML4s and belong to
none. No table is a free page, so a page that is allocated is never a table already.

Here is what single stores and fresh pages do to this invariant, and `create_user_page_table`, which
adds a tree.

Main result: `createUserPageTable_spec`.
-/

namespace BeastOs.Vmm

open Function Lib PageTableEntry Paging

/-- The table that an entry refers to. -/
def child (mem : U64 → Nat → U64) (table : U64) (index : Nat) : Option U64 :=
  if isPresent (mem table index) then some (physicalAddress (mem table index)) else none

/-- The entries of the user half that refer to tables: those above the last level. -/
def Inner (path : List Nat) (index : Nat) : Prop := path.length < 3 ∧ (path = [] → index < 256)

/-- The entries of a PML4 that are shared with the kernel. -/
def KernelIndex (index : Nat) : Prop := 256 ≤ index ∧ index < 512 ∧ index ≠ recursiveEntry

/-- The page at this address is free. -/
def Free (pmm : Pmm) (t : U64) : Prop :=
  ∃ page ∈ pmm.freeSet, t = BitVec.ofNat 64 (page * Pmm.pageSize)

/-- The tables of the kernel half, by level; level 0 is the kernel's PML4. -/
structure KernelTables (σ : Machine) (kernel : Nat → Set U64) : Prop where
  pml4 : σ.kernelPml4 ∈ kernel 0
  pdpt : ∀ t ∈ kernel 0, ∀ i u, KernelIndex i → child σ.mem t i = some u → u ∈ kernel 1
  next : ∀ l < 3, ∀ t ∈ kernel l, 0 < l → ∀ i u, child σ.mem t i = some u →
    has (σ.mem t i) Flags.hugePage = false → u ∈ kernel (l + 1)
  not_free : ∀ l, ∀ t ∈ kernel l, ¬ Free σ.pmm t

/-- Who owns which table. -/
structure Inv (kernel : Nat → Set U64) (roots : Set U64) (own : U64 → Option (U64 × List Nat))
    (σ : Machine) : Prop where
  forest : Forest Inner (child σ.mem) roots own
  not_huge : ∀ t r p i, own t = some (r, p) → Inner p i → isPresent (σ.mem t i) = true →
    has (σ.mem t i) Flags.hugePage = false
  not_free : ∀ t n, own t = some n → ¬ Free σ.pmm t
  tables : KernelTables σ kernel
  shared : ∀ r ∈ roots, ∀ i u, KernelIndex i → child σ.mem r i = some u → u ∈ kernel 1
  not_owned : ∀ l, ∀ t ∈ kernel l, own t = none

variable {kernel : Nat → Set U64} {roots : Set U64} {own own' own'' : U64 → Option (U64 × List Nat)}
  {σ σ' σ'' : Machine} {r t u s : U64} {p : List Nat} {i : Nat} {e : U64}

theorem child_eq_some : child σ.mem t i = some u ↔
    isPresent (σ.mem t i) = true ∧ physicalAddress (σ.mem t i) = u := by
  unfold child
  split
  · next h => simp [h]
  · next h => simp [h]

theorem child_eq_none : child σ.mem t i = none ↔ isPresent (σ.mem t i) = false := by
  unfold child
  split
  · next h => simp [h]
  · next h => simp [h]

/-! ## Changes outside the trees -/

/-- The step from `σ` to `σ'` leaves alone what the invariant is about. -/
structure Unchanged (kernel : Nat → Set U64) (own : U64 → Option (U64 × List Nat))
    (σ σ' : Machine) : Prop where
  inner : ∀ t r p i, own t = some (r, p) → Inner p i → child σ'.mem t i = child σ.mem t i ∧
    has (σ'.mem t i) Flags.hugePage = has (σ.mem t i) Flags.hugePage
  shared : ∀ r, own r = some (r, []) → ∀ i, KernelIndex i → σ'.mem r i = σ.mem r i
  kernel : ∀ l, ∀ t ∈ kernel l, σ'.mem t = σ.mem t
  pml4 : σ'.kernelPml4 = σ.kernelPml4
  free : ∀ t, Free σ'.pmm t → Free σ.pmm t

theorem child_congr (h : σ'.mem t i = σ.mem t i) : child σ'.mem t i = child σ.mem t i := by
  unfold child
  rw [h]

/-- The kernel's tables stay what they are while their contents do, and none is freed. -/
theorem KernelTables.congr (h : KernelTables σ kernel)
    (hmem : ∀ l, ∀ t ∈ kernel l, σ'.mem t = σ.mem t) (hpml4 : σ'.kernelPml4 = σ.kernelPml4)
    (hfree : ∀ t, Free σ'.pmm t → Free σ.pmm t) : KernelTables σ' kernel where
  pml4 := hpml4 ▸ h.pml4
  pdpt := by
    intro t ht i u hi hchild
    rw [child_congr (congrFun (hmem 0 t ht) i)] at hchild
    exact h.pdpt t ht i u hi hchild
  next := by
    intro l hl t ht hpos i u hchild hhuge
    have hentry := congrFun (hmem l t ht) i
    rw [child_congr hentry] at hchild
    rw [hentry] at hhuge
    exact h.next l hl t ht hpos i u hchild hhuge
  not_free := fun l t ht hfree' => h.not_free l t ht (hfree t hfree')

variable (h : Inv kernel roots own σ)

include h in
theorem Inv.of_unchanged (hsame : Unchanged kernel own σ σ') :
    Inv kernel roots own σ' where
  forest := h.forest.congr fun t r p i ht hi => (hsame.inner t r p i ht hi).1
  not_huge := by
    intro t r p i ht hi hpresent
    obtain ⟨hchild, hhuge⟩ := hsame.inner t r p i ht hi
    rw [hhuge]
    refine h.not_huge t r p i ht hi ?_
    obtain ⟨u, hu⟩ : ∃ u, child σ'.mem t i = some u := ⟨_, child_eq_some.mpr ⟨hpresent, rfl⟩⟩
    rw [hchild] at hu
    exact (child_eq_some.mp hu).1
  not_free := fun t n ht hfree => h.not_free t n ht (hsame.free t hfree)
  tables := h.tables.congr hsame.kernel hsame.pml4 hsame.free
  shared := by
    intro r hr i u hi hchild
    rw [child_congr (hsame.shared r (h.forest.root r hr) i hi)] at hchild
    exact h.shared r hr i u hi hchild
  not_owned := h.not_owned

/-! ## Single steps -/

/-- The machine after a store to an entry. -/
def write (σ : Machine) (t : U64) (i : Nat) (e : U64) : Machine :=
  { σ with mem := Function.update σ.mem t (Function.update (σ.mem t) i e) }

theorem writeEntry_eq (t : U64) (i : Nat) (e : U64) (σ : Machine) :
    writeEntry t i e σ = .ok () (write σ t i e) := rfl

theorem readEntry_eq (t : U64) (i : Nat) (σ : Machine) : readEntry t i σ = .ok (σ.mem t i) σ := rfl

@[simp] theorem write_self (σ : Machine) (t : U64) (i : Nat) (e : U64) :
    (write σ t i e).mem t i = e := by
  unfold write
  simp

theorem write_of_ne (σ : Machine) (e : U64) {j : Nat} (h : ¬ (s = t ∧ j = i)) :
    (write σ t i e).mem s j = σ.mem s j := by
  unfold write
  by_cases hs : s = t
  · subst hs
    have hj : j ≠ i := fun hj => h ⟨rfl, hj⟩
    simp [hj]
  · simp [hs]

theorem write_table_of_ne (σ : Machine) (i : Nat) (e : U64) (h : s ≠ t) :
    (write σ t i e).mem s = σ.mem s :=
  update_of_ne h _ _

section

variable (h : Inv kernel roots own σ) (ht : own t = some (r, p))
include h ht

/-- A table of a tree is not one of the kernel's. -/
theorem Inv.ne_kernel (hu : u ∈ kernel l) : u ≠ t :=
  fun heq => Forest.ne_of_own ht (h.not_owned l u hu) heq.symm

/-- A store to an entry that belongs to no tree and is not shared with the kernel. -/
theorem Inv.write_outer (hi : ¬ Inner p i) (hk : p = [] → ¬ KernelIndex i) (e : U64) :
    Inv kernel roots own (write σ t i e) := by
  refine h.of_unchanged ⟨?_, ?_, ?_, rfl, fun _ hfree => hfree⟩
  · intro s r' q j hs hj
    have hentry : (write σ t i e).mem s j = σ.mem s j := by
      refine write_of_ne σ e ?_
      rintro ⟨rfl, rfl⟩
      rw [ht] at hs
      cases hs
      exact hi hj
    exact ⟨child_congr hentry, by rw [hentry]⟩
  · intro s hs j hj
    refine write_of_ne σ e ?_
    rintro ⟨rfl, rfl⟩
    rw [ht] at hs
    cases hs
    exact hk rfl hj
  · intro l s hs
    exact write_table_of_ne σ i e (h.ne_kernel ht hs)

/-- A store that changes only the flags of an entry, and makes it no huge page. -/
theorem Inv.write_flags (hi : Inner p i) (hchild : child (write σ t i e).mem t i = child σ.mem t i)
    (hhuge : has e Flags.hugePage = has (σ.mem t i) Flags.hugePage) :
    Inv kernel roots own (write σ t i e) := by
  refine h.of_unchanged ⟨?_, ?_, ?_, rfl, fun _ hfree => hfree⟩
  · intro s r' q j hs hj
    by_cases hsj : s = t ∧ j = i
    · obtain ⟨rfl, rfl⟩ := hsj
      exact ⟨hchild, by rw [write_self, hhuge]⟩
    · have hentry := write_of_ne σ e hsj
      exact ⟨child_congr hentry, by rw [hentry]⟩
  · intro s hs j hj
    refine write_of_ne σ e ?_
    rintro ⟨rfl, rfl⟩
    rw [ht] at hs
    cases hs
    -- the entries of the user half are not shared
    exact absurd (hi.2 rfl) (not_lt.mpr hj.1)
  · intro l s hs
    exact write_table_of_ne σ i e (h.ne_kernel ht hs)

end

/-! ## Fresh pages -/

/-- A page-aligned address below 2^52 fits into an entry. -/
theorem and_addressMask_of_lt {a : U64} (haligned : a.toNat % 4096 = 0)
    (hlt : a.toNat < 2 ^ 52) : a &&& addressMask = a := by
  have hmask : ∀ i < 64, 12 ≤ i → i < 52 → addressMask.getLsbD i = true := by decide
  apply BitVec.eq_of_getLsbD_eq
  intro i hi
  rw [BitVec.getLsbD_and]
  by_cases hlow : 12 ≤ i
  · by_cases hhigh : i < 52
    · rw [hmask i hi hlow hhigh, Bool.and_true]
    · have hzero : a.getLsbD i = false := by
        exact Nat.testBit_lt_two_pow (lt_of_lt_of_le hlt (Nat.pow_le_pow_right (by decide)
          (not_lt.mp hhigh)))
      rw [hzero, Bool.false_and]
  · have hzero : a.getLsbD i = false := by
      rw [← BitVec.testBit_toNat]
      have hmod := Nat.testBit_mod_two_pow a.toNat 12 i
      rw [show (2 : Nat) ^ 12 = 4096 from rfl, haligned] at hmod
      simpa [not_le.mp hlow] using hmod.symm
    rw [hzero, Bool.false_and]

/-- The address of a page fits into an entry. -/
theorem and_addressMask {page : Nat} (hpage : page < Pmm.maxPages) :
    BitVec.ofNat 64 (page * Pmm.pageSize) &&& addressMask =
      BitVec.ofNat 64 (page * Pmm.pageSize) := by
  have hlt : page * 4096 < 2 ^ 20 * 4096 := Nat.mul_lt_mul_of_pos_right hpage (by decide)
  have haddr : (BitVec.ofNat 64 (page * Pmm.pageSize)).toNat = page * 4096 :=
    (BitVec.toNat_ofNat _ _).trans (Nat.mod_eq_of_lt (hlt.trans (by decide)))
  apply and_addressMask_of_lt
  · rw [haddr, Nat.mul_mod_left]
  · rw [haddr]
    exact hlt.trans (by decide)

/-- What `alloc_page` returns was free and is free no longer. -/
theorem free_of_allocPage {pmm pmm' : Pmm} {phys : U64} (h : pmm.allocPage = (some phys, pmm')) :
    Free pmm phys ∧ phys &&& addressMask = phys ∧ ∀ t, Free pmm' t → Free pmm t ∧ t ≠ phys := by
  obtain ⟨page, hpage, rfl, rfl⟩ := Pmm.allocPage_eq_some h
  obtain ⟨hlt, -⟩ := Pmm.mem_freeSet.mp hpage
  refine ⟨⟨page, hpage, rfl⟩, and_addressMask hlt, ?_⟩
  rintro t ⟨page', hpage', rfl⟩
  obtain ⟨hlt', hfree'⟩ := Pmm.mem_freeSet.mp hpage'
  rw [Pmm.isFree_take, Bool.and_eq_true, Bool.not_eq_true', decide_eq_false_iff_not] at hfree'
  refine ⟨⟨page', Pmm.mem_freeSet.mpr ⟨hlt', hfree'.2⟩, rfl⟩, ?_⟩
  intro heq
  have hpages := congrArg Pmm.pageOf heq
  rw [Pmm.pageOf_ofNat hlt', Pmm.pageOf_ofNat hlt] at hpages
  exact hfree'.1 hpages

theorem allocPage_cases (m : String) (σ : Machine) :
    (σ.pmm.freeSet = ∅ ∧ allocPage m σ = .error m σ) ∨
      ∃ phys pmm', σ.pmm.allocPage = (some phys, pmm') ∧
        allocPage m σ = .ok phys { σ with pmm := pmm' } := by
  unfold allocPage
  cases halloc : σ.pmm.allocPage with
  | mk result pmm' =>
    cases result with
    | none =>
      obtain ⟨hempty, rfl⟩ := Pmm.allocPage_eq_none halloc
      exact .inl ⟨hempty, rfl⟩
    | some phys => exact .inr ⟨phys, pmm', rfl, rfl⟩

/-- The machine after a page has been allocated and zeroed. -/
def takeZeroed (σ : Machine) (pmm' : Pmm) (phys : U64) : Machine :=
  { σ with pmm := pmm', mem := Function.update σ.mem phys fun _ => 0 }

theorem takeZeroed_of_ne (pmm' : Pmm) (h : t ≠ u) : (takeZeroed σ pmm' u).mem t = σ.mem t :=
  update_of_ne h _ _

include h in
/-- A page that was free is no table. -/
theorem Inv.fresh {pmm' : Pmm} (halloc : σ.pmm.allocPage = (some u, pmm')) :
    own u = none ∧ (∀ l, u ∉ kernel l) ∧ Unchanged kernel own σ (takeZeroed σ pmm' u) := by
  obtain ⟨hfree, -, hfree'⟩ := free_of_allocPage halloc
  have hown : own u = none := by
    cases hn : own u with
    | none => rfl
    | some n => exact absurd hfree (h.not_free u n hn)
  have hkernel : ∀ l, u ∉ kernel l := fun l hu => h.tables.not_free l u hu hfree
  refine ⟨hown, hkernel, ?_, ?_, ?_, rfl, fun t ht => (hfree' t ht).1⟩
  · intro s r p j hs _
    have hentry := congrFun (takeZeroed_of_ne (σ := σ) pmm' (Forest.ne_of_own hs hown)) j
    exact ⟨child_congr hentry, by rw [hentry]⟩
  · intro s hs j _
    exact congrFun (takeZeroed_of_ne pmm' (Forest.ne_of_own hs hown)) j
  · intro l s hs
    refine takeZeroed_of_ne pmm' ?_
    rintro rfl
    exact hkernel l hs

include h in
/-- An empty table, which is no free page any longer, becomes the table of an empty entry. -/
theorem Inv.graft (ht : own t = some (r, p)) (hi : Inner p i)
    (hnone : child σ.mem t i = none) (hown : own u = none) (hkernel : ∀ l, u ∉ kernel l)
    (hfree : ¬ Free σ.pmm u) (hzero : σ.mem u = fun _ => 0)
    (he : child (write σ t i e).mem t i = some u) (hhuge : has e Flags.hugePage = false) :
    Inv kernel roots (update own u (some (r, p ++ [i]))) (write σ t i e) := by
  have hut : u ≠ t := (Forest.ne_of_own ht hown).symm
  have hempty : ∀ j, isPresent ((write σ t i e).mem u j) = false := by
    intro j
    rw [write_table_of_ne σ i e hut, hzero]
    exact isPresent_zero
  constructor
  · refine h.forest.graft hown ht hi hnone he (fun j _ => child_eq_none.mpr (hempty j)) ?_
    intro s r' q j _ _ hsj
    exact child_congr (write_of_ne σ e hsj)
  · intro s r' q j hs hj hpresent
    by_cases hsu : s = u
    · rw [hsu, hempty j] at hpresent
      cases hpresent
    · rw [update_of_ne hsu] at hs
      by_cases hsj : s = t ∧ j = i
      · rw [hsj.1, hsj.2, write_self]
        exact hhuge
      · rw [write_of_ne σ e hsj] at hpresent ⊢
        exact h.not_huge s r' q j hs hj hpresent
  · intro s n hs
    by_cases hsu : s = u
    · rw [hsu]
      exact hfree
    · rw [update_of_ne hsu] at hs
      exact h.not_free s n hs
  · exact h.tables.congr (fun l s hs => write_table_of_ne σ i e (h.ne_kernel ht hs)) rfl
      (fun _ hfree => hfree)
  · intro r' hr' j v hj hchild
    refine h.shared r' hr' j v hj ?_
    rw [← hchild]
    refine (child_congr (write_of_ne σ e ?_)).symm
    rintro ⟨rfl, rfl⟩
    have hroot := h.forest.root r' hr'
    rw [ht] at hroot
    cases hroot
    exact absurd (hi.2 rfl) (not_lt.mpr hj.1)
  · intro l s hs
    have hsu : s ≠ u := by
      rintro rfl
      exact hkernel l hs
    rw [update_of_ne hsu]
    exact h.not_owned l s hs

/-! ## New page tables -/

/-- The machine after all of a page has been written. -/
def withEntries (σ : Machine) (u : U64) (entries : Nat → U64) : Machine :=
  { σ with mem := Function.update σ.mem u entries }

theorem write_withEntries (σ : Machine) (u : U64) (entries : Nat → U64) (i : Nat) (e : U64) :
    write (withEntries σ u entries) u i e = withEntries σ u (update entries i e) := by
  unfold write withEntries
  dsimp only
  rw [update_idem, update_self]

theorem withEntries_self (σ : Machine) (u : U64) (entries : Nat → U64) :
    (withEntries σ u entries).mem u = entries :=
  update_self _ _ _

theorem withEntries_of_ne (entries : Nat → U64) (h : s ≠ u) :
    (withEntries σ u entries).mem s = σ.mem s :=
  update_of_ne h _ _

include h in
/-- A page that is no table becomes a PML4: its user half is empty, and the entries it shares with
the kernel are the kernel's. -/
theorem Inv.plant {entries : Nat → U64} (hown : own u = none) (hkernel : ∀ l, u ∉ kernel l)
    (hfree : ¬ Free σ.pmm u) (huser : ∀ i < 256, isPresent (entries i) = false)
    (hshared : ∀ i, KernelIndex i → isPresent (entries i) = true →
      entries i = σ.mem σ.kernelPml4 i) :
    Inv kernel (insert u roots) (update own u (some (u, []))) (withEntries σ u entries) := by
  have hself := withEntries_self σ u entries
  have hother : ∀ s, s ≠ u → (withEntries σ u entries).mem s = σ.mem s :=
    fun s hs => withEntries_of_ne entries hs
  have hne : ∀ l, ∀ s ∈ kernel l, s ≠ u := by
    rintro l s hs rfl
    exact hkernel l hs
  have hempty : ∀ j, Inner [] j → isPresent ((withEntries σ u entries).mem u j) = false := by
    intro j hj
    rw [hself]
    exact huser j (hj.2 rfl)
  constructor
  · refine h.forest.plant hown (fun j hj => child_eq_none.mpr (hempty j hj)) ?_
    intro s r q j hs _
    exact child_congr (congrFun (hother s (Forest.ne_of_own hs hown)) j)
  · intro s r q j hs hj hpresent
    rcases update_eq_some hs with ⟨rfl, heq⟩ | ⟨hsu, hs⟩
    · cases heq
      rw [hempty j hj] at hpresent
      cases hpresent
    · rw [hother s hsu] at hpresent ⊢
      exact h.not_huge s r q j hs hj hpresent
  · intro s n hs
    by_cases hsu : s = u
    · rw [hsu]
      exact hfree
    · rw [update_of_ne hsu] at hs
      exact h.not_free s n hs
  · exact h.tables.congr (fun l s hs => hother s (hne l s hs)) rfl (fun _ ht => ht)
  · intro r hr i v hi hchild
    by_cases hru : r = u
    · rw [hru, child_eq_some, hself] at hchild
      refine h.tables.pdpt _ h.tables.pml4 i v hi (child_eq_some.mpr ?_)
      rw [← hshared i hi hchild.1]
      exact hchild
    · rw [child_congr (congrFun (hother r hru) i)] at hchild
      exact h.shared r (hr.resolve_left hru) i v hi hchild
  · intro l s hs
    rw [update_of_ne (hne l s hs)]
    exact h.not_owned l s hs

/-- The entries of `u` when those of the kernel with indices in `l` have been copied. -/
def copied (σ : Machine) (u : U64) (l : List Nat) (i : Nat) : U64 :=
  if i ∈ l ∧ isPresent (σ.mem σ.kernelPml4 i) = true then σ.mem σ.kernelPml4 i else σ.mem u i

theorem copyKernelEntry_eq (u : U64) (i : Nat) (σ : Machine) :
    copyKernelEntry u i σ = .ok () (write σ u i (copied σ u [i] i)) := by
  have hbind : copyKernelEntry u i σ =
      (if isPresent (σ.mem σ.kernelPml4 i) = true then writeEntry u i (σ.mem σ.kernelPml4 i)
        else pure ()) σ := rfl
  rw [hbind]
  unfold copied
  by_cases hpresent : isPresent (σ.mem σ.kernelPml4 i) = true
  · rw [if_pos hpresent, if_pos ⟨List.mem_singleton_self i, hpresent⟩]
    rfl
  · rw [if_neg hpresent, if_neg fun h => hpresent h.2]
    show EStateM.Result.ok () σ = _
    unfold write
    simp only [update_eq_self]

/-- Copying one entry and then those of `l`. -/
theorem copied_write (hu : σ.kernelPml4 ≠ u) (he : e = copied σ u [i] i) (l : List Nat) :
    copied (write σ u i e) u l = copied σ u (i :: l) := by
  have hpml4 : (write σ u i e).kernelPml4 = σ.kernelPml4 := rfl
  funext j
  unfold copied at he ⊢
  rw [hpml4, write_table_of_ne _ _ _ hu]
  by_cases hji : j = i
  · subst hji
    rw [write_self, he]
    by_cases hpresent : isPresent (σ.mem σ.kernelPml4 j) = true <;> simp [hpresent]
  · rw [write_of_ne _ _ fun h => hji h.2]
    simp [hji]

/-- The loop that copies the kernel's entries. -/
theorem copyKernelEntries_eq (l : List Nat) (hu : σ.kernelPml4 ≠ u) :
    l.forM (copyKernelEntry u) σ = .ok () (withEntries σ u (copied σ u l)) := by
  induction l generalizing σ with
  | nil =>
    have hnone : copied σ u [] = σ.mem u := by
      funext i
      exact if_neg fun h => absurd h.1 List.not_mem_nil
    unfold withEntries
    rw [hnone, update_eq_self]
    rfl
  | cons i l ih =>
    rw [List.forM, bind_of_ok (copyKernelEntry_eq u i σ)]
    refine (ih (σ := write σ u i (copied σ u [i] i)) hu).trans ?_
    rw [copied_write hu rfl l]
    unfold write withEntries
    rw [update_idem]

/-- In a table that was empty the entries are copies or empty still. -/
theorem isPresent_copied {l : List Nat} (hzero : σ.mem u = fun _ => 0)
    (hpresent : isPresent (copied σ u l i) = true) :
    i ∈ l ∧ copied σ u l i = σ.mem σ.kernelPml4 i := by
  unfold copied at hpresent ⊢
  split at hpresent
  · next h => exact ⟨h.1, if_pos h⟩
  · rw [hzero, isPresent_zero] at hpresent
    cases hpresent

include h in
/-- The PML4 that `create_user_page_table` fills in. -/
theorem Inv.newPml4 (hown : own u = none)
    (hkernel : ∀ l, u ∉ kernel l) (hfree : ¬ Free σ.pmm u) (hzero : σ.mem u = fun _ => 0) :
    ∃ σ₁ σ', (List.range' 256 256).forM (copyKernelEntry u) σ = .ok () σ₁ ∧
      new u σ₁ = .ok () σ' ∧
      Inv kernel (insert u roots) (update own u (some (u, []))) σ' ∧
      (∀ i < 256, child σ'.mem u i = none) ∧ ∀ t, t ≠ u → σ'.mem t = σ.mem t := by
  have hpml4 : σ.kernelPml4 ≠ u := by
    intro heq
    exact hkernel 0 (heq ▸ h.tables.pml4)
  refine ⟨_, _, copyKernelEntries_eq _ hpml4, writeEntry_eq _ _ _ _, ?_⟩
  rw [write_withEntries]
  have huser : ∀ e, ∀ i < 256, isPresent
      (update (copied σ u (List.range' 256 256)) recursiveEntry e i) = false := by
    intro e i hi
    rw [update_of_ne (by unfold recursiveEntry; omega)]
    refine Bool.eq_false_iff.mpr fun hpresent => ?_
    have hmem := (isPresent_copied hzero hpresent).1
    rw [List.mem_range'_1] at hmem
    omega
  refine ⟨h.plant hown hkernel hfree (huser _) ?_, ?_, fun t ht => withEntries_of_ne _ ht⟩
  · intro i hi hpresent
    rw [update_of_ne hi.2.2] at hpresent ⊢
    exact (isPresent_copied hzero hpresent).2
  · intro i hi
    rw [child_eq_none, withEntries_self]
    exact huser _ i hi

include h in
/-- **`create_user_page_table`.** It returns nothing and changes nothing, or returns a page that was
no table and is a PML4 now. -/
theorem createUserPageTable_spec : createUserPageTable σ = .ok none σ ∨
      ∃ u σ' own', createUserPageTable σ = .ok (some u) σ' ∧
        Inv kernel (insert u roots) own' σ' ∧
        (∀ i < 256, child σ'.mem u i = none) ∧
        ∀ t n, own t = some n → own' t = some n ∧ σ'.mem t = σ.mem t := by
  unfold createUserPageTable
  cases halloc : σ.pmm.allocPage with
  | mk result pmm' =>
    cases result with
    | none => exact .inl rfl
    | some u =>
      right
      obtain ⟨-, -, hfree⟩ := free_of_allocPage halloc
      obtain ⟨hown, hkernel, hsame⟩ := h.fresh halloc
      obtain ⟨σ₁, σ', hcopy, hnew, hinv, hempty, hmem⟩ :=
        (h.of_unchanged hsame).newPml4 hown hkernel (fun hu => (hfree u hu).2 rfl)
          (update_self _ _ _)
      refine ⟨u, σ', _, ?_, hinv, hempty, ?_⟩
      · have hzero : zeroPage u { σ with pmm := pmm' } = .ok () (takeZeroed σ pmm' u) := rfl
        dsimp only
        rw [bind_of_ok hzero, bind_of_ok hcopy, bind_of_ok hnew]
        rfl
      · intro t n ht
        have htu := Forest.ne_of_own ht hown
        rw [update_of_ne htu]
        exact ⟨ht, (hmem t htu).trans (takeZeroed_of_ne pmm' htu)⟩

include h in
/-- What a call of `create_user_page_table` can have done. -/
theorem createUserPageTable_cases {result : Option U64}
    (hcreate : createUserPageTable σ = .ok result σ') : (result = none ∧ σ' = σ) ∨
      ∃ u own', result = some u ∧ Inv kernel (insert u roots) own' σ' ∧
        (∀ i < 256, child σ'.mem u i = none) ∧
        ∀ t n, own t = some n → own' t = some n ∧ σ'.mem t = σ.mem t := by
  rcases createUserPageTable_spec h with hnone | ⟨u, σ₁, own₁, hsome, hspec⟩
  · rw [hnone] at hcreate
    cases hcreate
    exact .inl ⟨rfl, rfl⟩
  · rw [hsome] at hcreate
    cases hcreate
    exact .inr ⟨u, own₁, rfl, hspec⟩

/-! ## Pages are taken only

No operation on page tables gives a page back, not even one that fails halfway. -/

theorem descends_allocPage (m : String) : Descends (·.pmm.freeSet) (allocPage m) where
  ok := by
    intro σ phys σ' h
    rcases allocPage_cases m σ with ⟨-, hfull⟩ | ⟨u, pmm', halloc, hok⟩
    · rw [hfull] at h
      cases h
    · rw [hok] at h
      cases h
      obtain ⟨page, -, -, rfl⟩ := Pmm.allocPage_eq_some halloc
      show (σ.pmm.take page).freeSet ≤ σ.pmm.freeSet
      rw [Pmm.freeSet_take]
      exact Finset.erase_subset _ _
  error := by
    intro σ e σ' h
    rcases allocPage_cases m σ with ⟨-, hfull⟩ | ⟨u, pmm', halloc, hok⟩
    · rw [hfull] at h
      cases h
      exact le_rfl
    · rw [hok] at h
      cases h

theorem descends_readEntry (t : U64) (i : Nat) : Descends (·.pmm.freeSet) (readEntry t i) :=
  .gets fun σ : Machine => σ.mem t i

theorem descends_writeEntry (t : U64) (i : Nat) (e : U64) :
    Descends (·.pmm.freeSet) (writeEntry t i e) :=
  .modify fun _ => le_rfl

theorem descends_splitPage (stride extra t f : U64) (i : Nat) :
    Descends (·.pmm.freeSet) (splitPage stride extra t i f) := by
  refine .bind (descends_readEntry t i) fun _ => .bind (descends_allocPage _) fun phys => ?_
  refine .bind (.modify fun _ => le_rfl) fun _ => .bind ?_ fun _ => ?_
  · exact .forM fun j _ => descends_writeEntry phys j _
  · exact .bind (descends_writeEntry t i _) fun _ => .pure phys

theorem descends_getOrCreateTable (t f : U64) (i level : Nat) :
    Descends (·.pmm.freeSet) (getOrCreateTable t i f level) := by
  refine .bind (descends_readEntry t i) fun e => .ite (.ite ?_ ?_) ?_
  · -- a huge page
    match level with
    | 2 | 3 => exact descends_splitPage _ _ _ _ _
    | 0 | 1 | _ + 4 => exact .throw _
  · -- the entry may lack flags
    have hread : Descends (·.pmm.freeSet) (readEntry t i >>= fun e => pure (physicalAddress e)) :=
      .bind (descends_readEntry t i) fun e => .pure _
    exact .ite (.bind (descends_writeEntry t i _) fun _ => hread) hread
  · refine .bind (descends_allocPage _) fun u => .bind (.modify fun _ => le_rfl) fun _ => ?_
    exact .bind (descends_writeEntry t i _) fun _ => .pure u

theorem descends_mapEntry (r virt phys f : U64) :
    Descends (·.pmm.freeSet) (mapEntry r virt phys f) := by
  refine .bind (descends_getOrCreateTable _ _ _ _) fun pdpt => ?_
  refine .bind (descends_getOrCreateTable _ _ _ _) fun pd => ?_
  exact .bind (descends_getOrCreateTable _ _ _ _) fun pt => descends_writeEntry pt _ _

/-- The loop that copies the kernel's entries, to any page. -/
theorem copyKernelEntries_ok (u : U64) (l : List Nat) (σ : Machine) :
    ∃ σ', l.forM (copyKernelEntry u) σ = .ok () σ' ∧ σ'.pmm = σ.pmm := by
  induction l generalizing σ with
  | nil => exact ⟨σ, rfl, rfl⟩
  | cons i l ih =>
    rw [List.forM, bind_of_ok (copyKernelEntry_eq u i σ)]
    exact ih _

/-- Whatever is in memory, a new page table costs a page. -/
theorem createUserPageTable_takes (σ : Machine) :
    (σ.pmm.freeSet = ∅ ∧ createUserPageTable σ = .ok none σ) ∨
      ∃ page ∈ σ.pmm.freeSet, ∃ u σ', createUserPageTable σ = .ok (some u) σ' ∧
        σ'.pmm = σ.pmm.take page := by
  unfold createUserPageTable
  cases halloc : σ.pmm.allocPage with
  | mk result pmm' =>
    cases result with
    | none => exact .inl ⟨(Pmm.allocPage_eq_none halloc).1, rfl⟩
    | some u =>
      obtain ⟨page, hpage, -, rfl⟩ := Pmm.allocPage_eq_some halloc
      obtain ⟨σ', hcopy, hpmm⟩ := copyKernelEntries_ok u (List.range' 256 256)
        (takeZeroed σ (σ.pmm.take page) u)
      have hzero : zeroPage u { σ with pmm := σ.pmm.take page } =
          .ok () (takeZeroed σ (σ.pmm.take page) u) := rfl
      have hnew : ∃ σ'', new u σ' = .ok () σ'' ∧ σ''.pmm = σ'.pmm := ⟨_, rfl, rfl⟩
      obtain ⟨σ'', hnew, hpmm'⟩ := hnew
      refine .inr ⟨page, hpage, u, σ'', ?_, hpmm'.trans hpmm⟩
      dsimp only
      rw [bind_of_ok hzero, bind_of_ok hcopy, bind_of_ok hnew]
      rfl

end BeastOs.Vmm
