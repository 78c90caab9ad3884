import BeastOs.Fs.UniversalExec
import BeastOs.Memory.UserPages

/-!
# Executables in user space

A page table of a user shares the tables of its upper half with the kernel. A load should keep out
of there: it should map only pages below `0x0000_8000_0000_0000`, and leave every entry of the upper
half as it is.

No loader compares an address with that bound. So a load keeps to user space if and only if the
file asks for nothing else (`Confined`): the pages of every segment that is loaded lie below the
bound, and no store to an import address table lands in the upper half. The latter is possible
because the loader for PE adds the offset within the page a second time, and so may write to the
page frame behind the one it means.

The pages that a loader fills were free, and no table among those that a user or the kernel has is a
free page. So the contents of a segment never end up in a table.

Main result: `inUserSpace_iff_confined`.
-/

namespace BeastOs.UniversalExec

open List BitVec Lib Paging Vmm PageTableEntry

/-! ## The kernel half -/

/-- The tables below the kernel half of a page table, by level. They are the kernel's own. -/
inductive SharedTable (σ : Machine) (r : U64) : Nat → U64 → Prop
  | pdpt {i : Nat} {u : U64} : KernelIndex i → child σ.mem r i = some u → SharedTable σ r 1 u
  | next {l i : Nat} {t u : U64} : SharedTable σ r l t → l < 3 → i < 512 →
      child σ.mem t i = some u → has (σ.mem t i) Flags.hugePage = false → SharedTable σ r (l + 1) u

/-- Entry `i` of the table `t` belongs to the kernel half of the page table `r`. -/
def KernelHalf (σ : Machine) (r t : U64) (i : Nat) : Prop :=
  i < 512 ∧ (t = r ∧ 256 ≤ i ∨ ∃ l, SharedTable σ r l t)

/-- A step that maps no page of the kernel half and changes no entry of it. -/
structure InUserSpace (half : U64 → Nat → Prop) (t : Transition Machine Action) : Prop where
  below : ∀ virt phys flags, t.label = .mapPageWithFlags virt phys flags → virt.toNat < 2 ^ 47
  kept : ∀ s i, half s i → t.dst.mem s i = t.src.mem s i

/-! ## What a file may ask for -/

/-- All of the pages are pages of the user. -/
def Segment.Below (segment : Segment) : Prop :=
  segment.pageCount = 0 ∨ segment.pageStart.toNat + 4096 * segment.pageCount ≤ 2 ^ 47

instance (segment : Segment) : Decidable segment.Below := inferInstanceAs (Decidable (_ ∨ _))

/-- A store of a word that finds in the kernel half the bytes it writes there. -/
def Harmless (half : U64 → Nat → Prop) (σ : Machine) (phys value : U64) : Prop :=
  ∀ k < 8, half (pageBase (phys + BitVec.ofNat 64 k)) (wordIndex (phys + BitVec.ofNat 64 k)) →
    readByte σ (phys + BitVec.ofNat 64 k) = Word.byte value k

/-- What a step of the load asks for, given the machine `σ₀` before the load. -/
def Confined (half : U64 → Nat → Prop) (σ₀ : Machine) (t : Transition Machine Action) : Prop :=
  match t.label with
  | .loadSegment segment => segment.Below
  | .patch phys value => Harmless half σ₀ phys value
  | _ => True

variable (segment : Segment) {own : U64 → Option (U64 × List Nat)} {kernel : Nat → Set U64}
  {half : U64 → Nat → Prop} {σ₀ : Machine}

/-- The pages of a segment. -/
theorem Segment.toNat_page (i : Nat) :
    (segment.page i).toNat = (segment.pageStart.toNat + 4096 * i) % 2 ^ 64 := by
  show (_ + i % 2 ^ 64 * 4096 % 2 ^ 64) % 2 ^ 64 = _
  omega

theorem Segment.toNat_pageStart :
    segment.pageStart.toNat = segment.vaddr.toNat / 4096 * 4096 :=
  toNat_pageBase segment.vaddr

/-- Pages follow each other, so a segment that ends above the bound has a page there. -/
theorem Segment.below_iff :
    segment.Below ↔ ∀ i < segment.pageCount, (segment.page i).toNat < 2 ^ 47 := by
  unfold Segment.Below
  have hstart := segment.toNat_pageStart
  constructor
  · rintro hbelow i hi
    rw [segment.toNat_page]
    omega
  · intro h
    by_cases hcount : segment.pageCount = 0
    · exact .inl hcount
    · right
      by_contra hend
      have hfirst := h 0 (Nat.pos_of_ne_zero hcount)
      have hlt := segment.pageStart.isLt
      -- the page that starts at the bound
      have hpage := h (2 ^ 35 - segment.pageStart.toNat / 4096)
      rw [segment.toNat_page] at hfirst hpage
      omega

/-! ## Pages set aside -/

/-- Count a page as a table of the last level, which may hold anything. -/
def reserve (kernel : Nat → Set U64) (u : U64) (l : Nat) : Set U64 :=
  kernel l ∪ { t | l = 3 ∧ t = u }

section

variable {kernel kernel' : Nat → Set U64} {roots : Set U64}
  {own own' : U64 → Option (U64 × List Nat)} {σ σ' : Machine} {r t u virt phys : U64}
  {half : U64 → Nat → Prop} {ε : Type} {short : Load r ε Unit}

theorem mem_reserve_of_lt {l : Nat} (hl : l < 3) (ht : t ∈ reserve kernel u l) : t ∈ kernel l := by
  rcases ht with ht | ⟨rfl, -⟩
  · exact ht
  · exact absurd hl (lt_irrefl 3)

/-- A page that is no table of a user and not free may be set aside. -/
theorem inv_reserve (h : Inv kernel roots own σ) (hown : own u = none)
    (hfree : ¬ Free σ.pmm u) : Inv (reserve kernel u) roots own σ where
  forest := h.forest
  not_huge := h.not_huge
  not_free := h.not_free
  tables := by
    refine ⟨Or.inl h.tables.pml4, ?_, ?_, ?_⟩
    · intro t ht i v hi hchild
      exact .inl (h.tables.pdpt t (mem_reserve_of_lt (by decide) ht) i v hi hchild)
    · intro l hl t ht hpos i v hchild hhuge
      exact .inl (h.tables.next l hl t (mem_reserve_of_lt hl ht) hpos i v hchild hhuge)
    · rintro l t (ht | ⟨-, rfl⟩)
      · exact h.tables.not_free l t ht
      · exact hfree
  shared := fun r hr i v hi hchild => Or.inl (h.shared r hr i v hi hchild)
  not_owned := by
    rintro l t (ht | ⟨-, rfl⟩)
    · exact h.not_owned l t ht
    · exact hown

/-- The contents of the kernel's tables of the last level do not matter for the owners. -/
theorem inv_of_same_tables (h : Inv kernel roots own σ)
    (howned : ∀ t n, own t = some n → σ'.mem t = σ.mem t)
    (hkernel : ∀ l < 3, ∀ t ∈ kernel l, σ'.mem t = σ.mem t)
    (hpmm : σ'.pmm = σ.pmm) (hpml4 : σ'.kernelPml4 = σ.kernelPml4) :
    Inv kernel roots own σ' where
  forest := h.forest.congr fun t r p i ht _ => child_congr (congrFun (howned t _ ht) i)
  not_huge := by
    intro t r p i ht hi
    rw [howned t _ ht]
    exact h.not_huge t r p i ht hi
  not_free := by
    intro t n ht
    rw [hpmm]
    exact h.not_free t n ht
  tables := by
    refine ⟨hpml4 ▸ h.tables.pml4, ?_, ?_, ?_⟩
    · intro t ht i v hi hchild
      rw [child_congr (congrFun (hkernel 0 (by decide) t ht) i)] at hchild
      exact h.tables.pdpt t ht i v hi hchild
    · intro l hl t ht hpos i v hchild hhuge
      have hentry := congrFun (hkernel l hl t ht) i
      rw [child_congr hentry] at hchild
      rw [hentry] at hhuge
      exact h.tables.next l hl t ht hpos i v hchild hhuge
    · intro l t ht
      rw [hpmm]
      exact h.tables.not_free l t ht
  shared := by
    intro r hr i v hi hchild
    rw [child_congr (congrFun (howned r _ (h.forest.root r hr)) i)] at hchild
    exact h.shared r hr i v hi hchild
  not_owned := h.not_owned

/-- Every table has its owner, and the kernel's tables are among those that are set aside. -/
def Ready (kernel : Nat → Set U64) (roots : Set U64) (σ : Machine) : Prop :=
  ∃ kernel' own, (∀ l, kernel l ⊆ kernel' l) ∧ Inv kernel' roots own σ

/-- Besides, the page `u` has been set aside, and is none of the kernel's tables. -/
def Spare (kernel : Nat → Set U64) (roots : Set U64) (u : U64) (σ : Machine) : Prop :=
  ∃ kernel' own, (∀ l, kernel l ⊆ kernel' l) ∧ Inv kernel' roots own σ ∧
    u ∈ kernel' 3 ∧ (∀ l < 3, u ∉ kernel' l) ∧ (∀ l, u ∉ kernel l) ∧ pageBase u = u

theorem Spare.ready (h : Spare kernel roots u σ) : Ready kernel roots σ := by
  obtain ⟨kernel', own, hsub, hinv, -⟩ := h
  exact ⟨kernel', own, hsub, hinv⟩

/-- An address of a page frame, in other words: what `alloc_page` returns is aligned. -/
theorem pageBase_of_addressMask (h : u &&& addressMask = u) : pageBase u = u := by
  unfold pageBase
  rw [← h, BitVec.and_assoc]
  rfl

theorem Ready.allocPage {pmm' : Pmm} (h : Ready kernel roots σ)
    (halloc : σ.pmm.allocPage = (some u, pmm')) : Spare kernel roots u { σ with pmm := pmm' } := by
  obtain ⟨kernel', own, hsub, hinv⟩ := h
  obtain ⟨-, haligned, hfree⟩ := free_of_allocPage halloc
  obtain ⟨hown, hkernel, -⟩ := hinv.fresh halloc
  obtain ⟨hinv', -⟩ := hinv.take halloc 0
  refine ⟨reserve kernel' u, own, fun l t ht => Or.inl (hsub l ht),
    inv_reserve hinv' hown fun hu => (hfree u hu).2 rfl, Or.inr ⟨rfl, rfl⟩, ?_, ?_,
    pageBase_of_addressMask haligned⟩
  · exact fun l hl hu => hkernel l (mem_reserve_of_lt hl hu)
  · exact fun l hu => hkernel l (hsub l hu)

/-- The entries in question are those of the page table itself and of the kernel's tables. -/
def Guards (kernel : Nat → Set U64) (r : U64) (half : U64 → Nat → Prop) : Prop :=
  ∀ t i, half t i → t = r ∧ 256 ≤ i ∨ ∃ l, t ∈ kernel l

/-- What is written to a page that has been set aside is not in the kernel half. -/
theorem Spare.write (h : Spare kernel roots u σ) (hr : r ∈ roots) (hhalf : Guards kernel r half)
    (hmem : ∀ t ≠ u, σ'.mem t = σ.mem t) (hpmm : σ'.pmm = σ.pmm)
    (hpml4 : σ'.kernelPml4 = σ.kernelPml4) :
    Spare kernel roots u σ' ∧ ∀ t i, half t i → σ'.mem t i = σ.mem t i := by
  obtain ⟨kernel', own, hsub, hinv, hu, hlow, hkernel, haligned⟩ := h
  have hown : own u = none := hinv.not_owned 3 u hu
  have hinv' : Inv kernel' roots own σ' := by
    refine inv_of_same_tables hinv (fun t n ht => hmem t (Forest.ne_of_own ht hown)) ?_ hpmm hpml4
    intro l hl t ht
    refine hmem t ?_
    rintro rfl
    exact hlow l hl ht
  refine ⟨⟨kernel', own, hsub, hinv', hu, hlow, hkernel, haligned⟩, ?_⟩
  intro t i hti
  refine congrFun (hmem t ?_) i
  rintro rfl
  rcases hhalf t i hti with ⟨rfl, -⟩ | ⟨l, ht⟩
  · have hroot := hinv.forest.root t hr
    rw [hown] at hroot
    cases hroot
  · exact hkernel l ht

theorem pml4Index_lt (hvirt : virt.toNat < 2 ^ 47) : pml4Index virt < 256 := by
  unfold pml4Index
  rw [toNat_shift_and]
  omega

/-- Mapping a page of the user leaves the kernel half and the pages set aside alone. -/
theorem Spare.mapEntry (h : Spare kernel roots u σ) (hr : r ∈ roots) (hhalf : Guards kernel r half)
    (hvirt : virt.toNat < 2 ^ 47) (phys flags : U64) :
    Spare kernel roots u (after (mapEntry r virt phys flags σ)) ∧
      ∀ t i, half t i → (after (mapEntry r virt phys flags σ)).mem t i = σ.mem t i := by
  obtain ⟨kernel', own, hsub, hinv, hu, hlow, hkernel, haligned⟩ := h
  have hv := pml4Index_lt hvirt
  obtain ⟨own', hinv', hkeeps⟩ := (hinv.touches_mapEntry hr hv phys flags).keeps
  refine ⟨⟨kernel', own', hsub, hinv', hu, hlow, hkernel, haligned⟩, ?_⟩
  intro t i hti
  rcases hhalf t i hti with ⟨rfl, hi⟩ | ⟨l, ht⟩
  · exact hinv.mapEntry_upper hr hv phys flags hi
  · exact congrFun (hkeeps.kernel l t (hsub l ht)) i

/-! ## Steps on a page -/

/-- The pages that are mapped are pages of the user. -/
def MapsBelow (t : Transition Machine Action) : Prop :=
  ∀ virt phys flags, t.label = .mapPageWithFlags virt phys flags → virt.toNat < 2 ^ 47

theorem agree_allocPage (e : ε) : Traced.Agree (InUserSpace half) MapsBelow (Ready kernel roots)
      (allocPage e : Load r ε U64) (Spare kernel roots) := by
  have hmem : ∀ σ, (attempt (Vmm.allocPage "") e σ).2.mem = σ.mem := by
    intro σ
    rw [attempt_snd]
    rcases allocPage_cases "" σ with ⟨-, herr⟩ | ⟨phys, pmm', -, hok⟩
    · rw [herr]
      rfl
    · rw [hok]
      rfl
  refine .step (fun σ _ => ⟨fun h => h.below, fun h => ⟨h, fun t i _ => ?_⟩⟩) ?_
  · dsimp only
    rw [hmem σ]
  · intro σ phys hσ hresult _
    unfold attempt at hresult ⊢
    rcases allocPage_cases "" σ with ⟨-, herr⟩ | ⟨phys', pmm', halloc, hok⟩
    · rw [herr] at hresult
      cases hresult
    · rw [hok] at hresult ⊢
      cases hresult
      exact hσ.allocPage halloc

variable (hr : r ∈ roots) (hhalf : Guards kernel r half)

include hr hhalf

theorem agree_mapPageWithFlags (virt phys flags : U64) (e : ε) :
    Traced.Agree (InUserSpace half) MapsBelow (Spare kernel roots phys)
      (mapPageWithFlags virt phys flags e : Load r ε Unit) fun _ => Spare kernel roots phys := by
  refine .step (fun σ hσ => ⟨fun h => h.below, fun h => ⟨h, ?_⟩⟩) ?_
  · show ∀ t i, half t i → (attempt _ e σ).2.mem t i = σ.mem t i
    rw [attempt_snd]
    exact (hσ.mapEntry hr hhalf (h virt phys flags rfl) phys flags).2
  · intro σ _ hσ _ h
    rw [attempt_snd]
    exact (hσ.mapEntry hr hhalf (h virt phys flags rfl) phys flags).1

/-- A write to the page that has been set aside stays out of the kernel half. -/
theorem agree_act {a : Action}
    (hmem : ∀ σ, pageBase phys = phys → ∀ t ≠ phys, (a.run r σ).mem t = σ.mem t)
    (hpmm : ∀ σ, (a.run r σ).pmm = σ.pmm) (hpml4 : ∀ σ, (a.run r σ).kernelPml4 = σ.kernelPml4) :
    Traced.Agree (InUserSpace half) MapsBelow (Spare kernel roots phys)
      (act a : Load r ε Unit) fun _ => Spare kernel roots phys := by
  have hwrite : ∀ σ, Spare kernel roots phys σ → Spare kernel roots phys (a.run r σ) ∧
      ∀ t i, half t i → (a.run r σ).mem t i = σ.mem t i := by
    intro σ hσ
    obtain ⟨-, -, -, -, -, -, -, haligned⟩ := id hσ
    exact hσ.write hr hhalf (hmem σ haligned) (hpmm σ) (hpml4 σ)
  refine .step (fun σ hσ => ⟨fun h => h.below, fun h => ⟨h, (hwrite σ hσ).2⟩⟩) ?_
  intro σ _ hσ _ _
  exact (hwrite σ hσ).1

theorem agree_writeBytes (b : U8) :
    Traced.Agree (InUserSpace half) MapsBelow (Spare kernel roots phys)
      (act (.writeBytes phys b) : Load r ε Unit) fun _ => Spare kernel roots phys :=
  agree_act hr hhalf (fun _ _ _ ht => Function.update_of_ne ht _ _) (fun _ => rfl)
    fun _ => rfl

theorem agree_copy {offset : U64} {bytes : List U8} (hlen : offset.toNat + bytes.length ≤ 4096) :
    Traced.Agree (InUserSpace half) MapsBelow (Spare kernel roots phys)
      (act (.copy (phys + offset) bytes) : Load r ε Unit) fun _ => Spare kernel roots phys := by
  refine agree_act hr hhalf ?_ (fun _ => writeBytes_pmm) fun _ => writeBytes_kernelPml4
  intro σ haligned t ht
  refine writeBytes_of_ne fun k hk => ?_
  rw [add_offset, pageBase_add haligned (by omega)]
  exact ht.symm

/-! ## Segments -/

/-- The steps in which a segment is loaded. -/
def OfSegment (segment : Segment) : Action → Prop
  | .mapPageWithFlags virt _ _ => ∃ i < segment.pageCount, virt = segment.page i
  | .loadSegment _ => False
  | .patch _ _ => False
  | _ => True

omit hr hhalf in
/-- The part of a page that comes from the file is a part of the page. -/
theorem copy_in_page {pageVirt segStart segEnd : U64}
    (h : maxU64 pageVirt segStart < minU64 (pageVirt + 4096) segEnd) :
    (maxU64 pageVirt segStart - pageVirt).toNat +
      (minU64 (pageVirt + 4096) segEnd - maxU64 pageVirt segStart).toNat ≤ 4096 := by
  have hstart : pageVirt.toNat ≤ (maxU64 pageVirt segStart).toNat := by
    unfold maxU64
    split
    · next hle => exact le_def.mp hle
    · exact le_refl _
  have hend : (minU64 (pageVirt + 4096) segEnd).toNat ≤ (pageVirt + 4096).toNat := by
    unfold minU64
    split
    · exact le_refl _
    · next hle => exact le_of_lt (Nat.lt_of_not_le fun h => hle (le_def.mpr h))
  have hlt := lt_def.mp h
  have hpage : (pageVirt + 4096).toNat = (pageVirt.toNat + 4096) % 2 ^ 64 := toNat_add _ _
  rw [toNat_sub_of_le (le_def.mpr hstart), toNat_sub_of_le (le_def.mpr (le_of_lt hlt))]
  -- a page at the very end of the address space would end below its start
  omega

variable (slice : Slice) (segment : Segment) (oom : ε)

theorem agree_loadPage (hshort : short.Silent)
    (i : Nat) : Traced.Agree (InUserSpace half) MapsBelow (Ready kernel roots)
      (loadPage slice segment oom short i) fun _ => Ready kernel roots := by
  refine .bind (agree_allocPage oom) fun phys => ?_
  refine .bind (agree_mapPageWithFlags hr hhalf _ phys _ oom) fun _ => ?_
  refine .bind (agree_writeBytes hr hhalf 0) fun _ => ?_
  refine Traced.Agree.imp (J := fun _ => Spare kernel roots phys) ?_ (fun _ h => h)
    fun _ _ h => h.ready
  dsimp only
  split
  · next hcopy =>
      refine .ite hshort.agree (.bind (.reads _) fun peek => agree_copy hr hhalf ?_)
      have hpart := copy_in_page hcopy
      unfold readBytes
      rw [length_map, length_range]
      exact hpart
  · exact .ret ()

omit hr hhalf in
/-- What is recorded while a page of a segment is loaded. -/
theorem logs_loadPage
    (hshort : short.Silent) {i : Nat} (hi : i < segment.pageCount) :
    (loadPage slice segment oom short i).Logs (OfSegment segment) := by
  have hact : ∀ a, OfSegment segment a → (act a : Load r ε Unit).Logs (OfSegment segment) :=
    fun _ ha => .step ha
  refine .bind (.step trivial) fun phys => .bind (.step ⟨i, hi, rfl⟩) fun _ => ?_
  refine .bind (hact _ trivial) fun _ => ?_
  refine Traced.Agree.ite (.ite hshort.agree ?_) (.ret ())
  exact .bind (.reads _) fun peek => hact _ trivial

omit hr hhalf in
/-- A page that has been loaded has been mapped. -/
theorem maps_loadPage {slice : Slice} {segment : Segment} {oom : ε}
    {i : Nat} {u : Unit} (h : (loadPage slice segment oom short i σ).result = .ok u) :
    ∃ t ∈ (loadPage slice segment oom short i σ).trace,
      ∃ phys flags, t.label = .mapPageWithFlags (segment.page i) phys flags := by
  unfold loadPage at h ⊢
  obtain ⟨phys, -, hrest, htrace, -⟩ := Traced.bind_eq_ok h
  obtain ⟨_, -, -, htrace', -⟩ := Traced.bind_eq_ok hrest
  rw [htrace, htrace']
  refine ⟨_, mem_append_right _ (mem_append_left _ (mem_singleton_self _)), ?_⟩
  exact ⟨phys, segment.flags, rfl⟩

omit hr hhalf in
/-- The pages that are mapped with a segment are those of the segment. -/
theorem mapsBelow_loadPages {slice : Slice} {segment : Segment} {oom : ε} (hshort : short.Silent)
    {u : Unit}
    (h : ((List.range segment.pageCount).forM (loadPage slice segment oom short) σ).result =
      .ok u) :
    (∀ t ∈ ((List.range segment.pageCount).forM (loadPage slice segment oom short) σ).trace,
      MapsBelow t) ↔ segment.Below := by
  have hlogs : ((range segment.pageCount).forM (loadPage slice segment oom short)).Logs
      (OfSegment segment) :=
    .forM fun i hi => logs_loadPage slice segment oom hshort (mem_range.mp hi)
  rw [segment.below_iff]
  constructor
  · intro hbelow i hi
    obtain ⟨m, v, hv, hsub⟩ := Traced.forM_eq_ok h (mem_range.mpr hi)
    obtain ⟨t, ht, phys, flags, hlabel⟩ := maps_loadPage hv
    exact hbelow t (hsub ht) _ _ _ hlabel
  · intro hbelow t ht virt phys flags hlabel
    have hof := hlogs.forall h t ht
    rw [hlabel] at hof
    obtain ⟨i, hi, rfl⟩ := hof
    exact hbelow i hi

omit hr hhalf in
/-- Nothing else is asked of the steps in which a segment is loaded. -/
theorem OfSegment.confined {segment : Segment} {t : Transition Machine Action}
    (h : OfSegment segment t.label) : Confined half σ₀ t := by
  unfold Confined
  cases hlabel : t.label with
  | loadSegment segment' | patch phys value =>
    rw [hlabel] at h
    exact h.elim
  | allocPage => trivial
  | mapPageWithFlags virt phys flags => trivial
  | writeBytes page b => trivial
  | copy phys bytes => trivial

/-- **A segment is loaded into user space if and only if its pages are there.** -/
theorem agree_loadPages (hshort : short.Silent) :
    Traced.Agree (InUserSpace half) (Confined half σ₀) (Ready kernel roots)
      (loadPages slice segment oom short) fun _ => Ready kernel roots := by
  intro σ hσ u hu
  unfold loadPages at hu ⊢
  obtain ⟨_, -, hloop, htrace, hstate⟩ := Traced.bind_eq_ok hu
  have hagree : Traced.Agree (InUserSpace half) MapsBelow (Ready kernel roots)
      ((range segment.pageCount).forM (loadPage slice segment oom short))
      fun _ => Ready kernel roots :=
    .forM fun i _ => agree_loadPage hr hhalf slice segment oom hshort i
  have hlogs : ((range segment.pageCount).forM (loadPage slice segment oom short)).Logs
      (OfSegment segment) :=
    .forM fun i hi => logs_loadPage slice segment oom hshort (mem_range.mp hi)
  obtain ⟨hiff, hpost⟩ := hagree σ hσ u hloop
  have hmaps := mapsBelow_loadPages hshort hloop
  have hfirst : InUserSpace half ⟨σ, .loadSegment segment, σ⟩ := ⟨nofun, fun _ _ _ => rfl⟩
  have hstart : ((act (.loadSegment segment) : Load r ε Unit) σ).trace =
      [⟨σ, .loadSegment segment, σ⟩] := rfl
  simp only [htrace, hstate, hstart, forall_mem_append, forall_mem_singleton]
  refine ⟨?_, fun h => hpost (hmaps.mpr h.1)⟩
  constructor
  · rintro ⟨-, h⟩
    exact ⟨hmaps.mp (hiff.mp h), fun t ht => (hlogs.forall hloop t ht).confined⟩
  · rintro ⟨h, -⟩
    exact ⟨hfirst, hiff.mpr (hmaps.mpr h)⟩

/-! ## Loaders -/

theorem agree_loadElf :
    Traced.Agree (InUserSpace half) (Confined half σ₀) (Ready kernel roots)
      (LoadedElf.load slice : Load r ElfError LoadedElf) fun _ => Ready kernel roots := by
  refine .bind (.failIf _ _) fun _ => .bind (.reads _) fun peek => ?_
  refine .bind (.failIf _ _) fun _ => .bind (.failIf _ _) fun _ => .bind (.failIf _ _) fun _ => ?_
  refine .bind (.failIf _ _) fun _ => .bind (.failIf _ _) fun _ => ?_
  refine .bind (.forM fun i _ => ?_) fun _ => .ret _
  refine .bind (.failIf _ _) fun _ => .bind (.reads _) fun peek' => ?_
  exact .ite (agree_loadPages hr hhalf slice _ _ fun _ => ⟨rfl, rfl⟩) (.ret ())

theorem agree_loadCommand (peek : U64 → U8) (p : MachOLoader.Progress) :
    Traced.Agree (InUserSpace half) (Confined half σ₀) (Ready kernel roots)
      (MachOLoader.loadCommand slice peek p : Load r Stop MachOLoader.Progress)
      fun _ => Ready kernel roots := by
  refine .ite (.bind ?_ fun _ => .ret _) (.ite (.ret _) (.ite (.ite (.ret _) (.ret _)) (.ret _)))
  exact .ite (.ret ()) (agree_loadPages hr hhalf slice _ _ fun _ => ⟨rfl, rfl⟩)

theorem agree_loadCommands (n : Nat) (p : MachOLoader.Progress) :
    Traced.Agree (InUserSpace half) (Confined half σ₀) (Ready kernel roots)
      (MachOLoader.loadCommands slice n p : Load r Stop MachOLoader.Progress)
      fun _ => Ready kernel roots := by
  induction n generalizing p with
  | zero => exact .ret p
  | succ n ih =>
    refine .ite (.ret p) (.bind (.reads _) fun peek => ?_)
    exact .bind (agree_loadCommand hr hhalf slice peek p) fun p' => ih p'

theorem agree_loadMachO :
    Traced.Agree (InUserSpace half) (Confined half σ₀) (Ready kernel roots)
      (MachOLoader.load slice : Load r Stop LoadedImage) fun _ => Ready kernel roots := by
  refine .bind (.failIf _ _) fun _ => .bind (.reads _) fun peek => .bind (.failIf _ _) fun _ => ?_
  refine .bind (agree_loadCommands hr hhalf slice _ _) fun p => ?_
  split
  · exact .ret _
  · exact .fail _

/-! ## Stubs and imports -/

/-- The page of the stubs as a segment. -/
def stubsSegment : Segment := ⟨PePatcher.stubsVirt, 4096, 0, 0, Flags.user ||| Flags.present⟩

/-- The stubs have an address of the user. -/
theorem agree_createStubs :
    Traced.Agree (InUserSpace half) (Confined half σ₀) (Ready kernel roots)
      (PePatcher.createStubs oom : Load r ε U64) fun _ => Ready kernel roots := by
  have hagree : Traced.Agree (InUserSpace half) MapsBelow (Ready kernel roots)
      (PePatcher.createStubs oom : Load r ε U64) fun _ => Ready kernel roots := by
    refine .bind (agree_allocPage oom) fun phys => ?_
    refine .bind (agree_mapPageWithFlags hr hhalf _ phys _ oom) fun _ => ?_
    refine .bind (agree_writeBytes hr hhalf 0xCC) fun _ => ?_
    refine .bind (agree_copy hr hhalf (by decide)) fun _ => ?_
    refine .bind (agree_copy hr hhalf (by decide)) fun _ => ?_
    refine .bind (agree_copy hr hhalf (by decide)) fun _ => ?_
    exact (Traced.Agree.ret _).imp (fun _ h => h) fun _ _ h => h.ready
  have hlogs : (PePatcher.createStubs oom : Load r ε U64).Logs (OfSegment stubsSegment) := by
    have hact : ∀ a, OfSegment stubsSegment a →
        (act a : Load r ε Unit).Logs (OfSegment stubsSegment) := fun _ ha => .step ha
    refine .bind (.step trivial) fun phys => .bind (.step ⟨0, by decide, by decide⟩) fun _ => ?_
    refine .bind (hact _ trivial) fun _ => .bind (hact _ trivial) fun _ => ?_
    exact .bind (hact _ trivial) fun _ => .bind (hact _ trivial) fun _ => .ret _
  intro σ hσ a ha
  obtain ⟨hiff, hpost⟩ := hagree σ hσ a ha
  have hbelow : ∀ t ∈ ((PePatcher.createStubs oom : Load r ε U64) σ).trace, MapsBelow t := by
    intro t ht virt phys flags hlabel
    have hof := hlogs.forall ha t ht
    rw [hlabel] at hof
    obtain ⟨i, hi, rfl⟩ := hof
    exact stubsSegment.below_iff.mp (by decide) i hi
  have hconfined : ∀ t ∈ ((PePatcher.createStubs oom : Load r ε U64) σ).trace, Confined half σ₀ t :=
    fun t ht => (hlogs.forall ha t ht).confined
  exact ⟨⟨fun _ => hconfined, fun _ => hiff.mpr hbelow⟩, fun _ => hpost hbelow⟩

omit hr hhalf

theorem length_toBytes (value : U64) : (Word.toBytes value).length = 8 := by
  unfold Word.toBytes
  rw [length_map, length_range]

/-- **A store to the import address table** leaves the kernel half as it is if and only if it finds
there what it writes. -/
theorem inUserSpace_patch_iff {value : U64} :
    InUserSpace half ⟨σ, .patch phys value, Vmm.writeBytes σ phys (Word.toBytes value)⟩ ↔
      Harmless half σ phys value := by
  have hlen : (Word.toBytes value).length < 2 ^ 64 := by
    rw [length_toBytes]
    decide
  have hbyte : ∀ k (hk : k < (Word.toBytes value).length),
      (Word.toBytes value)[k] = Word.byte value k := by
    intro k hk
    simp [Word.toBytes]
  constructor
  · intro h k hk hin
    have hk' : k < (Word.toBytes value).length := by rwa [length_toBytes]
    rw [← hbyte k hk']
    exact (writeBytes_eq_iff hlen).mp (h.kept _ _ hin) k hk' rfl rfl
  · intro h
    refine ⟨nofun, fun s i hsi => (writeBytes_eq_iff hlen).mpr ?_⟩
    rintro k hk rfl rfl
    rw [hbyte k hk]
    exact h k hk hsi

/-- The kernel half is still as it was in `σ₀`. -/
def Same (half : U64 → Nat → Prop) (σ₀ σ : Machine) : Prop :=
  ∀ t i, half t i → σ.mem t i = σ₀.mem t i

theorem InUserSpace.same {t : Transition Machine Action} (h : InUserSpace half t)
    (hsame : Same half σ₀ t.src) : Same half σ₀ t.dst :=
  fun s i hsi => (h.kept s i hsi).trans (hsame s i hsi)

/-- So it does not matter whether a store is compared with the memory now or before the load. -/
theorem Same.harmless_iff {value : U64} (h : Same half σ₀ σ) :
    Harmless half σ phys value ↔ Harmless half σ₀ phys value := by
  refine forall_congr' fun k => forall_congr' fun _ => forall_congr' fun hin => ?_
  unfold readByte
  rw [h _ _ hin]

theorem agree_patch (phys value : U64) :
    Traced.Agree (InUserSpace half) (Confined half σ₀) (Same half σ₀)
      (act (.patch phys value) : Load r ε Unit) fun _ => Same half σ₀ := by
  refine .step (fun σ hσ => inUserSpace_patch_iff.trans hσ.harmless_iff) fun σ _ hσ _ hC => ?_
  exact (inUserSpace_patch_iff.mpr (hσ.harmless_iff.mpr hC)).same hσ

theorem agree_patchThunk (imageBase stubsBase thunk : U64) (iatRva : U32) :
    Traced.Agree (InUserSpace half) (Confined half σ₀) (Same half σ₀)
      (PeLoader.patchThunk imageBase stubsBase thunk iatRva : Load r Stop Unit)
      fun _ => Same half σ₀ := by
  refine .bind (.reads _) fun m => .ite (.ret ()) ?_
  dsimp only
  split
  · exact .ret ()
  · refine .ite ?_ (.ret ())
    split
    · exact .ret ()
    · split
      · exact .fail _
      · exact agree_patch _ _

theorem agree_patchThunks (imageBase stubsBase : U64) (fuel : Nat) (thunkRva iatRva : U32) :
    Traced.Agree (InUserSpace half) (Confined half σ₀) (Same half σ₀)
      (PeLoader.patchThunks imageBase stubsBase fuel thunkRva iatRva : Load r Stop Unit)
      fun _ => Same half σ₀ := by
  induction fuel generalizing thunkRva iatRva with
  | zero => exact .fail _
  | succ fuel ih =>
    refine .bind (.reads _) fun m => ?_
    split
    · exact .fail _
    · exact .ite (.ret ()) (.bind (agree_patchThunk _ _ _ _) fun _ => ih _ _)

theorem agree_patchDescriptors (imageBase stubsBase : U64) (fuel : Nat) (descriptorRva : U32) :
    Traced.Agree (InUserSpace half) (Confined half σ₀) (Same half σ₀)
      (PeLoader.patchDescriptors imageBase stubsBase fuel descriptorRva : Load r Stop Unit)
      fun _ => Same half σ₀ := by
  induction fuel generalizing descriptorRva with
  | zero => exact .fail _
  | succ fuel ih =>
    refine .bind (.reads _) fun m => ?_
    split
    · exact .fail _
    · refine .ite (.ret ()) (.bind ?_ fun _ => ih _)
      refine .bind (.reads _) fun m' => ?_
      split
      · exact .ret ()
      · exact .ite (agree_patchThunks _ _ _ _ _) (.ret ())

include hr hhalf

theorem agree_loadPe (fuel : Nat) :
    Traced.Agree (InUserSpace half) (Confined half σ₀)
      (fun σ => Ready kernel roots σ ∧ Same half σ₀ σ)
      (PeLoader.load slice fuel : Load r Stop LoadedImage) fun _ => Same half σ₀ := by
  have hpatch : ∀ header stubsBase,
      Traced.Agree (InUserSpace half) (Confined half σ₀) (Same half σ₀)
        (PeLoader.patchImports header stubsBase fuel : Load r Stop Unit) fun _ => Same half σ₀ :=
    fun _ _ => .ite (.ret ()) (.ite (.ret ()) (agree_patchDescriptors _ _ _ _))
  refine .bind ((agree_createStubs hr hhalf _).keeping fun _ h => h.same) fun stubsBase => ?_
  refine .bind (.failIf _ _) fun _ => .bind (.reads _) fun peek => .bind (.failIf _ _) fun _ => ?_
  refine .bind (.failIf _ _) fun _ => .bind (.failIf _ _) fun _ => .bind (.failIf _ _) fun _ => ?_
  refine .bind (.failIf _ _) fun _ => .bind (.failIf _ _) fun _ => ?_
  refine .bind (.forM fun i _ => ?_) fun _ => ?_
  · unfold PeLoader.loadHeader
    refine .bind (.reads _) fun peek' => .ite (.ret ()) ?_
    exact (agree_loadPages hr hhalf slice _ _ fun _ => ⟨rfl, rfl⟩).keeping fun _ h => h.same
  · -- the tables of the user are not needed any longer
    refine .bind ((hpatch _ stubsBase).imp (fun _ h => h.2) fun _ _ h => h) fun _ => ?_
    exact .ret _

theorem agree_load (fuel : Nat) :
    Traced.Agree (InUserSpace half) (Confined half σ₀)
      (fun σ => Ready kernel roots σ ∧ Same half σ₀ σ)
      (load slice fuel : Load r Stop LoadedImage) fun _ _ => True := by
  unfold load
  split
  · exact (agree_loadMachO hr hhalf slice).imp (fun _ h => h.1) fun _ _ _ => trivial
  · exact (agree_loadPe hr hhalf slice fuel).imp (fun _ h => h) fun _ _ _ => trivial
  · refine Traced.Agree.imp (I := Ready kernel roots) ?_ (fun _ h => h.1) fun _ _ h => h
    refine .mapError (.bind (agree_loadElf hr hhalf slice) fun _ => ?_)
    exact (Traced.Agree.ret _).imp (fun _ _ => trivial) fun _ _ _ => trivial
  · exact .fail _

end

/-! ## The whole load -/

/-- The tables that a page table shares with the kernel are tables of the kernel. -/
theorem SharedTable.mem_kernel {roots : Set U64} {σ : Machine} {r t : U64}
    {l : Nat} (h : Inv kernel roots own σ) (hr : r ∈ roots) (ht : SharedTable σ r l t) :
    0 < l ∧ t ∈ kernel l := by
  induction ht with
  | pdpt hi hchild => exact ⟨Nat.one_pos, h.shared r hr _ _ hi hchild⟩
  | next _ hl _ hchild hhuge ih =>
    exact ⟨Nat.succ_pos _, h.tables.next _ hl _ ih.2 ih.1 _ _ hchild hhuge⟩

theorem guards_kernelHalf {roots : Set U64} {σ : Machine} {r : U64}
    (h : Inv kernel roots own σ) (hr : r ∈ roots) : Guards kernel r (KernelHalf σ r) := by
  rintro t i ⟨-, ht | ⟨l, ht⟩⟩
  · exact .inl ht
  · exact .inr ⟨l, (ht.mem_kernel h hr).2⟩

/-- **An executable is loaded into user space** if and only if the pages of all its segments are
there, and every store to its import address table finds what it writes wherever it goes to the
kernel half as it was before the load. -/
theorem inUserSpace_iff_confined {s₀ s : System} {τ : List (Transition System Event)} {r : U64}
    (hboot : Boot s₀) (hrun : Run Vmm.Step s₀ τ s) (hr : r ∈ s.roots) (slice : Slice) (fuel : Nat)
    {image : LoadedImage}
    (hload : ((load slice fuel : Load r Stop LoadedImage) s.machine).result = .ok image) :
    (∀ t ∈ ((load slice fuel : Load r Stop LoadedImage) s.machine).trace,
      InUserSpace (KernelHalf s.machine r) t) ↔
    ∀ t ∈ ((load slice fuel : Load r Stop LoadedImage) s.machine).trace,
      Confined (KernelHalf s.machine r) s.machine t := by
  obtain ⟨own, hinv⟩ := owned_of_run hboot hrun
  have hready : Ready s.kernel s.roots s.machine := ⟨s.kernel, own, fun _ _ ht => ht, hinv⟩
  exact (agree_load hr (guards_kernelHalf hinv hr) slice fuel s.machine ⟨hready, fun _ _ _ => rfl⟩
    image hload).1

/-! ## A file with one segment -/

/-- The first bytes of a word. -/
def field (n : Nat) (w : U64) : List U8 := (Word.toBytes w).take n

/-- An ELF file that asks for one byte of memory at the address, which is also its entry. -/
def elfFile (vaddr : U64) : List U8 :=
  [0x7F, 0x45, 0x4C, 0x46, 2, 1] ++ List.replicate 10 0 ++ field 2 2 ++ List.replicate 6 0 ++
    field 8 vaddr ++ field 8 64 ++ List.replicate 14 0 ++ field 2 56 ++ field 2 1 ++
    List.replicate 6 0 ++ field 4 1 ++ field 4 5 ++ field 8 0 ++ field 8 vaddr ++ field 8 0 ++
    field 8 0 ++ field 8 1 ++ field 8 0

theorem length_field {n : Nat} (hn : n ≤ 8) (w : U64) : (field n w).length = n := by
  unfold field
  rw [length_take, length_toBytes, min_eq_left hn]

theorem length_elfFile (vaddr : U64) : (elfFile vaddr).length = 120 := by
  unfold elfFile
  simp [length_field]

def elfSlice (vaddr : U64) : Slice where
  data := ⟨elfFile vaddr, by
    rw [length_elfFile]
    decide⟩
  around := fun _ _ => 0

/-- The file is loaded into the page table of `smallSystem`. -/
def loadElfFile (vaddr : U64) :
    Traced.Outcome (fun σ (a : Action) σ' => σ' = a.run 0x2000 σ) Stop LoadedImage
      (smallSystem.create 0x2000).machine :=
  load (elfSlice vaddr) 0 (smallSystem.create 0x2000).machine

/-- A step of which it is plain that it is confined. -/
def Action.plain : Action → Bool
  | .loadSegment segment => segment.Below
  | .patch _ _ => false
  | _ => true

variable {t : Transition Machine Action}

theorem confined_of_plain
    (h : t.label.plain = true) : Confined half σ₀ t := by
  unfold Confined
  split
  · next segment hlabel =>
      rw [hlabel] at h
      exact of_decide_eq_true h
  · next hlabel =>
      rw [hlabel] at h
      cases h
  · trivial

/-- A page is mapped above the bound. -/
def Action.mapsAbove : Action → Bool
  | .mapPageWithFlags virt _ _ => 2 ^ 47 ≤ virt.toNat
  | _ => false

theorem not_inUserSpace_of_mapsAbove
    (h : t.label.mapsAbove = true) : ¬ InUserSpace half t := by
  intro huser
  cases hlabel : t.label with
  | mapPageWithFlags virt phys flags =>
    rw [hlabel] at h
    exact absurd (of_decide_eq_true h) (not_le.mpr (huser.below virt phys flags hlabel))
  | _ =>
    rw [hlabel] at h
    cases h

/-- The file with an address of the user, loaded by the run that boots and makes a page table. -/
theorem inUserSpace_elfFile : (loadElfFile 0x400000).result = .ok ⟨0x400000⟩ ∧
    ∀ t ∈ (loadElfFile 0x400000).trace,
      InUserSpace (KernelHalf (smallSystem.create 0x2000).machine 0x2000) t := by
  have hrun : (loadElfFile 0x400000).result = .ok ⟨0x400000⟩ ∧
      (loadElfFile 0x400000).trace.all (·.label.plain) = true := by
    decide +kernel
  obtain ⟨hload, hplain⟩ := hrun
  refine ⟨hload, (inUserSpace_iff_confined boot_smallSystem (.single step_create_smallSystem)
    (.inr rfl) (elfSlice 0x400000) 0 hload).mpr fun t ht => ?_⟩
  exact confined_of_plain (all_eq_true.mp hplain t ht)

/-- With an address of the kernel, the file is accepted all the same: its page is mapped there, and
the page table has a new entry in its kernel half. -/
theorem not_inUserSpace_kernel_address :
    (loadElfFile 0xFFFFFFFF80000000).result = .ok ⟨0xFFFFFFFF80000000⟩ ∧
    (∃ t ∈ (loadElfFile 0xFFFFFFFF80000000).trace,
      ¬ InUserSpace (KernelHalf (smallSystem.create 0x2000).machine 0x2000) t) ∧
    isPresent ((smallSystem.create 0x2000).machine.mem 0x2000 511) = false ∧
    isPresent ((loadElfFile 0xFFFFFFFF80000000).state.mem 0x2000 511) = true := by
  have hmaps : (loadElfFile 0xFFFFFFFF80000000).trace.any (·.label.mapsAbove) = true := by
    decide +kernel
  obtain ⟨t, ht, habove⟩ := any_eq_true.mp hmaps
  refine ⟨?_, ⟨t, ht, not_inUserSpace_of_mapsAbove habove⟩, ?_, ?_⟩ <;> decide +kernel

end BeastOs.UniversalExec
