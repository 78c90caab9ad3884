import BeastOs.Memory.HugePages

/-!
# Unmapping and faults where there are huge pages

`translate` stops at a huge page. `unmap_page` and `handle_fault` do not know huge pages: they
follow every present entry, and take the frame of a huge page for a table. What they find there is
data.

So the three walkers agree (`WalkersAgree`) on pages of 4 KiB. On a part of a huge page they agree
only as long as the data does not look like an entry (`walkersAgree_iff`): if it does, unmapping
clears it and maps nothing out, and a fault there overwrites it.
-/

namespace BeastOs.Vmm

open List Lib PageTableEntry Paging

/-- The page is part of a huge page. -/
def Covered (σ : Machine) (r virt : U64) : Prop := 0 < (leaf σ r virt).1
  deriving Decidable

/-- The addresses that a hierarchy speaks of: those of its slots, and those of the recursive slot if
it leads back to the PML4. -/
def Spanned (σ : Machine) (r v : U64) : Prop :=
  outsideRecursive (pml4Index v) ∨ table σ.mem r recursiveEntry = some r

/-- The entry of the page on the last level waits for its first use. -/
def WaitsForUse (σ : Machine) (r virt : U64) : Prop :=
  ∃ pt, walk (table σ.mem) r (directory virt) = some pt ∧ OnDemand (σ.mem pt (ptIndex virt))

/-- What it means to have unmapped a page, with the answer `phys`. -/
structure Unmapped (σ : Machine) (r virt phys : U64) (σ' : Machine) : Prop where
  was_mapped : translate σ r virt = some (phys + (virt &&& 0xFFF)) ∨ WaitsForUse σ r virt
  not_mapped : translate σ' r virt = none
  others : ∀ v, Spanned σ r v → path v ≠ path virt → translate σ' r v = translate σ r v
  writes : ∀ s j, σ'.mem s j ≠ σ.mem s j → OnWalk σ r virt s

/-- What it means to have handled a fault. -/
structure Handled (σ : Machine) (r virt : U64) (σ' : Machine) : Prop where
  not_mapped : translate σ r virt = none
  writes : ∀ s j, σ'.mem s j ≠ σ.mem s j → OnWalk σ r virt s ∨ Taken σ σ' s

/-- Unmapping a page and handling a fault at it agree with its translation. A call that fails
changes nothing. -/
structure WalkersAgree (σ : Machine) (r virt : U64) : Prop where
  unmaps : ∀ phys σ', unmapPage r virt σ = .ok phys σ' → Unmapped σ r virt phys σ'
  handles : ∀ σ', handleFault r virt σ = .ok () σ' → Handled σ r virt σ'
  unmap_fails : ∀ m σ', unmapPage r virt σ = .error m σ' → σ' = σ
  fault_fails : ∀ m σ', handleFault r virt σ = .error m σ' → σ' = σ

variable {own : U64 → Option (U64 × List Nat)} {σ σ' : Machine} {r t u virt v e pt : U64}
  {p : List Nat} {i : Nat}

/-! ## Huge pages on a walk -/

theorem Covered.leaf_isPresent (h : Covered σ r virt) :
    isPresent (leaf σ r virt).2 = true ∧ (reading σ r (path virt)).length < 4 := by
  unfold Covered leaf at h
  unfold leaf
  cases hlast : (reading σ r (path virt)).getLast? with
  | none =>
    unfold leafOf at h
    rw [hlast] at h
    exact absurd h (lt_irrefl 0)
  | some e =>
    rw [leafOf_of_getLast? hlast] at h ⊢
    split at h
    next hend =>
      have hlen : (reading σ r (path virt)).length < 4 := by
        omega
      rw [if_pos hend]
      exact ⟨hend.resolve_left (ne_of_lt hlen), hlen⟩
    · exact absurd h (lt_irrefl 0)

/-- The walk to a part of a huge page does not come to a page table. -/
theorem Covered.walk_eq_none (h : Covered σ r virt) :
    walk (table σ.mem) r (directory virt) = none := by
  cases hwalk : walk (table σ.mem) r (directory virt) with
  | none => rfl
  | some t =>
    have hlen := h.leaf_isPresent.2
    rw [path_eq_snoc, reading_append hwalk, length_append, length_reading_of_walk hwalk,
      reading_singleton] at hlen
    exact absurd hlen (lt_irrefl 4)

/-- It is the same for all parts of the huge page. -/
theorem Covered.trail_eq (h : Covered σ r virt) (i : Nat) :
    trail (table σ.mem) r (directory virt ++ [i]) = trail (table σ.mem) r (path virt) := by
  simp only [path_eq_snoc, trail_append_none h.walk_eq_none]

/-- A walk that ends early has come to a huge page or to an empty entry. -/
theorem covered_iff_of_walk (h : walk (table σ.mem) r (directory virt) = none) :
    ∃ p₁ i p₂ t, directory virt = p₁ ++ i :: p₂ ∧ walk (table σ.mem) r p₁ = some t ∧
      table σ.mem t i = none ∧ (Covered σ r virt ↔ isPresent (σ.mem t i) = true) ∧
      (isPresent (σ.mem t i) = false → leaf σ r virt = (0, 0)) := by
  obtain ⟨p₁, i, p₂, t, hp, hwalk, hnone⟩ := exists_of_walk_eq_none h
  have hlen : p₁.length + 1 ≤ 3 := by
    have hlen : 3 = _ := congrArg length hp
    rw [length_append, length_cons] at hlen
    omega
  have hread : reading σ r (path virt) = reading σ r p₁ ++ [σ.mem t i] := by
    rw [path_eq_snoc, hp, append_assoc, reading_append hwalk, cons_append, reading_cons_none hnone]
  have hleaf : leaf σ r virt =
      if isPresent (σ.mem t i) = true then (3 - p₁.length, σ.mem t i) else (0, 0) := by
    have hlast : (reading σ r p₁ ++ [σ.mem t i]).getLast? = some (σ.mem t i) := by simp
    unfold leaf
    rw [hread, leafOf_of_getLast? hlast, length_append, length_reading_of_walk hwalk]
    cases isPresent (σ.mem t i) <;> grind
  refine ⟨p₁, i, p₂, t, hp, hwalk, hnone, ?_, fun habsent => by rw [hleaf, habsent]; rfl⟩
  unfold Covered
  rw [hleaf]
  split
  next hpresent => exact iff_of_true (by omega) hpresent
  next habsent => exact iff_of_false (lt_irrefl 0) habsent

theorem walk_child_of_table (h : walk (table σ.mem) t p = some u) :
    walk (child σ.mem) t p = some u := by
  induction p generalizing t with
  | nil => exact h
  | cons i p ih =>
    obtain ⟨s, hs, h⟩ := Option.bind_eq_some_iff.mp h
    obtain ⟨hpresent, -, hs⟩ := table_eq_some.mp hs
    rw [walk, child_eq_some.mpr ⟨hpresent, hs⟩]
    exact ih h

/-- Elsewhere the walkers come to the same table. -/
theorem walk_table_of_not_covered (h : ¬ Covered σ r virt)
    (hchild : walk (child σ.mem) r (directory virt) = some pt) :
    walk (table σ.mem) r (directory virt) = some pt := by
  cases htable : walk (table σ.mem) r (directory virt) with
  | none =>
    obtain ⟨p₁, i, p₂, t, hp, hwalk, -, hiff, -⟩ := covered_iff_of_walk htable
    rw [hp, walk_append, walk_child_of_table hwalk, Option.bind_some] at hchild
    obtain ⟨s, hs, -⟩ := Option.bind_eq_some_iff.mp hchild
    exact absurd (hiff.mpr (child_eq_some.mp hs).1) h
  | some w => rw [← walk_child_of_table htable, hchild]

/-! ## Translations before and after -/

variable (h : Hierarchy outsideRecursive σ r own)

include h in
theorem Hierarchy.pml4_of_spanned (hv : Spanned σ r v)
    (hpresent : isPresent (σ.mem r (pml4Index v)) = true) :
    has (σ.mem r (pml4Index v)) Flags.hugePage = false := by
  by_cases hslot : pml4Index v = recursiveEntry
  · rw [hslot]
    exact (table_eq_some.mp (hv.resolve_left fun hne => hne hslot)).2.1
  · exact h.pml4 _ ⟨by decide, index_lt v 39, fun _ => hslot⟩ hpresent

theorem mem_trail_path (σ : Machine) (r v : U64) :
    (r, pml4Index v) ∈ trail (table σ.mem) r (path v) :=
  mem_cons_self

section

variable (h : Hierarchy outsideRecursive σ r own) (hv : Spanned σ r v)
include h hv

theorem Hierarchy.translate_congr
    (hsame : ∀ x ∈ trail (table σ.mem) r (path v), σ'.mem x.1 x.2 = σ.mem x.1 x.2) :
    translate σ' r v = translate σ r v := by
  have hroot : σ'.mem r (pml4Index v) = σ.mem r (pml4Index v) := hsame _ (mem_trail_path σ r v)
  rw [translate_eq_frameOf (h.pml4_of_spanned hv), translate_eq_frameOf, leaf, leaf,
    reading_congr hsame]
  rw [hroot]
  exact h.pml4_of_spanned hv

/-- Where an entry on the walk has been cleared, nothing is mapped any more. -/
theorem Hierarchy.translate_cleared (hsame : ∀ s j, σ'.mem s j = σ.mem s j ∨ σ'.mem s j = 0)
    {x : U64 × Nat} (hx : x ∈ trail (table σ.mem) r (path v)) (hzero : σ'.mem x.1 x.2 = 0) :
    translate σ' r v = none := by
  rw [translate_eq_frameOf, leaf, leafOf_eq_zero (getLast?_reading_cleared hsame ⟨x, hx, hzero⟩)]
  · rfl
  · intro hpresent
    rcases hsame r (pml4Index v) with hroot | hroot
    · rw [hroot] at hpresent ⊢
      exact h.pml4_of_spanned hv hpresent
    · rw [hroot, isPresent_zero] at hpresent
      cases hpresent

theorem Hierarchy.translate_covered (hcovered : Covered σ r v) : translate σ r v ≠ none := by
  rw [translate_eq_frameOf (h.pml4_of_spanned hv), frameOf, if_pos hcovered.leaf_isPresent.1]
  exact Option.some_ne_none _

/-- A page of 4 KiB is where its entry says. -/
theorem Hierarchy.translate_of_walk (hwalk : walk (table σ.mem) r (directory v) = some pt) :
    translate σ r v = if isPresent (σ.mem pt (ptIndex v)) then
      some (physicalAddress (σ.mem pt (ptIndex v)) + (v &&& 0xFFF)) else none := by
  rw [translate_eq_frameOf (h.pml4_of_spanned hv), leaf_of_walk hwalk]
  rfl

end

/-! ## The entry that is cleared -/

theorem setAddress_zero : setAddress 0 0 = 0 := by decide

theorem write_zero_cases (σ : Machine) (t : U64) (i : Nat) (s : U64) (j : Nat) :
    (write σ t i 0).mem s j = σ.mem s j ∨ (write σ t i 0).mem s j = 0 := by
  by_cases hsj : s = t ∧ j = i
  · obtain ⟨rfl, rfl⟩ := hsj
    exact .inr (write_self σ s j 0)
  · exact .inl (write_of_ne σ 0 hsj)

include h in
/-- Behind the recursive slot, walks come to page tables but do not read them. -/
theorem Hierarchy.of_mem_trail_recursive
    (hrec : table σ.mem r recursiveEntry = some r) (hp : p.length ≤ 3) (hlt : ∀ i ∈ p, i < 512)
    {x : U64 × Nat} (hx : x ∈ trail (table σ.mem) r p) :
    ∃ q, q.length < 3 ∧ own x.1 = some (r, q) := by
  induction p with
  | nil => cases hx
  | cons i p ih =>
    by_cases hi : i = recursiveEntry
    · subst hi
      rw [trail_cons_some hrec] at hx
      rcases mem_cons.mp hx with rfl | hx
      · exact ⟨[], by decide, h.own_root⟩
      · exact ih (Nat.le_of_succ_le hp) (fun j hj => hlt j (mem_cons_of_mem _ hj)) hx
    · have hinner : InnerTo (InSlots outsideRecursive) [] (i :: p) := by
        intro p₁ j p₂ heq hne
        have hlen := congrArg length heq
        have hpos := length_pos_iff.mpr hne
        rw [length_append, length_cons, length_cons] at hlen
        refine ⟨by rw [nil_append]; rw [length_cons] at hp; omega, hlt j ?_, ?_⟩
        · rw [heq]
          simp
        · intro hnil
          subst hnil
          rw [← (cons.inj heq).1]
          exact hi
      obtain ⟨p₁, p₂, heq, hown⟩ := h.forest.of_mem_trail h.own_root hinner hx
      have hlen := congrArg length heq
      rw [length_append, length_cons, length_cons] at hlen
      rw [length_cons] at hp
      exact ⟨p₁, by omega, hown⟩

include h in
/-- The entry of a page is read on no walk but its own. -/
theorem Hierarchy.not_mem_trail (hpt : own pt = some (r, directory virt)) (hv : Spanned σ r v)
    (hne : path v ≠ path virt) : ∀ x ∈ trail (table σ.mem) r (path v),
      (write σ pt (ptIndex virt) 0).mem x.1 x.2 = σ.mem x.1 x.2 := by
  by_cases hslot : pml4Index v = recursiveEntry
  · have hrec := hv.resolve_left fun hne => hne hslot
    intro x hx
    have hpath : path v = recursiveEntry :: [pdptIndex v, pdIndex v, ptIndex v] := by
      rw [← hslot]
      rfl
    rw [hpath, trail_cons_some hrec] at hx
    have hshort : ∃ q, q.length < 3 ∧ own x.1 = some (r, q) := by
      rcases mem_cons.mp hx with rfl | hx
      · exact ⟨[], by decide, h.own_root⟩
      · refine h.of_mem_trail_recursive hrec le_rfl (fun i hi => ?_) hx
        exact lt_of_mem_path (hpath ▸ mem_cons_of_mem _ hi)
    obtain ⟨q, hq, hown⟩ := hshort
    refine write_of_ne σ 0 ?_
    rintro ⟨hxt, -⟩
    rw [hxt, hpt] at hown
    cases hown
    exact absurd hq (lt_irrefl 3)
  · exact h.not_leafEntry hpt hslot hne 0

/-! ## Unmapping and faults -/

/-- What the walkers take for the entry of a page is no entry. -/
def NoEntry (σ : Machine) (r virt : U64) : Prop :=
  isPresent (leafEntry σ r virt) = false ∧ ¬ OnDemand (leafEntry σ r virt)

instance (σ : Machine) (r virt : U64) : Decidable (NoEntry σ r virt) :=
  inferInstanceAs (Decidable (_ ∧ _))

theorem unmapPage_fails {m : String} (h : unmapPage r virt σ = .error m σ') : σ' = σ := by
  rcases unmapPage_eq r virt σ with ⟨m', herr, -⟩ | ⟨pt, -, -, hok⟩
  · rw [herr] at h
    cases h
    rfl
  · rw [hok] at h
    cases h

theorem handleFault_fails {m : String} (h : handleFault r virt σ = .error m σ') : σ' = σ := by
  rcases handleFault_eq r virt σ with ⟨m', herr, -⟩ | ⟨pt, phys, pmm', -, -, -, hok⟩
  · rw [herr] at h
    cases h
    rfl
  · rw [hok] at h
    cases h

/-- A call that unmaps clears what it takes for the entry of the page. -/
theorem unmapPage_ok {phys : U64} (h : unmapPage r virt σ = .ok phys σ') :
    ∃ pt, walk (child σ.mem) r (directory virt) = some pt ∧ ¬ NoEntry σ r virt ∧
      phys = physicalAddress (σ.mem pt (ptIndex virt)) ∧ σ' = write σ pt (ptIndex virt) 0 := by
  rcases unmapPage_eq r virt σ with ⟨m', herr, -⟩ | ⟨pt, hpt, hentry, hok⟩
  · rw [herr] at h
    cases h
  · rw [hok, setAddress_zero, leafEntry_eq hpt] at h
    cases h
    refine ⟨pt, hpt, ?_, rfl, rfl⟩
    rintro ⟨habsent, hdemand⟩
    rcases hentry with hpresent | hdemand'
    · rw [habsent] at hpresent
      cases hpresent
    · exact hdemand hdemand'

theorem handleFault_ok (h : handleFault r virt σ = .ok () σ') :
    ∃ pt phys pmm' e, walk (child σ.mem) r (directory virt) = some pt ∧
      OnDemand (σ.mem pt (ptIndex virt)) ∧ σ.pmm.allocPage = (some phys, pmm') ∧
      σ' = write (takeZeroed σ pmm' phys) pt (ptIndex virt) e := by
  rcases handleFault_eq r virt σ with ⟨m', herr, -⟩ | ⟨pt, phys, pmm', hpt, hdemand, halloc, hok⟩
  · rw [herr] at h
    cases h
  · rw [hok] at h
    cases h
    rw [leafEntry_eq hpt] at hdemand
    exact ⟨pt, phys, pmm', _, hpt, hdemand, halloc, rfl⟩

section

variable (h : Hierarchy outsideRecursive σ r own) (hv : outsideRecursive (pml4Index virt))
include h hv

variable (hpt : walk (table σ.mem) r (directory virt) = some pt)

include hpt in
/-- On a page of 4 KiB the entry is cleared. -/
theorem Hierarchy.unmapped
    (hentry : ¬ NoEntry σ r virt) : Unmapped σ r virt (physicalAddress (σ.mem pt (ptIndex virt)))
      (write σ pt (ptIndex virt) 0) where
  was_mapped := by
    rw [h.translate_of_walk (.inl hv) hpt]
    unfold NoEntry at hentry
    rw [leafEntry_eq (walk_child_of_table hpt)] at hentry
    cases hpresent : isPresent (σ.mem pt (ptIndex virt)) with
    | true => exact .inl rfl
    | false =>
      refine .inr ⟨pt, hpt, ?_⟩
      by_contra hdemand
      exact hentry ⟨hpresent, hdemand⟩
  not_mapped := by
    have hlast : (pt, ptIndex virt) ∈ trail (table σ.mem) r (path virt) := by
      rw [path_eq_snoc, trail_append hpt]
      exact mem_append_right _ mem_cons_self
    exact h.translate_cleared (.inl hv) (write_zero_cases σ pt (ptIndex virt)) hlast
      (write_self _ _ _ _)
  others := by
    intro v hspanned hne
    have hown := (h.forest.walk_iff rfl (innerPath_directory hv)).mp hpt
    exact h.translate_congr hspanned (h.not_mem_trail hown hspanned hne)
  writes := by
    intro s j hne
    by_cases hs : s = pt
    · rw [hs]
      exact ⟨directory virt, prefix_rfl, hpt⟩
    · rw [write_table_of_ne σ _ 0 hs] at hne
      exact absurd rfl hne

include hpt in
theorem Hierarchy.handled
    (hdemand : OnDemand (σ.mem pt (ptIndex virt))) (halloc : σ.pmm.allocPage = (some phys, pmm'))
    (e : U64) : Handled σ r virt (write (takeZeroed σ pmm' phys) pt (ptIndex virt) e) where
  not_mapped := by
    rw [h.translate_of_walk (.inl hv) hpt, hdemand.1]
    rfl
  writes := by
    intro s j hne
    by_cases hs : s = pt
    · rw [hs]
      exact .inl ⟨directory virt, prefix_rfl, hpt⟩
    · rw [write_table_of_ne _ _ _ hs] at hne
      by_cases hphys : s = phys
      · obtain ⟨hfree, -, hfree'⟩ := free_of_allocPage halloc
        rw [hphys]
        exact .inr ⟨hfree, fun hstill => (hfree' phys hstill).2 rfl⟩
      · rw [takeZeroed_of_ne pmm' hphys] at hne
        exact absurd rfl hne

theorem Hierarchy.walkersAgree (hcovered : ¬ Covered σ r virt) : WalkersAgree σ r virt where
  unmaps := by
    intro phys σ' hok
    obtain ⟨pt, hpt, hentry, rfl, rfl⟩ := unmapPage_ok hok
    exact h.unmapped hv (walk_table_of_not_covered hcovered hpt) hentry
  handles := by
    intro σ' hok
    obtain ⟨pt, phys, pmm', e, hpt, hdemand, halloc, rfl⟩ := handleFault_ok hok
    exact h.handled hv (walk_table_of_not_covered hcovered hpt) hdemand halloc e
  unmap_fails := fun _ _ => unmapPage_fails
  fault_fails := fun _ _ => handleFault_fails

end

/-- Without an entry both calls fail. -/
theorem NoEntry.walkersAgree (h : NoEntry σ r virt) : WalkersAgree σ r virt where
  unmaps := by
    intro phys σ' hok
    obtain ⟨pt, -, hentry, -⟩ := unmapPage_ok hok
    exact absurd h hentry
  handles := by
    intro σ' hok
    obtain ⟨pt, phys, pmm', e, hpt, hdemand, -⟩ := handleFault_ok hok
    rw [← leafEntry_eq hpt] at hdemand
    exact absurd hdemand h.2
  unmap_fails := fun _ _ => unmapPage_fails
  fault_fails := fun _ _ => handleFault_fails

include h in
/-- Clearing a word never unmaps a part of a huge page and nothing else. -/
theorem Hierarchy.not_unmapped_of_covered
    (hv : outsideRecursive (pml4Index virt)) (hcovered : Covered σ r virt) (phys s : U64)
    (i : Nat) : ¬ Unmapped σ r virt phys (write σ s i 0) := by
  intro hunmapped
  -- the word is on the walk, for otherwise the page would still be there
  have hmem : (s, i) ∈ trail (table σ.mem) r (path virt) := by
    by_contra hmem
    refine h.translate_covered (.inl hv) hcovered (Eq.trans ?_ hunmapped.not_mapped)
    refine (h.translate_congr (.inl hv) fun x hx => write_of_ne σ 0 ?_).symm
    rintro ⟨hs, hi⟩
    exact hmem (by rwa [← hs, ← hi])
  -- but then it is on the walk to the other parts of the huge page
  obtain ⟨v, hdirectory, hother⟩ : ∃ v, directory v = directory virt ∧ path v ≠ path virt :=
    ⟨_, path_neighbour virt⟩
  have htrail : trail (table σ.mem) r (path v) = trail (table σ.mem) r (path virt) := by
    rw [path_eq_snoc v, hdirectory, hcovered.trail_eq]
  have hslot : pml4Index v = pml4Index virt := (cons.inj hdirectory).1
  have hspanned : Spanned σ r v := Or.inl (by rw [hslot]; exact hv)
  have hcovered' : Covered σ r v := by
    unfold Covered leaf reading
    rw [htrail]
    exact hcovered
  refine h.translate_covered hspanned hcovered' ?_
  rw [← hunmapped.others v hspanned hother]
  exact h.translate_cleared hspanned (write_zero_cases σ s i) (htrail ▸ hmem) (write_self _ _ _ _)

/-- **Unmapping and fault handling agree with translation** at every address that is not part of a
huge page. At one that is, they agree exactly if the frame of the huge page, read as a table, has no
entry there. -/
theorem walkersAgree_iff (h : Hierarchy outsideRecursive σ r own)
    (hv : outsideRecursive (pml4Index virt)) :
    WalkersAgree σ r virt ↔ (Covered σ r virt → NoEntry σ r virt) := by
  constructor
  · intro hagree hcovered
    rcases unmapPage_eq r virt σ with ⟨m, -, habsent⟩ | ⟨pt, -, -, hok⟩
    · exact habsent
    · rw [setAddress_zero] at hok
      exact absurd (hagree.unmaps _ _ hok) (h.not_unmapped_of_covered hv hcovered _ _ _)
  · intro hno
    by_cases hcovered : Covered σ r virt
    · exact (hno hcovered).walkersAgree
    · exact h.walkersAgree hv hcovered

/-! ### Data that looks like an entry -/

theorem Hierarchy.congr {slots : Nat → Prop} (h : Hierarchy slots σ r own)
    (hmem : ∀ s n, own s = some n → σ'.mem s = σ.mem s) (hpmm : σ'.pmm = σ.pmm) :
    Hierarchy slots σ' r own where
  forest := by
    refine h.forest.congr fun s r' q j hs _ => ?_
    unfold table
    rw [hmem s _ hs]
  pml4 := by
    rw [hmem r _ h.own_root]
    exact h.pml4
  fits := by
    intro s q j hs
    rw [hmem s _ hs]
    exact h.fits s q j hs
  not_free := by
    rw [hpmm]
    exact h.not_free

/-- The machine with the huge page, at whose beginning there is a word of data. -/
def dataMachine (word : U64) : Machine := write (hugeMachine 0) 0x200000 0 word

theorem hierarchy_dataMachine (word : U64) :
    Hierarchy outsideRecursive (dataMachine word) 0x1000 hugeOwner := by
  refine (hierarchy_hugeMachine 0).congr (fun s n hs => write_table_of_ne _ _ _ ?_) rfl
  rcases hugeOwner_cases hs with ⟨rfl, -⟩ | ⟨rfl, -⟩ | ⟨rfl, -⟩ <;> decide

/-- A huge page of zeros. -/
theorem walkersAgree_zeros : WalkersAgree (dataMachine 0) 0x1000 0 :=
  (walkersAgree_iff (hierarchy_dataMachine 0) (by decide)).mpr fun _ => by decide +kernel

/-- A word with the bit `PRESENT` is cleared when its page is unmapped, and the page stays where it
is. A word with the bit `ON_DEMAND` is overwritten when there is a fault at its page, which is
mapped. -/
theorem walkers_overwrite_data :
    (value? (unmapPage 0x1000 0 (dataMachine 7)) = some 0 ∧
      translate (dataMachine 7) 0x1000 0 = some 0x200000 ∧
      translate (after (unmapPage 0x1000 0 (dataMachine 7))) 0x1000 0 = some 0x200000 ∧
      (dataMachine 7).mem 0x200000 0 = 7 ∧
      (after (unmapPage 0x1000 0 (dataMachine 7))).mem 0x200000 0 = 0 ∧
      ¬ WalkersAgree (dataMachine 7) 0x1000 0) ∧
    value? (handleFault 0x1000 0 (dataMachine 0x200)) = some () ∧
      translate (dataMachine 0x200) 0x1000 0 = some 0x200000 ∧
      (after (handleFault 0x1000 0 (dataMachine 0x200))).mem 0x200000 0 = 0x5001 ∧
      ¬ WalkersAgree (dataMachine 0x200) 0x1000 0 := by
  have hunmap : value? (unmapPage 0x1000 0 (dataMachine 7)) = some 0 := by decide +kernel
  have hfault : value? (handleFault 0x1000 0 (dataMachine 0x200)) = some () := by decide +kernel
  refine ⟨⟨hunmap, by decide +kernel, by decide +kernel, by decide +kernel, by decide +kernel, ?_⟩,
    hfault, by decide +kernel, by decide +kernel, ?_⟩
  · intro hagree
    have hnone := (hagree.unmaps _ _ (eq_ok_of_value? hunmap)).not_mapped
    cases hnone
  · intro hagree
    have hnone := (hagree.handles _ (eq_ok_of_value? hfault)).not_mapped
    cases hnone

end BeastOs.Vmm
