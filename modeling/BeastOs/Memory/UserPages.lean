import BeastOs.Memory.Isolation
import BeastOs.Memory.Rights
import BeastOs.Memory.SmallPages

/-!
# Pages for a user

The user half of a page table is a hierarchy without huge pages (`Inv.hierarchy`), so mapping a page
there splits nothing. A page that is mapped for the user, accessible and writable (`Mapped`), stays
so when others are mapped, and no other page is moved (`Grown`).
-/

namespace BeastOs.Vmm

open List Lib PageTableEntry Paging

/-! ## The hierarchy of the user half -/

/-- The slots of a PML4 that are the user's. -/
def userHalf (i : Nat) : Prop := i < 256

instance (i : Nat) : Decidable (userHalf i) := inferInstanceAs (Decidable (_ < _))

/-- The tables of the root `r`, at paths of indices that there are. -/
def ownedBy (own : U64 → Option (U64 × List Nat)) (r t : U64) : Option (U64 × List Nat) :=
  (own t).filter fun n => n.1 = r ∧ ∀ i ∈ n.2, i < 512

variable {kernel : Nat → Set U64} {roots : Set U64} {own own' : U64 → Option (U64 × List Nat)}
  {σ σ' σ'' : Machine} {r t u v virt phys f : U64} {p q : List Nat} {i j : Nat} {S : List Split}
  {ph : Phase} {pages pages' : List U64}

theorem ownedBy_eq_some {n : U64 × List Nat} :
    ownedBy own r t = some n ↔ own t = some n ∧ n.1 = r ∧ ∀ i ∈ n.2, i < 512 := by
  unfold ownedBy
  rw [Option.filter_eq_some_iff, decide_eq_true_iff]

theorem inSlots_of_inner (h : Inner p i) (hi : i < 512) : InSlots userHalf p i := ⟨h.1, hi, h.2⟩

theorem InSlots.inner (h : InSlots userHalf p i) : Inner p i := ⟨h.1, h.2.2⟩

theorem innerPath_inSlots (h : InnerPath Inner p) (hp : ∀ i ∈ p, i < 512) :
    InnerPath (InSlots userHalf) p := by
  induction h with
  | nil => exact .nil
  | snoc _ hi ih =>
    rw [forall_mem_append, forall_mem_singleton] at hp
    exact .snoc (ih hp.1) (inSlots_of_inner hi hp.2)

variable (h : Inv kernel roots own σ)

include h in
/-- There are no huge pages in the user half. -/
theorem Inv.not_huge_ownedBy (ht : ownedBy own r t = some (r, p)) (hi : InSlots userHalf p i)
    (hpresent : isPresent (σ.mem t i) = true) : has (σ.mem t i) Flags.hugePage = false :=
  h.not_huge t r p i (ownedBy_eq_some.mp ht).1 hi.inner hpresent

variable (hr : r ∈ roots)

include h hr in
theorem Inv.hierarchy :
    Hierarchy userHalf σ r (ownedBy own r) := by
  constructor
  · constructor
    · rintro s rfl
      exact ownedBy_eq_some.mpr ⟨h.forest.root s hr, rfl, nofun⟩
    · intro t r' p ht
      obtain ⟨hown, rfl, hp⟩ := ownedBy_eq_some.mp ht
      exact ⟨rfl, innerPath_inSlots (h.forest.valid t _ p hown).2 hp⟩
    · intro t r' p i u ht hi htable
      obtain ⟨hown, heq, hp⟩ := ownedBy_eq_some.mp ht
      obtain ⟨hpresent, -, hu⟩ := table_eq_some.mp htable
      have hchild := child_eq_some.mpr ⟨hpresent, hu⟩
      refine ownedBy_eq_some.mpr ⟨h.forest.owned t r' p i u hown hi.inner hchild, heq, ?_⟩
      rw [forall_mem_append, forall_mem_singleton]
      exact ⟨hp, hi.2.1⟩
    · intro t r' p ht
      obtain ⟨hown, -, -⟩ := ownedBy_eq_some.mp ht
      obtain ⟨hr', hp⟩ := h.forest.valid t r' p hown
      refine h.forest.walk_of_keeps ?_ hr' hp (h.forest.reached t r' p hown)
      intro s r'' q j w hs hj hchild
      obtain ⟨hpresent, hw⟩ := child_eq_some.mp hchild
      exact table_eq_some.mpr ⟨hpresent, h.not_huge s r'' q j hs hj hpresent, hw⟩
  · intro i hi hpresent
    exact h.not_huge r r [] i (h.forest.root r hr) hi.inner hpresent
  · intro t p i ht _ hi hpresent hhuge
    rw [h.not_huge_ownedBy ht hi hpresent] at hhuge
    cases hhuge
  · intro t n ht
    exact h.not_free t n (ownedBy_eq_some.mp ht).1

include h hr in
theorem Inv.not_covered (hv : userHalf (pml4Index v)) : ¬ Covered σ r v := by
  intro hcovered
  obtain ⟨p, i, rest, t, hp, hwalk, hnone, hiff, -⟩ := covered_iff_of_walk hcovered.walk_eq_none
  have hhierarchy := h.hierarchy hr
  have hdirectory := innerPath_directory hv
  have ht := (hhierarchy.forest.walk_iff rfl (hdirectory.of_eq_append hp)).mp hwalk
  have hpresent := hiff.mp hcovered
  have hhuge := table_eq_none.mp hnone hpresent
  rw [h.not_huge_ownedBy ht (hdirectory.of_append hp) hpresent] at hhuge
  cases hhuge

include h hr in
/-- What a call that maps a page of the user does. -/
theorem Inv.mapEntry_eq (hv : userHalf (pml4Index virt)) (phys : U64) :
    ∃ ph q t σ', Way f r σ ph q t σ' [] ∧ ph ≠ .split ∧ InnerPath (InSlots userHalf) q ∧
      ((∃ m, mapEntry r virt phys f σ = .error m σ') ∨ q = directory virt ∧
        mapEntry r virt phys f σ = .ok () (write σ' t (ptIndex virt) (setAddress phys f))) := by
  obtain ⟨ph, q, t, σ', hway, ⟨rest, hrest⟩, hend⟩ := Vmm.mapEntry_eq (h.hierarchy hr) hv phys f
  have hq := (innerPath_directory hv).of_eq_append hrest.symm
  -- nothing is split on the way
  rw [splits_eq_nil (h.not_covered hr hv)] at hway hend
  obtain ⟨own', -, hfacts⟩ := hway.reached (h.hierarchy hr) hq
  refine ⟨ph, q, t, σ', hway, fun hph => ?_, hq, hend⟩
  obtain ⟨x, hx, -⟩ := hfacts.here hph
  cases hx

/-! ## Pages that are mapped for the user -/

/-- The page of the address is present, accessible to the user and writable. -/
structure Mapped (σ : Machine) (r v : U64) : Prop where
  present : (translate σ r v).isSome = true
  user : Granted Flags.user σ r v
  writable : Granted Flags.writable σ r v

theorem isSome_frameOf (v : U64) (l : Nat × U64) : (frameOf v l).isSome = isPresent l.2 := by
  unfold frameOf
  cases isPresent l.2 <;> rfl

section

variable (h : Inv kernel roots own σ) (hr : r ∈ roots) (hv : userHalf (pml4Index v))
include h hr hv

/-- A page is present if its leaf is. -/
theorem Inv.isSome_translate : (translate σ r v).isSome = isPresent (leaf σ r v).2 := by
  rw [(h.hierarchy hr).translate_eq hv, isSome_frameOf]

/-- Addresses of one page are mapped or not together. -/
theorem Inv.mapped_of_path (hpath : path virt = path v) (hmapped : Mapped σ r v) :
    Mapped σ r virt := by
  have hindex : pml4Index virt = pml4Index v := (cons.inj hpath).1
  have hread : reading σ r (path virt) = reading σ r (path v) := by rw [hpath]
  constructor
  · rw [h.isSome_translate hr (hindex ▸ hv)]
    unfold leaf
    rw [hread]
    exact (h.isSome_translate hr hv).symm.trans hmapped.present
  · exact ⟨hread ▸ hmapped.user.complete, hread ▸ hmapped.user.set⟩
  · exact ⟨hread ▸ hmapped.writable.complete, hread ▸ hmapped.writable.set⟩

end

/-- What does not change when pages are mapped. -/
structure Grown (kernel : Nat → Set U64) (roots : Set U64) (r : U64) (σ σ' : Machine)
    (pages : List U64) : Prop where
  owned : ∃ own', Inv kernel roots own' σ'
  free_le : σ'.pmm.freeSet ⊆ σ.pmm.freeSet
  mapped : ∀ v, userHalf (pml4Index v) → Mapped σ r v → Mapped σ' r v
  translate_eq : ∀ v, pml4Index v ≠ recursiveEntry → (∀ page ∈ pages, path v ≠ path page) →
    translate σ' r v = translate σ r v

include h in
theorem Inv.grown_refl (r : U64) (pages : List U64) : Grown kernel roots r σ σ pages :=
  ⟨⟨own, h⟩, Finset.Subset.refl _, fun _ _ hmapped => hmapped, fun _ _ _ => rfl⟩

theorem Grown.trans (h : Grown kernel roots r σ σ' pages)
    (h' : Grown kernel roots r σ' σ'' pages') :
    Grown kernel roots r σ σ'' (pages ++ pages') where
  owned := h'.owned
  free_le := h'.free_le.trans h.free_le
  mapped := fun v hv hmapped => h'.mapped v hv (h.mapped v hv hmapped)
  translate_eq := by
    intro v hv hpages
    rw [forall_mem_append] at hpages
    exact (h'.translate_eq v hv hpages.2).trans (h.translate_eq v hv hpages.1)

theorem kernelIndex_of_not_user (hv : pml4Index v ≠ recursiveEntry)
    (hkernel : ¬ userHalf (pml4Index v)) : KernelIndex (pml4Index v) :=
  ⟨Nat.not_lt.mp hkernel, index_lt v 39, hv⟩

/-- The leaf of the page has stayed, and so have its rights. -/
def Kept (σ σ' : Machine) (r v : U64) : Prop :=
  leaf σ' r v = leaf σ r v ∧ ∀ b, IsRight b → Granted b σ r v → Granted b σ' r v

theorem Kept.mapped (h : Kept σ σ' r v) (hinv : Inv kernel roots own σ)
    (hinv' : Inv kernel roots own' σ') (hr : r ∈ roots) (hv : userHalf (pml4Index v))
    (hmapped : Mapped σ r v) : Mapped σ' r v := by
  constructor
  · rw [hinv'.isSome_translate hr hv, h.1, ← hinv.isSome_translate hr hv]
    exact hmapped.present
  · exact h.2 _ (.inl rfl) hmapped.user
  · exact h.2 _ (.inr rfl) hmapped.writable

include h in
/-- Addresses are translated as before if the leaves of the user's pages and the tables of the
kernel are those of before. -/
theorem Inv.translate_of_leaf (h' : Inv kernel roots own' σ')
    (hr : r ∈ roots) (hleaf : userHalf (pml4Index v) → leaf σ' r v = leaf σ r v)
    (hupper : 256 ≤ pml4Index v → σ'.mem r (pml4Index v) = σ.mem r (pml4Index v))
    (hkernel : ∀ l, ∀ s ∈ kernel l, σ'.mem s = σ.mem s) (hv : pml4Index v ≠ recursiveEntry) :
    translate σ' r v = translate σ r v := by
  by_cases huser : userHalf (pml4Index v)
  · rw [(h'.hierarchy hr).translate_eq huser, (h.hierarchy hr).translate_eq huser, hleaf huser]
  · have hindex := kernelIndex_of_not_user hv huser
    exact h.translate_congr_kernel hr (hupper hindex.1) hkernel hindex

variable (hr : r ∈ roots)

include h hr in
/-- A step that writes neither to the tables of the page table nor to those of the kernel, but for
the recursive entry. -/
theorem Inv.grown_of_same (h' : Inv kernel roots own σ') (hfree : σ'.pmm.freeSet ⊆ σ.pmm.freeSet)
    (hsame : ∀ s p j, own s = some (r, p) → (p = [] → j ≠ recursiveEntry) → σ'.mem s j = σ.mem s j)
    (hkernel : ∀ l, ∀ s ∈ kernel l, σ'.mem s = σ.mem s) :
    Grown kernel roots r σ σ' [] := by
  have hread : ∀ v, userHalf (pml4Index v) → reading σ' r (path v) = reading σ r (path v) := by
    intro v hv
    refine reading_congr fun x hx => ?_
    obtain ⟨p₁, p₂, hpath, hown⟩ := (h.hierarchy hr).of_mem_trail hv hx
    refine hsame x.1 p₁ x.2 (ownedBy_eq_some.mp hown).1 ?_
    rintro rfl hindex
    have hfirst : pml4Index v = x.2 := (cons.inj hpath).1
    rw [hfirst, hindex] at hv
    exact absurd hv (by decide)
  have hkept : ∀ v, userHalf (pml4Index v) → Kept σ σ' r v := by
    intro v hv
    refine ⟨?_, fun b _ hgranted => (Granted.iff_congr (hread v hv)).mpr hgranted⟩
    unfold leaf
    rw [hread v hv]
  refine ⟨⟨own, h'⟩, hfree, ?_, ?_⟩
  · exact fun v hv => (hkept v hv).mapped h h' hr hv
  · intro v hv _
    refine h.translate_of_leaf h' hr (fun huser => (hkept v huser).1) ?_ hkernel hv
    exact fun _ => hsame r [] _ (h.forest.root r hr) fun _ => hv

include h hr in
/-- `VirtualMemoryManager::new` -/
theorem Inv.grown_new :
    Grown kernel roots r σ (after (Vmm.new r σ)) [] := by
  have hroot := h.forest.root r hr
  refine h.grown_of_same hr (h.new hr).1 (Finset.Subset.refl _) ?_ ?_
  · intro s p j hs hj
    refine write_of_ne σ _ ?_
    rintro ⟨rfl, rfl⟩
    have heq := hroot.symm.trans hs
    cases heq
    exact hj rfl rfl
  · intro l s hs
    exact write_table_of_ne σ _ _ (h.ne_kernel hroot hs)

include h hr in
/-- A page is taken and zeroed. -/
theorem Inv.grown_takeZeroed {pmm' : Pmm} (halloc : σ.pmm.allocPage = (some phys, pmm')) :
    Grown kernel roots r σ (takeZeroed σ pmm' phys) [] := by
  obtain ⟨hown, hkernel, hsame⟩ := h.fresh halloc
  refine h.grown_of_same hr (h.of_unchanged hsame) (allocPage_taken halloc).1 ?_ hsame.kernel
  intro s p j hs _
  rw [takeZeroed_of_ne pmm' (Forest.ne_of_own hs hown)]

include h hr in
/-- On the way to a page of the user, nothing in the upper half changes. -/
theorem Inv.upper_entry (hp : InnerPath (InSlots userHalf) p) (hway : Way f r σ ph p t σ' S)
    (hj : 256 ≤ j) : σ'.mem r j = σ.mem r j := by
  refine hway.mem_eq (h.hierarchy hr) hp (h.hierarchy hr).own_root ?_
  rintro ⟨rest, hrest⟩
  have hslot : InSlots userHalf [] j := hp.of_append hrest.symm
  exact absurd (hslot.2.2 rfl) (Nat.not_lt.mpr hj)

variable (hv : userHalf (pml4Index virt))

include h hr hv in
/-- Mapping a page of the user leaves the upper half of its PML4 alone. -/
theorem Inv.mapEntry_upper (phys f : U64) (hj : 256 ≤ j) :
    (after (mapEntry r virt phys f σ)).mem r j = σ.mem r j := by
  obtain ⟨ph, q, t, σ', hway, hph, hq, ⟨m, herr⟩ | ⟨rfl, hok⟩⟩ := h.mapEntry_eq (f := f) hr hv phys
  · rw [herr]
    exact h.upper_entry hr hq hway hj
  · obtain ⟨own₁, hreached, -⟩ := hway.reached (h.hierarchy hr) hq
    have hrt : r ≠ t := by
      rintro rfl
      have heq := hreached.hierarchy.own_root.symm.trans hreached.at_path
      cases heq
    rw [hok, after_ok, write_table_of_ne σ' _ _ hrt]
    exact h.upper_entry hr hq hway hj

/-- The page of an address whose entry has just been written. -/
theorem mapped_of_reading {es : List U64} (hv : userHalf (pml4Index v))
    (hinv : Inv kernel roots own σ) (hr : r ∈ roots)
    (hread : reading σ r (path v) = es ++ [setAddress phys f]) (hpresent : f &&& Flags.present ≠ 0)
    (hf : ∀ b, IsRight b → has f b = true) (hes : ∀ b, IsRight b → ∀ e ∈ es, has e b = true) :
    Mapped σ r v := by
  have hentry : isPresent (setAddress phys f) = true := by
    rw [isPresent_setAddress, decide_eq_true hpresent]
  have hgranted : ∀ b, IsRight b → Granted b σ r v := by
    intro b hb
    rw [granted_of_present hread hentry]
    refine ⟨hes b hb, ?_⟩
    rw [has_setAddress_iff _ hb.flag]
    exact (has_iff hb.flag).mp (hf b hb)
  refine ⟨?_, hgranted _ (.inl rfl), hgranted _ (.inr rfl)⟩
  rw [hinv.isSome_translate hr hv, leaf_of_present hread hentry]
  exact hentry

include h hr hv in
/-- **Mapping a page for the user.** -/
theorem Inv.grown_mapEntry (phys : U64) (hpresent : f &&& Flags.present ≠ 0)
    (hf : ∀ b, IsRight b → has f b = true) :
    Grown kernel roots r σ (after (mapEntry r virt phys f σ)) [virt] ∧
      ∀ σ', mapEntry r virt phys f σ = .ok () σ' → ∀ v, path v = path virt → Mapped σ' r v := by
  obtain ⟨own', hinv', hkeeps⟩ := (h.touches_mapEntry hr hv phys f).keeps
  obtain ⟨ph, q, t, σ', hway, hph, hq, hend⟩ := h.mapEntry_eq (f := f) hr hv phys
  obtain ⟨own₁, hreached, -⟩ := hway.reached (h.hierarchy hr) hq
  have hway_kept : ∀ v, userHalf (pml4Index v) → Kept σ σ' r v := fun v hv =>
    ⟨(hway.rights_of_not_split (h.hierarchy hr) hq hph (.inl rfl) hv).1,
      fun b hb => (hway.rights_of_not_split (h.hierarchy hr) hq hph hb hv).2⟩
  have huser : ∀ v, path v = path virt → userHalf (pml4Index v) := by
    intro v hpath
    have hindex : pml4Index v = pml4Index virt := (cons.inj hpath).1
    rw [hindex]
    exact hv
  rcases hend with ⟨m, herr⟩ | ⟨rfl, hok⟩
  · rw [herr, after_error] at hinv' hkeeps ⊢
    refine ⟨⟨⟨own', hinv'⟩, hreached.free_le, ?_, ?_⟩, nofun⟩
    · exact fun v hv => (hway_kept v hv).mapped h hinv' hr hv
    · intro v hv' _
      exact h.translate_of_leaf hinv' hr (fun huser => (hway_kept v huser).1)
        (h.upper_entry hr hq hway) hkeeps.kernel hv'
  · rw [hok, after_ok] at hinv' hkeeps ⊢
    have hpage : ∀ v, path v = path virt →
        Mapped (write σ' t (ptIndex virt) (setAddress phys f)) r v := by
      intro v hpath
      have hsame : SameBut own₁ t (ptIndex virt) σ'
          (write σ' t (ptIndex virt) (setAddress phys f)) := fun s n j _ hsj => write_of_ne σ' _ hsj
      have hread : reading (write σ' t (ptIndex virt) (setAddress phys f)) r (path v) =
          reading σ' r (directory virt) ++ [setAddress phys f] := by
        rw [hpath]
        exact (hreached.hierarchy.reading_snoc hreached.at_path hsame).trans (by rw [write_self])
      exact mapped_of_reading (huser v hpath) hinv' hr hread hpresent hf fun b hb =>
        hway.prepared (h.hierarchy hr) hq hb (hf b hb)
    have hkept : ∀ v, userHalf (pml4Index v) → path v ≠ path virt →
        Kept σ (write σ' t (ptIndex virt) (setAddress phys f)) r v := by
      intro v hv hne
      have hread := reading_congr
        (hreached.hierarchy.not_leafEntry hreached.at_path hv hne (setAddress phys f))
      refine ⟨?_, fun b hb hgranted => ?_⟩
      · rw [← (hway_kept v hv).1]
        unfold leaf
        rw [hread]
      · exact (Granted.iff_congr hread).mpr ((hway_kept v hv).2 b hb hgranted)
    refine ⟨⟨⟨own', hinv'⟩, hreached.free_le, ?_, ?_⟩, ?_⟩
    · intro v hv hmapped
      by_cases hpath : path v = path virt
      · exact hpage v hpath
      · exact (hkept v hv hpath).mapped h hinv' hr hv hmapped
    · intro v hv' hne
      rw [forall_mem_singleton] at hne
      refine h.translate_of_leaf hinv' hr (fun huser => (hkept v huser hne).1) ?_ hkeeps.kernel hv'
      intro hindex
      have hupper := h.mapEntry_upper hr hv phys f hindex
      rw [hok] at hupper
      exact hupper
    · intro σ'' heq
      cases heq
      exact hpage

end BeastOs.Vmm
