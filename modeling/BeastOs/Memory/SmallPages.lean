import BeastOs.Memory.Unmap

/-!
# Mapping pages of 4 KiB

Where a page is not part of a huge page, mapping it splits nothing. It then writes the page's entry,
and besides only tables of the hierarchy and new tables, which were free pages (`Maps`).

So a page frame that is neither free nor a table keeps its contents, whatever is mapped.

Main result: `Hierarchy.maps`.
-/

namespace BeastOs.Vmm

open List Lib PageTableEntry Paging

variable {slots : Nat → Prop} {own own' : U64 → Option (U64 × List Nat)} {σ σ' : Machine}
  {r t u v virt f phys : U64} {p : List Nat} {i j : Nat} {S : List Split} {ph : Phase}

/-! ## Walks to pages of 4 KiB -/

/-- A walk that ends in an empty entry above the last level. -/
theorem leafOf_absent {es : List U64} {e : U64} (hlen : es.length < 3)
    (he : isPresent e = false) : leafOf (es ++ [e]) = (0, 0) := by
  have hlast : (es ++ [e]).getLast? = some e := by simp
  rw [leafOf_of_getLast? hlast, if_neg]
  rw [length_append, length_singleton, he]
  rintro (h | h)
  · omega
  · cases h

/-- The leaf of a page that is not part of a huge page is its entry, if there is one. -/
theorem leaf_of_not_covered (h : ¬ Covered σ r v) : leaf σ r v = (0, leafEntry σ r v) := by
  cases htable : walk (table σ.mem) r (directory v) with
  | some pt => rw [leaf_of_walk htable, leafEntry_eq (walk_child_of_table htable)]
  | none =>
    obtain ⟨p₁, i, p₂, t, -, -, -, hiff, habsent⟩ := covered_iff_of_walk htable
    have hchild : walk (child σ.mem) r (directory v) = none := by
      refine Option.eq_none_iff_forall_ne_some.mpr fun pt hpt => ?_
      rw [walk_table_of_not_covered h hpt] at htable
      cases htable
    rw [habsent (Bool.eq_false_iff.mpr fun hpresent => h (hiff.mpr hpresent)),
      leafEntry_eq_zero hchild]

/-- Above the last level, the walk to a page of 4 KiB ends in an empty entry. -/
theorem not_isPresent_of_not_covered {es : List U64} {e : U64} (hlen : es.length < 3)
    (hread : reading σ r (path v) = es ++ [e]) (hsmall : ¬ Covered σ r v) :
    isPresent e = false := by
  by_contra hpresent
  rw [Bool.not_eq_false] at hpresent
  have hlast : (es ++ [e]).getLast? = some e := by simp
  refine hsmall ?_
  unfold Covered leaf
  rw [hread, leafOf_of_getLast? hlast, if_pos (.inr hpresent), length_append, length_singleton]
  omega

/-- Resolving an entry does not change what the walk to a page of 4 KiB finds. -/
theorem Hierarchy.leaf_resolves (h : Hierarchy slots σ r own) (ht : own t = some (r, p))
    (hi : InSlots slots p i) (hstep : Resolves f p.length σ t i u σ') (hv : slots (pml4Index v))
    (hsmall : ¬ Covered σ r v) : leaf σ' r v = leaf σ r v := by
  unfold leaf
  cases h.rereads ht hi hstep hv with
  | same _ _ hread => rw [hread]
  | widened _ hes _ hread hread' =>
    rw [hread, hread']
    exact leafOf_middle _ _ _ hes
  | extended _ _ _ hread hread' =>
    have hlen : (reading σ r p).length < 3 := by
      rw [length_reading_of_walk (h.forest.reached t r p ht)]
      exact hi.1
    have habsent := not_isPresent_of_not_covered hlen hread hsmall
    rw [hread, hread', newEntries_absent habsent, leafOf_absent hlen habsent]
    exact leafOf_eq_zero (by simp)

/-- The way to a page does not change it either. -/
theorem Way.leaf_eq (hway : Way f r σ ph p t σ' S) (h : Hierarchy slots σ r own)
    (hp : InnerPath (InSlots slots) p) (hv : slots (pml4Index v)) (hsmall : ¬ Covered σ r v) :
    leaf σ' r v = leaf σ r v := by
  refine hway.invariant (P := fun _ σ' => leaf σ' r v = leaf σ r v) h hp rfl ?_
  -- a page of 4 KiB stays one on the way
  intro p t i u σ' σ'' own' hreached hi hresolves ih
  rw [← ih]
  refine hreached.hierarchy.leaf_resolves hreached.at_path hi hresolves hv ?_
  unfold Covered
  rw [ih]
  exact hsmall

/-- On the way to a page of 4 KiB there is nothing to split. -/
theorem splits_eq_nil (hsmall : ¬ Covered σ r virt) : splits σ r virt = [] := by
  -- along the directory, from the entries `es` on
  have hfrom : ∀ (is : List Nat) (t : U64) (es : List U64), es.length + is.length = 3 →
      reading σ r (path virt) = es ++ reading σ t (is ++ [ptIndex virt]) →
      splitsFrom σ.mem σ.pmm t is = [] := by
    intro is
    induction is with
    | nil => exact fun _ _ _ _ => rfl
    | cons i is ih =>
      intro t es hlen hread
      rw [length_cons] at hlen
      rw [splitsFrom]
      cases htable : table σ.mem t i with
      | some u =>
        refine ih u (es ++ [σ.mem t i]) ?_ ?_
        · rw [length_append, length_singleton]
          omega
        · rw [hread, cons_append, reading_cons_some htable, append_assoc]
          rfl
      | none =>
        rw [cons_append, reading_cons_none htable] at hread
        have habsent := not_isPresent_of_not_covered (by omega) hread hsmall
        dsimp only
        rw [habsent]
        rfl
  exact hfrom (directory virt) r [] rfl rfl

/-! ## Mapping -/

/-- Entries of the last level, and of other slots, are no part of the tree. -/
theorem Hierarchy.write_outer (h : Hierarchy slots σ r own) (ht : own t = some (r, p))
    (hi : ¬ InSlots slots p i) (e : U64) : Hierarchy slots (write σ t i e) r own := by
  have hmem : ∀ s q j, own s = some (r, q) → InSlots slots q j →
      (write σ t i e).mem s j = σ.mem s j := by
    intro s q j hs hj
    refine write_of_ne σ e ?_
    rintro ⟨rfl, rfl⟩
    rw [ht] at hs
    cases hs
    exact hi hj
  refine ⟨h.forest.congr fun s r' q j hs hj => ?_, ?_, ?_, h.not_free⟩
  · obtain ⟨rfl, -⟩ := h.forest.valid s r' q hs
    exact table_congr (hmem s q j hs hj)
  · intro j hj
    rw [hmem r [] j h.own_root hj]
    exact h.pml4 j hj
  · intro s q j hs hq hj
    rw [hmem s q j hs hj]
    exact h.fits s q j hs hq hj

/-- The page has been mapped, by the entry `e`. -/
structure Maps (slots : Nat → Prop) (r virt e : U64) (own : U64 → Option (U64 × List Nat))
    (σ : Machine) (own' : U64 → Option (U64 × List Nat)) (σ' : Machine) : Prop where
  hierarchy : Hierarchy slots σ' r own'
  new_free : ∀ s n, own s = none → own' s = some n → Free σ.pmm s
  mem_eq : ∀ s, own' s = none → σ'.mem s = σ.mem s
  free_le : σ'.pmm.freeSet ⊆ σ.pmm.freeSet
  leaf_eq : ∀ v, slots (pml4Index v) → ¬ Covered σ r v →
    leaf σ' r v = if path v = path virt then (0, e) else leaf σ r v

/-- **Mapping a page of 4 KiB** changes no other page of 4 KiB. -/
theorem Hierarchy.maps (h : Hierarchy slots σ r own) (hv : slots (pml4Index virt))
    (hsmall : ¬ Covered σ r virt) (hok : mapEntry r virt phys f σ = .ok () σ') :
    ∃ own', Maps slots r virt (setAddress phys f) own σ own' σ' := by
  obtain ⟨ph, q, t, σ₁, hway, hq, hend⟩ := mapEntry_eq h hv phys f
  rw [splits_eq_nil hsmall] at hway hend
  rw [hok] at hend
  rcases hend with ⟨m, herr⟩ | ⟨rfl, hok⟩
  · cases herr
  rw [wipe_nil] at hok
  cases hok
  have hdirectory := innerPath_directory hv
  obtain ⟨own', hreached, -⟩ := hway.reached h hdirectory
  have ht := hreached.at_path
  have hwritten := hreached.hierarchy.write_outer (i := ptIndex virt) ht
    (fun hi => Nat.lt_irrefl 3 hi.1) (setAddress phys f)
  refine ⟨own', hwritten, hreached.new_free, ?_, hreached.free_le, ?_⟩
  · intro s hs
    rw [write_table_of_ne σ₁ _ _ (Forest.ne_of_own ht hs).symm]
    funext j
    by_contra hne
    obtain ⟨q, hq, -⟩ := hreached.frame s j hne
    rw [hs] at hq
    cases hq
  · intro v hv hsmall
    split
    next hpath =>
      rw [leaf, hpath, ← leaf, leaf_of_walk (hwritten.forest.reached t r _ ht), write_self]
    next hpath =>
      rw [← hway.leaf_eq h hdirectory hv hsmall, leaf, leaf,
        reading_congr (hreached.hierarchy.not_leafEntry ht hv hpath _)]

/-- A page of 4 KiB stays one. -/
theorem Maps.not_covered {e : U64} (h : Maps slots r virt e own σ own' σ')
    (hv : slots (pml4Index v)) (hsmall : ¬ Covered σ r v) : ¬ Covered σ' r v := by
  unfold Covered
  rw [h.leaf_eq v hv hsmall]
  split
  · exact Nat.lt_irrefl 0
  · exact hsmall

/-- A page that is neither free nor a table is set aside. -/
def SetAside (own : U64 → Option (U64 × List Nat)) (σ : Machine) (u : U64) : Prop :=
  own u = none ∧ ¬ Free σ.pmm u

/-- A page that is allocated is set aside, with those that were before. -/
theorem Hierarchy.allocPage {pmm' : Pmm} (h : Hierarchy slots σ r own)
    (halloc : σ.pmm.allocPage = (some u, pmm')) :
    Hierarchy slots { σ with pmm := pmm' } r own ∧ SetAside own { σ with pmm := pmm' } u ∧
      ∀ s, SetAside own σ s → SetAside own { σ with pmm := pmm' } s := by
  have hsub := (allocPage_taken halloc).1
  refine ⟨⟨h.forest, h.pml4, h.fits, fun t n ht hfree => h.not_free t n ht (hfree.mono hsub)⟩,
    ⟨h.fresh halloc, fun hfree => ?_⟩, fun s hs => ⟨hs.1, fun hfree => hs.2 (hfree.mono hsub)⟩⟩
  exact ((free_of_allocPage halloc).2.2 u hfree).2 rfl

theorem Maps.setAside {e : U64} (h : Maps slots r virt e own σ own' σ') (hu : SetAside own σ u) :
    SetAside own' σ' u ∧ σ'.mem u = σ.mem u := by
  have hown : own' u = none := by
    cases hown : own' u with
    | none => rfl
    | some n => exact absurd (h.new_free u n hu.1 hown) hu.2
  exact ⟨⟨hown, fun hfree => hu.2 (hfree.mono h.free_le)⟩, h.mem_eq u hown⟩

end BeastOs.Vmm
