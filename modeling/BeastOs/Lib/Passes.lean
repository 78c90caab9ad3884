import Mathlib.Data.List.Nodup
import Mathlib.Data.List.Perm.Subperm

/-!
# Several passes over one list

Every item has a class. A pass for the class `p` walks along the list and takes the items of class
`p`, up to and including the first one that does not say `go`. A sweep makes one pass for each of
several classes. It takes no item twice; it takes every item exactly when all classes are swept and
only the last item of a class may end its pass.

Main result: `sweep_perm_iff`.
-/

namespace BeastOs.Lib

open List

variable {ι κ : Type} [DecidableEq κ] (cls : ι → κ) (go : ι → Bool) {p : κ} {ps : List κ}
  {l : List ι}

/-- The items that the pass for class `p` takes. -/
def pass (p : κ) : List ι → List ι
  | [] => []
  | i :: l =>
    if cls i = p then
      if go i then i :: pass p l else [i]
    else pass p l

/-- The items that the passes for the classes `ps` take, in order. -/
def sweep (ps : List κ) (l : List ι) : List ι := ps.flatMap fun p => pass cls go p l

variable {cls go}

theorem pass_sublist : (pass cls go p l).Sublist l := by
  induction l with
  | nil => exact List.Sublist.refl _
  | cons i l ih =>
    unfold pass
    split
    · split
      · exact ih.cons_cons i
      · exact (nil_sublist l).cons_cons i
    · exact ih.cons i

theorem cls_of_mem_pass {i : ι} (hi : i ∈ pass cls go p l) : cls i = p := by
  induction l with
  | nil => cases hi
  | cons j l ih =>
    unfold pass at hi
    split at hi
    · next hj =>
        split at hi
        · rcases mem_cons.mp hi with rfl | hi
          · exact hj
          · exact ih hi
        · rw [mem_singleton.mp hi]
          exact hj
    · exact ih hi

theorem sweep_subset : sweep cls go ps l ⊆ l := by
  intro i hi
  obtain ⟨p, -, hp⟩ := mem_flatMap.mp hi
  exact pass_sublist.subset hp

theorem sweep_nodup (hl : l.Nodup) (hps : ps.Nodup) : (sweep cls go ps l).Nodup := by
  refine nodup_flatMap.mpr ⟨fun p _ => hl.sublist pass_sublist, ?_⟩
  refine hps.imp ?_
  -- passes for different classes take different items
  intro p q hpq i hp hq
  exact hpq ((cls_of_mem_pass hp).symm.trans (cls_of_mem_pass hq))

theorem sweep_subperm (hl : l.Nodup) (hps : ps.Nodup) : (sweep cls go ps l).Subperm l :=
  (sweep_nodup hl hps).subperm sweep_subset

/-- A pass that is only ended by the last item of its class takes all of them. -/
theorem mem_pass_of_pairwise {i : ι} (hgo : l.Pairwise fun i j => cls i = cls j → go i = true)
    (hi : i ∈ l) (hp : cls i = p) : i ∈ pass cls go p l := by
  induction l with
  | nil => cases hi
  | cons j l ih =>
    obtain ⟨hj, hl⟩ := pairwise_cons.mp hgo
    unfold pass
    rcases mem_cons.mp hi with rfl | hi
    · rw [if_pos hp]
      split <;> exact mem_cons_self
    · split
      · next hcls =>
          rw [if_pos (hj i hi (hcls.trans hp.symm))]
          exact mem_cons_of_mem _ (ih hl hi)
      · exact ih hl hi

/-- A pass that takes all items of its class is only ended by the last of them. -/
theorem pairwise_of_mem_pass (hl : l.Nodup) (hall : ∀ i ∈ l, cls i = p → i ∈ pass cls go p l) :
    l.Pairwise fun i j => cls i = p → cls j = p → go i = true := by
  induction l with
  | nil => exact List.Pairwise.nil
  | cons i l ih =>
    obtain ⟨hi, hl⟩ := nodup_cons.mp hl
    -- the items behind are taken by the rest of the pass, unless `i` has ended it
    have hrest : ∀ j ∈ l, cls j = p → (cls i = p → go i = true) ∧ j ∈ pass cls go p l := by
      intro j hj hp
      have hmem := hall j (mem_cons_of_mem _ hj) hp
      have hne : j ≠ i := fun h => hi (h ▸ hj)
      unfold pass at hmem
      split at hmem
      · split at hmem
        · next hgo =>
            exact ⟨fun _ => hgo, (mem_cons.mp hmem).resolve_left hne⟩
        · exact absurd (mem_singleton.mp hmem) hne
      · next hcls => exact ⟨fun h => absurd h hcls, hmem⟩
    refine pairwise_cons.mpr ⟨?_, ih hl fun j hj hp => (hrest j hj hp).2⟩
    intro j hj hip hjp
    exact (hrest j hj hjp).1 hip

/-- **When a sweep takes everything.** -/
theorem sweep_perm_iff (hl : l.Nodup) (hps : ps.Nodup) : (sweep cls go ps l).Perm l ↔
      (∀ i ∈ l, cls i ∈ ps) ∧ l.Pairwise fun i j => cls i = cls j → go i = true := by
  rw [perm_ext_iff_of_nodup (sweep_nodup hl hps) hl]
  constructor
  · intro hmem
    have htaken : ∀ i ∈ l, cls i ∈ ps ∧ i ∈ pass cls go (cls i) l := by
      intro i hi
      obtain ⟨p, hp, hpass⟩ := mem_flatMap.mp ((hmem i).mpr hi)
      rw [cls_of_mem_pass hpass]
      exact ⟨hp, hpass⟩
    refine ⟨fun i hi => (htaken i hi).1, ?_⟩
    have hpair : ∀ p, l.Pairwise fun i j => cls i = p → cls j = p → go i = true := by
      intro p
      refine pairwise_of_mem_pass hl ?_
      rintro i hi rfl
      exact (htaken i hi).2
    refine pairwise_iff_forall_sublist.mpr ?_
    intro i j hij hcls
    exact pairwise_iff_forall_sublist.mp (hpair (cls i)) hij rfl hcls.symm
  · rintro ⟨hin, hgo⟩ i
    refine ⟨fun hi => sweep_subset hi, ?_⟩
    intro hi
    exact mem_flatMap.mpr ⟨cls i, hin i hi, mem_pass_of_pairwise hgo hi rfl⟩

end BeastOs.Lib
