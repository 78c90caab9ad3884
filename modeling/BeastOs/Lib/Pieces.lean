import Mathlib.Order.Interval.Finset.Nat
import Mathlib.Algebra.Order.BigOperators.Group.List
import Mathlib.Algebra.Order.Ring.Nat

/-!
# Pieces of a finite set

A list of pairwise disjoint finite sets, such as the parts a region of memory has been cut into.
Pieces can be cut into smaller ones, and together they are no larger than the set they lie in.
-/

namespace BeastOs.Lib

variable {α : Type} {x s : Finset α} {l : List (Finset α)}

/-- Disjointness does not depend on the order of the pieces. -/
theorem pairwise_disjoint_perm {l' : List (Finset α)} (hperm : l.Perm l')
    (h : l.Pairwise Disjoint) : l'.Pairwise Disjoint :=
  (hperm.pairwise_iff fun hxy => hxy.symm).mp h

/-- A piece can be cut into disjoint parts, some of which may be dropped. -/
theorem pairwise_disjoint_cut {parts : List (Finset α)} (h : (x :: l).Pairwise Disjoint)
    (hparts : parts.Pairwise Disjoint) (hsub : ∀ y ∈ parts, y ⊆ x) :
    (parts ++ l).Pairwise Disjoint := by
  obtain ⟨hx, hl⟩ := List.pairwise_cons.mp h
  refine List.pairwise_append.mpr ⟨hparts, hl, ?_⟩
  intro y hy u hu
  exact Finset.disjoint_of_subset_left (hsub y hy) (hx u hu)

section

variable (h : l.Pairwise Disjoint) (hs : ∀ u ∈ l, u ⊆ s)
include h hs

/-- Pairwise disjoint pieces of a set have together at most its size. -/
theorem sum_card_le_card : (l.map Finset.card).sum ≤ s.card := by
  classical
  -- what is left of the set after the first piece holds the others
  induction l generalizing s with
  | nil => exact Nat.zero_le _
  | cons u l ih =>
    obtain ⟨hu, hl⟩ := List.pairwise_cons.mp h
    have hus : u ⊆ s := hs u List.mem_cons_self
    have hrest : ∀ v ∈ l, v ⊆ s \ u := by
      intro v hv
      exact Finset.subset_sdiff.mpr ⟨hs v (List.mem_cons_of_mem _ hv), (hu v hv).symm⟩
    have hsum := ih hl hrest
    have hcard := Finset.card_sdiff_add_card_eq_card hus
    rw [List.map_cons, List.sum_cons]
    omega

/-- Pairwise disjoint pieces that are together as large as the set cover it. -/
theorem exists_mem_of_card_le_sum {a : α} (hsum : s.card ≤ (l.map Finset.card).sum) (ha : a ∈ s) :
    ∃ u ∈ l, a ∈ u := by
  classical
  by_contra hnone
  -- otherwise the pieces lie in the set without `a`
  have hsub : ∀ u ∈ l, u ⊆ s.erase a := by
    intro u hu b hb
    refine Finset.mem_erase.mpr ⟨?_, hs u hu hb⟩
    rintro rfl
    exact hnone ⟨u, hu, hb⟩
  have hle := sum_card_le_card h hsub
  have hcard := Finset.card_erase_lt_of_mem ha
  omega

/-- Pairwise disjoint pieces of at least `n` elements each are at most `card / n` many. -/
theorem mul_length_le_card {n : Nat} (hn : ∀ u ∈ l, n ≤ u.card) : l.length * n ≤ s.card := by
  refine le_trans ?_ (sum_card_le_card h hs)
  have hsum := List.card_nsmul_le_sum (l.map Finset.card) n (by simpa using hn)
  simpa using hsum

end

end BeastOs.Lib
