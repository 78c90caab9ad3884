import Mathlib.Data.List.Induction
import BeastOs.Lib.Forest

/-!
# A tree of named nodes

Nodes refer to other nodes by names: `child s i` is what node `s` has under the name `i`. The graph
is a `Tree` below `root` if every node has at most one parent and name, and the root none. Nodes
that are not reached from the root may be left over; they belong to no path.

In a tree a node is reached along one path only (`walk_inj`), so a change of one entry is seen along
the paths through that entry and along no others (`walk_eq_of_not_prefix`).
-/

namespace BeastOs.Lib

open List Option

variable {α ι : Type} {child child' : α → ι → Option α} {root s t u : α} {p q : List ι} {i j : ι}

structure Tree (child : α → ι → Option α) (root : α) : Prop where
  unique : ∀ {s u i j t}, child s i = some t → child u j = some t → s = u ∧ i = j
  root_free : ∀ {s i}, child s i ≠ some root

namespace Tree

section

variable (h : Tree child root)
include h

/-- A node is reached along one path only. -/
theorem walk_inj (hp : walk child root p = some t) (hq : walk child root q = some t) : p = q := by
  induction p using reverseRecOn generalizing q t with
  | nil =>
    cases hp
    rcases eq_nil_or_concat q with rfl | ⟨q, j, rfl⟩
    · rfl
    · rw [concat_eq_append, walk_snoc] at hq
      obtain ⟨u, -, hu⟩ := bind_eq_some_iff.mp hq
      exact absurd hu h.root_free
  | append_singleton p i ih =>
    rw [walk_snoc] at hp
    obtain ⟨s, hs, hchild⟩ := bind_eq_some_iff.mp hp
    rcases eq_nil_or_concat q with rfl | ⟨q, j, rfl⟩
    · cases hq
      exact absurd hchild h.root_free
    · rw [concat_eq_append, walk_snoc] at hq
      obtain ⟨u, hu, hchild'⟩ := bind_eq_some_iff.mp hq
      obtain ⟨rfl, rfl⟩ := h.unique hchild hchild'
      rw [ih hs hu, concat_eq_append]

section

variable (hs : walk child root p = some s)
  (hother : ∀ u j, ¬ (u = s ∧ j = i) → child' u j = child u j)
include hs hother

/-- A change of the entry `i` of the node at `p` is not seen along paths that do not pass it. -/
theorem walk_eq_of_not_prefix (hq : ¬ p ++ [i] <+: q) : walk child' root q = walk child root q := by
  induction q using reverseRecOn with
  | nil => rfl
  | append_singleton q j ih =>
    have hinit : ¬ p ++ [i] <+: q := fun hpre => hq (hpre.trans (prefix_append q [j]))
    rw [walk_snoc, walk_snoc, ih hinit]
    cases hu : walk child root q with
    | none => rfl
    | some u =>
      refine hother u j ?_
      rintro ⟨rfl, rfl⟩
      exact hq (h.walk_inj hs hu ▸ prefix_rfl)

/-- The node that is changed is still found where it was. -/
theorem walk_changed : walk child' root p = some s := by
  rw [h.walk_eq_of_not_prefix hs hother, hs]
  intro hpre
  have hlen := hpre.length_le
  rw [length_append, length_singleton] at hlen
  omega

end

/-- A tree with fewer entries is a tree. -/
theorem of_subset (hsub : ∀ {u j t}, child' u j = some t → child u j = some t) : Tree child' root :=
  ⟨fun hs hu => h.unique (hsub hs) (hsub hu), fun hs => h.root_free (hsub hs)⟩

/-- A new entry for a node that has no parent. -/
theorem graft (hfresh : ∀ u j, child u j ≠ some t) (hroot : t ≠ root) (hself : child' s i = some t)
    (hother : ∀ u j, ¬ (u = s ∧ j = i) → child' u j = child u j) : Tree child' root := by
  -- an entry of the new graph is the new one, or an old one that refers to another node
  have hcases : ∀ {u j v}, child' u j = some v → (u = s ∧ j = i) ∧ v = t ∨
      child u j = some v ∧ v ≠ t := by
    intro u j v hv
    by_cases hnew : u = s ∧ j = i
    · obtain ⟨rfl, rfl⟩ := hnew
      rw [hself] at hv
      exact .inl ⟨⟨rfl, rfl⟩, (some.inj hv).symm⟩
    · rw [hother u j hnew] at hv
      refine .inr ⟨hv, ?_⟩
      rintro rfl
      exact hfresh u j hv
  constructor
  · intro u u' j j' v hv hv'
    rcases hcases hv with ⟨⟨rfl, rfl⟩, rfl⟩ | ⟨hv, hne⟩
    · rcases hcases hv' with ⟨⟨rfl, rfl⟩, -⟩ | ⟨-, hne⟩
      · exact ⟨rfl, rfl⟩
      · exact absurd rfl hne
    · rcases hcases hv' with ⟨-, rfl⟩ | ⟨hv', -⟩
      · exact absurd rfl hne
      · exact h.unique hv hv'
  · intro u j hv
    rcases hcases hv with ⟨-, rfl⟩ | ⟨hv, -⟩
    · exact hroot rfl
    · exact h.root_free hv

end

end Tree

/-- Nothing is found at or below an empty entry. -/
theorem walk_eq_none (hs : walk child root p = some s) (hi : child s i = none)
    (hq : p ++ [i] <+: q) : walk child root q = none := by
  obtain ⟨r, rfl⟩ := hq
  rw [walk_append, walk_snoc, hs, bind_some, hi, bind_none]

/-- Below a node without entries there is nothing. -/
theorem walk_below_leaf (ht : walk child root p = some t) (hleaf : ∀ j, child t j = none)
    (hpre : p <+: q) (hne : q ≠ p) : walk child root q = none := by
  obtain ⟨r, rfl⟩ := hpre
  rw [walk_append, ht, bind_some]
  cases r with
  | nil => exact absurd (append_nil p) hne
  | cons j r =>
    rw [walk, hleaf]
    rfl

end BeastOs.Lib
