import Mathlib.Data.Set.Insert
import Mathlib.Logic.Function.Basic

/-!
# Trees in a graph of tables

Tables refer to other tables by indices: `child t i` is the table that entry `i` of `t` refers to. A
walk follows a path of indices. Only some entries, the *inner* ones, belong to a tree; whether an
entry is inner depends on the path that led to its table.

In a `Forest` every table of a tree has one owner, the root and the path that lead to it. So the
trees of different roots share no table, and a table is reached in one way only. Forests grow by
new roots (`plant`) and by new tables at empty entries (`graft`).
-/

namespace BeastOs.Lib

open Function

variable {α ι : Type} {inner : List ι → ι → Prop} {child child' : α → ι → Option α} {roots : Set α}
  {own : α → Option (α × List ι)} {t u r : α} {p : List ι} {i : ι}

/-- The table at the end of a path. -/
def walk (child : α → ι → Option α) (t : α) : List ι → Option α
  | [] => some t
  | i :: p => (child t i).bind fun u => walk child u p

theorem walk_append (child : α → ι → Option α) (t : α) (p q : List ι) :
    walk child t (p ++ q) = (walk child t p).bind fun u => walk child u q := by
  induction p generalizing t with
  | nil => rfl
  | cons i p ih =>
    rw [List.cons_append, walk, walk, Option.bind_assoc]
    simp only [ih]

theorem walk_snoc (child : α → ι → Option α) (t : α) (p : List ι) (i : ι) :
    walk child t (p ++ [i]) = (walk child t p).bind fun u => child u i := by
  simp only [walk_append, walk, Option.bind_fun_some]

theorem update_eq_some {κ β : Type} [DecidableEq κ] {f : κ → Option β} {k m : κ} {b c : β}
    (h : update f k (some b) m = some c) : (m = k ∧ c = b) ∨ (m ≠ k ∧ f m = some c) := by
  by_cases hm : m = k
  · rw [hm, update_self] at h
    exact .inl ⟨hm, (Option.some.inj h).symm⟩
  · rw [update_of_ne hm] at h
    exact .inr ⟨hm, h⟩

/-- A path that only passes inner entries. -/
inductive InnerPath (inner : List ι → ι → Prop) : List ι → Prop
  | nil : InnerPath inner []
  | snoc {p : List ι} {i : ι} : InnerPath inner p → inner p i → InnerPath inner (p ++ [i])

/-- `own` gives each table of the trees its root and its path. -/
structure Forest (inner : List ι → ι → Prop) (child : α → ι → Option α) (roots : Set α)
    (own : α → Option (α × List ι)) : Prop where
  root : ∀ r ∈ roots, own r = some (r, [])
  valid : ∀ t r p, own t = some (r, p) → r ∈ roots ∧ InnerPath inner p
  owned : ∀ t r p i u, own t = some (r, p) → inner p i → child t i = some u →
    own u = some (r, p ++ [i])
  reached : ∀ t r p, own t = some (r, p) → walk child r p = some t

namespace Forest

section

variable (h : Forest inner child roots own)
include h

/-- A walk along inner entries ends at the table with that owner. -/
theorem walk_iff (hr : r ∈ roots) (hp : InnerPath inner p) :
    walk child r p = some t ↔ own t = some (r, p) := by
  refine ⟨?_, h.reached t r p⟩
  induction hp generalizing t with
  | nil =>
    intro hwalk
    cases hwalk
    exact h.root r hr
  | snoc _ hi ih =>
    intro hwalk
    rw [walk_snoc] at hwalk
    obtain ⟨u, hu, hchild⟩ := Option.bind_eq_some_iff.mp hwalk
    exact h.owned u r _ _ t (ih hu) hi hchild

/-- Walks survive when the inner entries they pass are kept. -/
theorem walk_of_keeps (hkeeps : ∀ s r q j v, own s = some (r, q) → inner q j → child s j = some v →
      child' s j = some v) (hr : r ∈ roots) (hp : InnerPath inner p)
    (hwalk : walk child r p = some t) : walk child' r p = some t := by
  induction hp generalizing t with
  | nil => exact hwalk
  | snoc hq hi ih =>
    rw [walk_snoc] at hwalk ⊢
    obtain ⟨u, hu, hchild⟩ := Option.bind_eq_some_iff.mp hwalk
    exact Option.bind_eq_some_iff.mpr
      ⟨u, ih hu, hkeeps u r _ _ t ((h.walk_iff hr hq).mp hu) hi hchild⟩

/-- Nothing changes for the forest when its inner entries do not. -/
theorem congr (hsame : ∀ s r q j, own s = some (r, q) → inner q j → child' s j = child s j) :
    Forest inner child' roots own where
  root := h.root
  valid := h.valid
  owned := by
    intro s r q j v hs hj hchild
    rw [hsame s r q j hs hj] at hchild
    exact h.owned s r q j v hs hj hchild
  reached := by
    intro s r q hs
    obtain ⟨hr, hq⟩ := h.valid s r q hs
    refine h.walk_of_keeps ?_ hr hq (h.reached s r q hs)
    intro s r q j v hs hj hchild
    rw [hsame s r q j hs hj]
    exact hchild

end

theorem ne_of_own {n : α × List ι} (hs : own t = some n) (hu : own u = none) : t ≠ u := by
  rintro rfl
  rw [hu] at hs
  cases hs

section Grow

variable [DecidableEq α]

/-- A new table without inner entries becomes a root. -/
theorem plant (h : Forest inner child roots own) (hu : own u = none)
    (hempty : ∀ j, inner [] j → child' u j = none)
    (hsame : ∀ s r q j, own s = some (r, q) → inner q j → child' s j = child s j) :
    Forest inner child' (insert u roots) (update own u (some (u, []))) where
  root := by
    rintro r (rfl | hr)
    · exact update_self _ _ _
    · have hown := h.root r hr
      rw [update_of_ne (ne_of_own hown hu)]
      exact hown
  valid := by
    intro s r q hs
    rcases update_eq_some hs with ⟨rfl, heq⟩ | ⟨-, hs⟩
    · cases heq
      exact ⟨Set.mem_insert _ _, .nil⟩
    · obtain ⟨hr, hq⟩ := h.valid s r q hs
      exact ⟨Set.mem_insert_of_mem _ hr, hq⟩
  owned := by
    intro s r q j v hs hj hchild
    rcases update_eq_some hs with ⟨rfl, heq⟩ | ⟨-, hs⟩
    · cases heq
      rw [hempty j hj] at hchild
      cases hchild
    · have hv := (h.congr hsame).owned s r q j v hs hj hchild
      rw [update_of_ne (ne_of_own hv hu)]
      exact hv
  reached := by
    intro s r q hs
    rcases update_eq_some hs with ⟨rfl, heq⟩ | ⟨-, hs⟩
    · cases heq
      rfl
    · exact (h.congr hsame).reached s r q hs

/-- A new table without inner entries is put at an inner entry that was empty. -/
theorem graft (h : Forest inner child roots own) (hu : own u = none) (ht : own t = some (r, p))
    (hi : inner p i) (hnone : child t i = none) (hnew : child' t i = some u)
    (hempty : ∀ j, inner (p ++ [i]) j → child' u j = none)
    (hsame : ∀ s r q j, own s = some (r, q) → inner q j → ¬ (s = t ∧ j = i) →
      child' s j = child s j) : Forest inner child' roots (update own u (some (r, p ++ [i]))) := by
  -- the entry was empty, so no entry that was taken has changed
  have hkeeps : ∀ s r q j v, own s = some (r, q) → inner q j → child s j = some v →
      child' s j = some v := by
    intro s r q j v hs hj hchild
    rw [hsame s r q j hs hj ?_, hchild]
    rintro ⟨rfl, rfl⟩
    rw [hnone] at hchild
    cases hchild
  have hreached : ∀ s r q, own s = some (r, q) → walk child' r q = some s := by
    intro s r q hs
    obtain ⟨hr, hq⟩ := h.valid s r q hs
    exact h.walk_of_keeps hkeeps hr hq (h.reached s r q hs)
  constructor
  · intro r hr
    have hown := h.root r hr
    rw [update_of_ne (ne_of_own hown hu)]
    exact hown
  · intro s r' q hs
    rcases update_eq_some hs with ⟨rfl, heq⟩ | ⟨-, hs⟩
    · cases heq
      obtain ⟨hr, hp⟩ := h.valid t r p ht
      exact ⟨hr, .snoc hp hi⟩
    · exact h.valid s r' q hs
  · intro s r' q j v hs hj hchild
    rcases update_eq_some hs with ⟨rfl, heq⟩ | ⟨-, hold⟩
    · cases heq
      rw [hempty j hj] at hchild
      cases hchild
    · by_cases hsti : s = t ∧ j = i
      · obtain ⟨rfl, rfl⟩ := hsti
        rw [hnew] at hchild
        cases hchild
        rw [ht] at hold
        cases hold
        exact update_self _ _ _
      · rw [hsame s r' q j hold hj hsti] at hchild
        have hv := h.owned s r' q j v hold hj hchild
        rw [update_of_ne (ne_of_own hv hu)]
        exact hv
  · intro s r' q hs
    rcases update_eq_some hs with ⟨rfl, heq⟩ | ⟨-, hs⟩
    · cases heq
      rw [walk_snoc, hreached t r p ht]
      exact hnew
    · exact hreached s r' q hs

end Grow

end Forest

end BeastOs.Lib
