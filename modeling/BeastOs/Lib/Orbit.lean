import Mathlib.Data.Fintype.Pigeonhole

/-!
# Following successors

`next` gives each element a successor or none. `visit next a n` is what is reached from `a` in `n`
steps, if anything is. In a finite type the way from `a` ends exactly if it never comes back to an
element it has visited.

Main result: `visit_ends_iff`.
-/

namespace BeastOs.Lib

variable {α : Type} (next : α → Option α) {a c : α} {i j : Nat}

def visit (a : α) : Nat → Option α
  | 0 => some a
  | n + 1 => (visit a n).bind next

theorem visit_add (a : α) (m n : Nat) :
    visit next a (m + n) = (visit next a m).bind fun b => visit next b n := by
  induction n with
  | zero => cases visit next a m <;> rfl
  | succ n ih =>
    rw [← add_assoc, visit, ih, Option.bind_assoc]
    rfl

/-- A visit, from its first step on. -/
theorem visit_succ (a : α) (n : Nat) :
    visit next a (n + 1) = (next a).bind fun b => visit next b n := by
  rw [add_comm, visit_add]
  rfl

variable {next}

/-- Once the way has ended there is nothing. -/
theorem visit_eq_none_of_le (h : visit next a i = none) (hij : i ≤ j) : visit next a j = none := by
  obtain ⟨k, rfl⟩ := Nat.exists_eq_add_of_le hij
  rw [visit_add, h]
  rfl

/-- Who comes back to a place comes back for ever. -/
theorem visit_mul (h : visit next c i = some c) (k : Nat) : visit next c (k * i) = some c := by
  induction k with
  | zero => rw [Nat.zero_mul, visit]
  | succ k ih =>
    rw [Nat.succ_mul, visit_add, ih]
    exact h

/-- A way that comes back does not end. -/
theorem visit_ne_none_of_repeat (hij : i < j) (hi : visit next a i = some c)
    (hj : visit next a j = some c) (n : Nat) : visit next a n ≠ none := by
  intro hnone
  have hloop : visit next c (j - i) = some c := by
    have hsplit := visit_add next a i (j - i)
    rw [Nat.add_sub_cancel' hij.le, hi, hj] at hsplit
    exact hsplit.symm
  have hlater : visit next a (i + n * (j - i)) = some c := by
    rw [visit_add, hi]
    exact visit_mul hloop n
  have hle : n ≤ i + n * (j - i) := by
    have hmul : n * 1 ≤ n * (j - i) := Nat.mul_le_mul_left n (by omega)
    omega
  rw [visit_eq_none_of_le hnone hle] at hlater
  cases hlater

/-- **A way in a finite type ends exactly if it does not come back.** -/
theorem visit_ends_iff [Finite α] (a : α) : (∃ n, visit next a n = none) ↔
      ∀ i j c, i < j → visit next a i = some c → visit next a j ≠ some c := by
  constructor
  · rintro ⟨n, hnone⟩ i j c hij hi hj
    exact visit_ne_none_of_repeat hij hi hj n hnone
  · intro hfresh
    by_contra hno
    push Not at hno
    choose f hf using fun n => Option.ne_none_iff_exists'.mp (hno n)
    obtain ⟨i, j, hne, heq⟩ := Finite.exists_ne_map_eq_of_infinite f
    rcases Nat.lt_or_gt_of_ne hne with hlt | hlt
    · exact hfresh i j (f i) hlt (hf i) (heq ▸ hf j)
    · exact hfresh j i (f i) hlt (heq ▸ hf j) (hf i)

end BeastOs.Lib
