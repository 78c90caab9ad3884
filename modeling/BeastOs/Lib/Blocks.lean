import Mathlib.Data.List.Basic

/-!
# Lists made of blocks

`l.flatMap f` where every `f a` has the same length `w`: the blocks can be counted, dropped and
taken as a whole.
-/

namespace BeastOs.Lib

open List

variable {α β : Type} {f : α → List β} {w : Nat}

section

variable (hw : ∀ a, (f a).length = w) (l : List α)
include hw

theorem length_flatMap_blocks : (l.flatMap f).length = l.length * w := by
  induction l with
  | nil => rw [flatMap_nil, length_nil, length_nil, Nat.zero_mul]
  | cons a l ih =>
    rw [flatMap_cons, length_append, hw, ih, length_cons, Nat.succ_mul, Nat.add_comm]

theorem drop_flatMap_blocks (n : Nat) : (l.flatMap f).drop (n * w) = (l.drop n).flatMap f := by
  induction n generalizing l with
  | zero => rw [Nat.zero_mul, drop_zero, drop_zero]
  | succ n ih =>
    cases l with
    | nil => simp only [flatMap_nil, drop_nil]
    | cons a l =>
      have hsplit : (n + 1) * w = (f a).length + n * w := by
        rw [hw, Nat.succ_mul, Nat.add_comm]
      rw [flatMap_cons, hsplit, drop_length_add_append, drop_succ_cons, ih]

theorem take_flatMap_blocks (n : Nat) : (l.flatMap f).take (n * w) = (l.take n).flatMap f := by
  induction n generalizing l with
  | zero => rw [Nat.zero_mul, take_zero, take_zero, flatMap_nil]
  | succ n ih =>
    cases l with
    | nil => simp only [flatMap_nil, take_nil]
    | cons a l =>
      have hsplit : (n + 1) * w = (f a).length + n * w := by
        rw [hw, Nat.succ_mul, Nat.add_comm]
      simp only [flatMap_cons, hsplit, take_length_add_append, take_succ_cons, ih]

end

/-- Data cut into blocks; what is left at the end is dropped. -/
def blocks (w : Nat) (data : List β) : List (List β) :=
  (List.range (data.length / w)).map fun i => (data.drop (i * w)).take w

end BeastOs.Lib
