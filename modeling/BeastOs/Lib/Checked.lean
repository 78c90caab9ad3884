import BeastOs.Lib.Text

/-!
# Checked operations

Operations on sizes and slices that panic when they go out of range, which is `none` here: addition
of `usize`, a slice of bytes, and the rest of a text from a byte on. Each has the condition under
which it does not panic.
-/

namespace BeastOs.Lib

variable {α : Type}

def checkedAdd (a b : Nat) : Option Nat := if a + b < 2 ^ 64 then some (a + b) else none

/-- `&xs[a..b]` -/
def checkedSlice (xs : List α) (a b : Nat) : Option (List α) :=
  if a ≤ b ∧ b ≤ xs.length then some ((xs.drop a).take (b - a)) else none

/-- `&s[n..]`, where `n` has to be at the start of a character. -/
def checkedFrom (s : String) (n : Nat) : Option String :=
  if n ≤ (utf8 s).length then fromUtf8 ((utf8 s).drop n) else none

theorem checkedAdd_eq {a b : Nat} (h : a + b < 2 ^ 64) : checkedAdd a b = some (a + b) := if_pos h

theorem checkedSlice_eq {xs : List α} {a b : Nat} (hab : a ≤ b) (hb : b ≤ xs.length) :
    checkedSlice xs a b = some ((xs.drop a).take (b - a)) := if_pos ⟨hab, hb⟩

theorem checkedSlice_zero {xs : List α} {b : Nat} (hb : b ≤ xs.length) :
    checkedSlice xs 0 b = some (xs.take b) := if_pos ⟨Nat.zero_le b, hb⟩

theorem utf8_append (s t : String) : utf8 (s ++ t) = utf8 s ++ utf8 t := by
  simp [utf8, String.toByteArray_append]

/-- A text can be cut after a text it starts with. -/
theorem checkedFrom_append (s t : String) : checkedFrom (s ++ t) (utf8 s).length = some t := by
  rw [checkedFrom, utf8_append, if_pos, List.drop_left, fromUtf8_utf8]
  rw [List.length_append]
  exact Nat.le_add_right _ _

end BeastOs.Lib
