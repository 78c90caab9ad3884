import Mathlib.Data.BitVec

/-!
# Fields packed into a word

Several fields are kept in one `w`-bit word, each at a position of its own. `place` puts a field at
its position, `|||` joins placed fields, and `extractLsb'` reads a field back. A field is read back
from where it was placed, and a field placed elsewhere does not show.
-/

namespace BeastOs.Lib

open BitVec

variable {v w : Nat}

/-- The field `x` at bit `n` of a word, and zeros around it. -/
def place (w n : Nat) (x : BitVec v) : BitVec w := x.setWidth w <<< n

theorem getLsbD_place (n : Nat) (x : BitVec v) (i : Nat) :
    (place w n x).getLsbD i = (decide (i < w) && (!decide (i < n) && x.getLsbD (i - n))) := by
  unfold place
  rw [getLsbD_shiftLeft, getLsbD_setWidth]
  by_cases hw : i < w
  · have hin : i - n < w := by omega
    simp [hw, hin]
  · simp [hw]

/-- A field is read back where it was placed. -/
theorem extractLsb'_place {n : Nat} (x : BitVec v) (h : n + v ≤ w) :
    (place w n x).extractLsb' n v = x := by
  apply eq_of_getLsbD_eq
  intro i hi
  have hin : n + i < w := by omega
  rw [getLsbD_extractLsb', getLsbD_place]
  simp [hi, hin]

/-- Elsewhere there are zeros. -/
theorem extractLsb'_place_of_disjoint {n m len : Nat} (x : BitVec v)
    (h : m + len ≤ n ∨ n + v ≤ m) : (place w n x).extractLsb' m len = BitVec.ofNat len 0 := by
  apply eq_of_getLsbD_eq
  intro i hi
  rw [getLsbD_extractLsb', getLsbD_place]
  rcases h with hbelow | habove
  · have hlow : m + i < n := by omega
    simp [hlow]
  · have hout : x.getLsbD (m + i - n) = false := getLsbD_of_ge _ _ (by omega)
    simp [hout]

/-- The bits under a mask of the low `k` bits are a field at position 0. -/
theorem and_mask_eq_place {k : Nat} (hk : k ≤ w) (x : BitVec w) :
    x &&& BitVec.ofNat w (2 ^ k - 1) = place w 0 (x.setWidth k) := by
  have hmask : 2 ^ k - 1 < 2 ^ w :=
    Nat.lt_of_lt_of_le (Nat.sub_lt (Nat.two_pow_pos k) Nat.one_pos)
      (Nat.pow_le_pow_right (by decide) hk)
  have hlt : x.toNat % 2 ^ k < 2 ^ w :=
    Nat.lt_of_lt_of_le (Nat.mod_lt _ (Nat.two_pow_pos k)) (Nat.pow_le_pow_right (by decide) hk)
  apply eq_of_toNat_eq
  unfold place
  simp only [shiftLeft_zero, toNat_and, toNat_ofNat, Nat.mod_eq_of_lt hmask,
    Nat.and_two_pow_sub_one_eq_mod, toNat_setWidth, Nat.mod_eq_of_lt hlt]

end BeastOs.Lib
