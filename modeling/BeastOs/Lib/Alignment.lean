import Mathlib.Data.BitVec

/-!
# Rounding words up to an alignment

`alignUp x a` is the usual `(x + a - 1) & !(a - 1)`. For a power of two, and as long as the sum does
not wrap, it is the least multiple of `a` that is not below `x`.

Main result: `alignUp_spec`.
-/

namespace BeastOs.Lib

open BitVec

variable {w k : Nat} {x a : BitVec w}

/-- Round `x` up to the alignment `a`. -/
def alignUp (x a : BitVec w) : BitVec w := (x + a - 1) &&& ~~~(a - 1)

/-- Masking out the low bits of a word. -/
theorem and_not_mask_eq (x : BitVec w) (k : Nat) :
    x &&& ~~~(BitVec.ofNat w (2 ^ k - 1)) = x >>> k <<< k := by
  ext i hi
  rw [getElem_and, getElem_not, getElem_shiftLeft]
  have hmask : (BitVec.ofNat w (2 ^ k - 1))[i] = decide (i < k) := by
    rw [← getLsbD_eq_getElem, getLsbD_ofNat, Nat.testBit_two_pow_sub_one]
    simp [hi]
  rw [hmask]
  by_cases hik : i < k
  · simp [hik]
  · have hsum : k + (i - k) = i := by omega
    simp [hik, hsum, getLsbD_eq_getElem hi]

theorem toNat_and_not_mask (x : BitVec w) (k : Nat) :
    (x &&& ~~~(BitVec.ofNat w (2 ^ k - 1))).toNat = x.toNat / 2 ^ k * 2 ^ k := by
  rw [and_not_mask_eq, toNat_shiftLeft, toNat_ushiftRight, Nat.shiftLeft_eq,
    Nat.shiftRight_eq_div_pow]
  exact Nat.mod_eq_of_lt (lt_of_le_of_lt (Nat.div_mul_le_self _ _) x.isLt)

theorem toNat_alignUp_mod (ha : a.toNat = 2 ^ k) :
    (alignUp x a).toNat = (x.toNat + (2 ^ k - 1)) % 2 ^ w / 2 ^ k * 2 ^ k := by
  have hpos := Nat.two_pow_pos k
  have hmask : a - 1 = BitVec.ofNat w (2 ^ k - 1) := by
    have hofNat : a = BitVec.ofNat w (2 ^ k) := by
      rw [← ha, ofNat_toNat, setWidth_eq]
    rw [hofNat, BitVec.sub_eq_iff_eq_add, show (1 : BitVec w) = BitVec.ofNat w 1 from rfl,
      ← ofNat_add, Nat.sub_add_cancel hpos]
  unfold alignUp
  rw [add_sub_assoc, hmask, toNat_and_not_mask, toNat_add, toNat_ofNat, Nat.add_mod_mod]

theorem toNat_alignUp (ha : a.toNat = 2 ^ k) (hx : x.toNat + (a.toNat - 1) < 2 ^ w) :
    (alignUp x a).toNat = (x.toNat + (2 ^ k - 1)) / 2 ^ k * 2 ^ k := by
  rw [toNat_alignUp_mod ha, Nat.mod_eq_of_lt]
  rw [← ha]
  exact hx

/-- Rounding up past the last word wraps around to 0. -/
theorem alignUp_eq_zero (ha : a.toNat = 2 ^ k)
    (hx : 2 ^ w ≤ x.toNat + (a.toNat - 1)) : alignUp x a = 0 := by
  have hlt := x.isLt
  have hpow : 2 ^ k ≤ 2 ^ w := by
    rw [← ha]
    exact Nat.le_of_lt a.isLt
  rw [ha] at hx
  have hmod : (x.toNat + (2 ^ k - 1)) % 2 ^ w = x.toNat + (2 ^ k - 1) - 2 ^ w := by
    rw [Nat.mod_eq_sub_mod hx, Nat.mod_eq_of_lt]
    omega
  apply eq_of_toNat_eq
  rw [toNat_alignUp_mod ha, hmod, Nat.div_eq_of_lt (by omega), Nat.zero_mul]
  rfl

/-- Rounding up gives a multiple of the alignment, less than one alignment above. -/
theorem alignUp_spec (ha : a.toNat = 2 ^ k) (hx : x.toNat + (a.toNat - 1) < 2 ^ w) :
    a.toNat ∣ (alignUp x a).toNat ∧ x.toNat ≤ (alignUp x a).toNat ∧
      (alignUp x a).toNat ≤ x.toNat + (a.toNat - 1) := by
  have hpos := Nat.two_pow_pos k
  rw [toNat_alignUp ha hx, ha]
  refine ⟨Nat.dvd_mul_left _ _, ?_, Nat.div_mul_le_self _ _⟩
  have hdiv := Nat.div_add_mod (x.toNat + (2 ^ k - 1)) (2 ^ k)
  have hmod := Nat.mod_lt (x.toNat + (2 ^ k - 1)) hpos
  rw [mul_comm] at hdiv
  omega

end BeastOs.Lib
