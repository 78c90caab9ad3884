import Mathlib.Data.BitVec
import BeastOs.Lib.CircularBuffer

/-!
# Free-running indices

A ring of `2 ^ k` slots whose indices count up for ever in `w`-bit words and are masked when a slot
is accessed. Two indices are compared by their wrapping difference, which is the true distance as
long as that is below `2 ^ w`.
-/

namespace BeastOs.Lib

open List BitVec

variable {w k i j : Nat}

/-- The slot of an index. -/
def maskIndex (k : Nat) (x : BitVec w) : Nat := (x &&& BitVec.ofNat w (2 ^ k - 1)).toNat

theorem maskIndex_eq_mod (hk : k ≤ w) (x : BitVec w) :
    maskIndex k x = x.toNat % 2 ^ k := by
  have hle : 2 ^ k - 1 < 2 ^ w :=
    lt_of_lt_of_le (Nat.sub_lt (Nat.two_pow_pos k) Nat.one_pos)
      (Nat.pow_le_pow_right (by decide) hk)
  unfold maskIndex
  rw [toNat_and, toNat_ofNat, Nat.mod_eq_of_lt hle, Nat.and_two_pow_sub_one_eq_mod]

/-- The slot of the index that has counted `i` steps from `c`. -/
theorem maskIndex_add (hk : k ≤ w) (c : BitVec w) (i : Nat) :
    maskIndex k (c + BitVec.ofNat w i) = (c.toNat + i) % 2 ^ k := by
  have hdvd : 2 ^ k ∣ 2 ^ w := Nat.pow_dvd_pow 2 hk
  rw [maskIndex_eq_mod hk, toNat_add, toNat_ofNat, Nat.add_mod_mod, Nat.mod_mod_of_dvd _ hdvd]

/-- Less than one revolution apart, indices have different slots. -/
theorem maskIndex_ne (hk : k ≤ w) (c : BitVec w) (hij : i < j)
    (hj : j < i + 2 ^ k) :
    maskIndex k (c + BitVec.ofNat w i) ≠ maskIndex k (c + BitVec.ofNat w j) := by
  simp only [maskIndex_add hk]
  exact add_mod_ne_add_mod hij hj

section

variable (c : BitVec w)

/-- The wrapping difference of two indices is their distance. -/
theorem toNat_sub_index (hij : i ≤ j) (hj : j - i < 2 ^ w) :
    (c + BitVec.ofNat w j - (c + BitVec.ofNat w i)).toNat = j - i := by
  have hsplit : c + BitVec.ofNat w j = BitVec.ofNat w (j - i) + (c + BitVec.ofNat w i) := by
    rw [add_left_comm, ← ofNat_add, Nat.sub_add_cancel hij]
  rw [hsplit, BitVec.add_sub_cancel, toNat_ofNat, Nat.mod_eq_of_lt hj]

/-- Indices less than `2 ^ w` apart are equal only if they have counted the same. -/
theorem index_inj (hij : i ≤ j) (hj : j - i < 2 ^ w)
    (h : c + BitVec.ofNat w i = c + BitVec.ofNat w j) : i = j := by
  have hdist := toNat_sub_index c hij hj
  rw [h, BitVec.sub_self, toNat_ofNat, Nat.zero_mod] at hdist
  omega

/-- The `n` indices from `c` on. -/
def window (c : BitVec w) : Nat → List (BitVec w)
  | 0 => []
  | n + 1 => c :: window (c + 1) n

theorem window_eq_map (n : Nat) :
    window c n = (List.range n).map fun i => c + BitVec.ofNat w i := by
  induction n generalizing c with
  | zero => rfl
  | succ n ih =>
    have hsucc : ∀ i, c + 1 + BitVec.ofNat w i = c + BitVec.ofNat w (i + 1) := by
      intro i
      rw [Nat.add_comm, ofNat_add, add_assoc]
      rfl
    rw [window, ih, range_succ_eq_map, map_cons, map_map, BitVec.add_zero]
    simp only [hsucc, Function.comp_def]

@[simp] theorem length_window (n : Nat) : (window c n).length = n := by
  rw [window_eq_map, length_map, length_range]

theorem drop_window (n j : Nat) : (window c n).drop j = window (c + BitVec.ofNat w j) (n - j) := by
  induction j generalizing c n with
  | zero => rw [drop_zero, BitVec.add_zero, Nat.sub_zero]
  | succ j ih =>
    cases n with
    | zero => rw [Nat.zero_sub]; rfl
    | succ n =>
      rw [window, drop_succ_cons, ih, Nat.succ_sub_succ, Nat.add_comm j 1,
        ofNat_add, ← BitVec.add_assoc]
      rfl

theorem take_window {m n : Nat} (h : m ≤ n) : (window c n).take m = window c m := by
  simp only [window_eq_map, ← map_take, take_range, min_eq_left h]

/-- No index repeats before the words do. -/
theorem nodup_window {n : Nat} (hn : n ≤ 2 ^ w) : (window c n).Nodup := by
  rw [window_eq_map]
  refine List.Nodup.map_on ?_ nodup_range
  intro i hi j hj heq
  rw [mem_range] at hi hj
  rcases le_total i j with hij | hij
  · exact index_inj c hij (by omega) heq
  · exact (index_inj c hij (by omega) heq.symm).symm

end

end BeastOs.Lib
