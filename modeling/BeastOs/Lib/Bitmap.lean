import Mathlib.Data.Finset.Card
import Mathlib.Data.Finset.Range
import Mathlib.Logic.Function.Basic

/-!
# Bitmaps packed into machine words

A bitmap is an infinite sequence of `w`-bit words; bit `i` is bit `i % w` of word `i / w`. The
operations are the usual mask arithmetic. `ones b n` is the set a bitmap stands for, its set bits
below `n`, and every operation is described by what it does to that set.
-/

namespace BeastOs.Lib

open Function BitVec

/-- The words of a bitmap. -/
abbrev Bitmap (w : Nat) := Nat → BitVec w

namespace Bitmap

variable {w i j words n : Nat} {b : Bitmap w}

def zero : Bitmap w := fun _ => 0#w

def testBit (b : Bitmap w) (i : Nat) : Bool := b (i / w) &&& 1#w <<< (i % w) ≠ 0#w

def setBit (b : Bitmap w) (i : Nat) : Bitmap w :=
  Function.update b (i / w) (b (i / w) ||| 1#w <<< (i % w))

def clearBit (b : Bitmap w) (i : Nat) : Bitmap w :=
  Function.update b (i / w) (b (i / w) &&& ~~~(1#w <<< (i % w)))

/-- The first set bit of the first `words` words. -/
def firstOne (b : Bitmap w) (words : Nat) : Option Nat :=
  ((List.range words).find? fun i => b i ≠ 0#w).map fun i => i * w + (b i).ctz.toNat

/-! ## Single bits -/

theorem one_shiftLeft (k : Nat) : 1#w <<< k = BitVec.twoPow w k := rfl

theorem testBit_eq_getLsbD (hw : 0 < w) (b : Bitmap w) (i : Nat) :
    testBit b i = (b (i / w)).getLsbD (i % w) := by
  have hmod : i % w < w := Nat.mod_lt i hw
  unfold testBit
  rw [one_shiftLeft, and_twoPow]
  split
  · next h =>
      have hne : twoPow w (i % w) ≠ 0#w := by
        intro heq
        have hbit := congrArg (·.getLsbD (i % w)) heq
        simp [hmod] at hbit
      rw [h]
      exact decide_eq_true hne
  · next h =>
      rw [Bool.not_eq_true] at h
      rw [h]
      simp

/-- Within one word a bit is determined by its place. -/
theorem mod_eq_iff (hdiv : j / w = i / w) : i % w = j % w ↔ j = i := by
  constructor
  · intro hmod
    rw [← Nat.div_add_mod j w, ← Nat.div_add_mod i w, hdiv, hmod]
  · intro h
    rw [h]

theorem testBit_zero (i : Nat) : testBit (zero : Bitmap w) i = false := by
  simp [testBit, zero]

theorem testBit_setBit (hw : 0 < w) (b : Bitmap w) (i j : Nat) :
    testBit (setBit b i) j = (decide (j = i) || testBit b j) := by
  have hmodi : i % w < w := Nat.mod_lt i hw
  simp only [testBit_eq_getLsbD hw]
  unfold setBit
  by_cases hdiv : j / w = i / w
  · rw [hdiv, update_self, getLsbD_or, one_shiftLeft, getLsbD_twoPow, Bool.or_comm]
    congr 1
    simp [hmodi, mod_eq_iff hdiv]
  · rw [update_of_ne hdiv]
    have hne : j ≠ i := fun h => hdiv (by rw [h])
    simp [hne]

theorem testBit_clearBit (hw : 0 < w) (b : Bitmap w) (i j : Nat) :
    testBit (clearBit b i) j = (!decide (j = i) && testBit b j) := by
  have hmod : j % w < w := Nat.mod_lt j hw
  have hmodi : i % w < w := Nat.mod_lt i hw
  simp only [testBit_eq_getLsbD hw]
  unfold clearBit
  by_cases hdiv : j / w = i / w
  · rw [hdiv, update_self, getLsbD_and, getLsbD_not, one_shiftLeft,
      getLsbD_twoPow, Bool.and_comm]
    congr 1
    simp [hmod, hmodi, mod_eq_iff hdiv]
  · rw [update_of_ne hdiv]
    have hne : j ≠ i := fun h => hdiv (by rw [h])
    simp [hne]

/-- A word that is not zero has a set bit. -/
theorem ctz_lt {x : BitVec w} (h : x ≠ 0#w) : x.ctz.toNat < w := by
  by_contra hge
  have hbit := getLsbD_true_ctz_of_ne_zero h
  rw [getLsbD_of_ge _ _ (Nat.not_lt.mp hge)] at hbit
  cases hbit

theorem firstOne_eq_some (hw : 0 < w) (h : firstOne b words = some i) :
    i < words * w ∧ testBit b i = true := by
  obtain ⟨k, hk, rfl⟩ := Option.map_eq_some_iff.mp h
  have hlt : k < words := List.mem_range.mp (List.mem_of_find?_eq_some hk)
  have hne : b k ≠ 0#w := by simpa using List.find?_some hk
  have hctz := ctz_lt hne
  have hdiv : (k * w + (b k).ctz.toNat) / w = k := by
    rw [Nat.mul_comm, Nat.mul_add_div hw, Nat.div_eq_of_lt hctz, Nat.add_zero]
  have hmod : (k * w + (b k).ctz.toNat) % w = (b k).ctz.toNat := by
    rw [Nat.mul_comm, Nat.mul_add_mod, Nat.mod_eq_of_lt hctz]
  constructor
  · calc k * w + (b k).ctz.toNat < k * w + w := by omega
      _ = (k + 1) * w := by rw [Nat.succ_mul]
      _ ≤ words * w := Nat.mul_le_mul_right w hlt
  · rw [testBit_eq_getLsbD hw, hdiv, hmod]
    exact getLsbD_true_ctz_of_ne_zero hne

theorem firstOne_le (hw : 0 < w) (h : firstOne b words = some i) (hj : testBit b j = true) :
    i ≤ j := by
  obtain ⟨k, hk, rfl⟩ := Option.map_eq_some_iff.mp h
  obtain ⟨-, -, hbefore⟩ := List.find?_range_eq_some.mp hk
  rw [testBit_eq_getLsbD hw] at hj
  have hword : k ≤ j / w := by
    by_contra hlt
    have hzero : b (j / w) = 0#w := by simpa using hbefore (j / w) (Nat.not_le.mp hlt)
    rw [hzero, getLsbD_zero] at hj
    cases hj
  have hdiv := Nat.div_add_mod j w
  rw [Nat.mul_comm] at hdiv
  rcases Nat.eq_or_lt_of_le hword with rfl | hlt
  · have hctz : (b (j / w)).ctz.toNat ≤ j % w := by
      by_contra hgt
      rw [getLsbD_false_of_lt_ctz (Nat.not_le.mp hgt)] at hj
      cases hj
    omega
  · have hne : b k ≠ 0#w := by simpa using List.find?_some hk
    have hctz := ctz_lt hne
    have hnext : (k + 1) * w ≤ j / w * w := Nat.mul_le_mul_right w hlt
    rw [Nat.succ_mul] at hnext
    omega

theorem firstOne_eq_none (hw : 0 < w) (h : firstOne b words = none) (hi : i < words * w) :
    testBit b i = false := by
  have hall := List.find?_eq_none.mp (Option.map_eq_none_iff.mp h)
  have hlt : i / w < words := (Nat.div_lt_iff_lt_mul hw).mpr hi
  have hzero : b (i / w) = 0#w := by
    simpa using hall (i / w) (List.mem_range.mpr hlt)
  rw [testBit_eq_getLsbD hw, hzero, getLsbD_zero]

/-! ## The set a bitmap stands for -/

/-- The set bits below `n`. -/
def ones (b : Bitmap w) (n : Nat) : Finset Nat :=
  (Finset.range n).filter fun i => testBit b i = true

theorem mem_ones : i ∈ ones b n ↔ i < n ∧ testBit b i = true := by
  simp [ones]

theorem ones_zero (n : Nat) : ones (zero : Bitmap w) n = ∅ := by
  ext j
  simp [mem_ones, testBit_zero]

theorem ones_setBit (hw : 0 < w) (hi : i < n) :
    ones (setBit b i) n = insert i (ones b n) := by
  ext j
  rw [Finset.mem_insert, mem_ones, mem_ones, testBit_setBit hw]
  by_cases hj : j = i
  · simp [hj, hi]
  · simp [hj]

theorem ones_clearBit (hw : 0 < w) : ones (clearBit b i) n = (ones b n).erase i := by
  ext j
  rw [Finset.mem_erase, mem_ones, mem_ones, testBit_clearBit hw]
  by_cases hj : j = i
  · simp [hj]
  · simp [hj]

end Bitmap

end BeastOs.Lib
