import Mathlib.Data.List.Nodup
import Mathlib.Data.List.Range
import Mathlib.Data.List.Perm.Subperm
import Mathlib.Logic.Function.Basic

/-!
# Items sorted into buckets

A partial map `f : ι → Option κ` says which bucket, if any, each item belongs to; `q : κ → List ι`
lists the items of each bucket in some order. `Buckets f q` is agreement of the two: bucket `k`
lists exactly the items `f` sends to `k`, and lists each of them once.

The order inside a bucket is free, so adding an item at either end and removing one from anywhere
are the same two lemmas, `insert` and `erase`, up to a permutation of the bucket.
-/

namespace BeastOs.Lib

open List Function

variable {ι κ : Type}

/-- `q` lists the items of every bucket of `f`, each exactly once. -/
structure Buckets (f : ι → Option κ) (q : κ → List ι) : Prop where
  mem_iff : ∀ k i, i ∈ q k ↔ f i = some k
  nodup : ∀ k, (q k).Nodup

namespace Buckets

variable {f : ι → Option κ} {q : κ → List ι} {i : ι}

theorem not_mem (h : Buckets f q) (hi : f i = none) (k : κ) : i ∉ q k := by
  rw [h.mem_iff, hi]
  simp

/-- An item is in one bucket only. -/
theorem bucket_unique {k k' : κ} (h : Buckets f q) (hk : i ∈ q k) (hk' : i ∈ q k') : k = k' := by
  rw [h.mem_iff] at hk hk'
  rw [hk] at hk'
  exact Option.some.inj hk'

section Update

variable [DecidableEq ι] [DecidableEq κ]

/-- Put an item that was in no bucket into bucket `k`. -/
theorem insert {k : κ} {l : List ι} (h : Buckets f q) (hi : f i = none)
    (hl : l.Perm (i :: q k)) : Buckets (update f i (some k)) (update q k l) where
  mem_iff := by
    intro k' j
    by_cases hk : k' = k
    · subst hk
      rw [update_self, hl.mem_iff, mem_cons, h.mem_iff]
      by_cases hj : j = i
      · subst hj; simp
      · simp [hj]
    · rw [update_of_ne hk, h.mem_iff]
      by_cases hj : j = i
      · subst hj; simp [hi, Ne.symm hk]
      · simp [hj]
  nodup := by
    intro k'
    by_cases hk : k' = k
    · subst hk
      rw [update_self, hl.nodup_iff]
      exact nodup_cons.mpr ⟨h.not_mem hi _, h.nodup _⟩
    · rw [update_of_ne hk]
      exact h.nodup k'

/-- Take an item out of its bucket. -/
theorem erase {k : κ} {l : List ι} (h : Buckets f q) (hl : (q k).Perm (i :: l)) :
    Buckets (update f i none) (update q k l) := by
  have hnd : i ∉ l ∧ l.Nodup := nodup_cons.mp (hl.nodup_iff.mp (h.nodup k))
  have hfi : f i = some k := (h.mem_iff k i).mp (hl.mem_iff.mpr (by simp))
  refine ⟨?_, ?_⟩
  · intro k' j
    by_cases hj : j = i
    · subst hj
      by_cases hk : k' = k
      · subst hk; simpa using hnd.1
      · rw [update_of_ne hk, h.mem_iff, hfi]
        simp [Ne.symm hk]
    · rw [update_of_ne hj]
      by_cases hk : k' = k
      · subst hk
        rw [update_self, ← h.mem_iff, hl.mem_iff, mem_cons]
        simp [hj]
      · rw [update_of_ne hk, h.mem_iff]
  · intro k'
    by_cases hk : k' = k
    · subst hk
      rw [update_self]
      exact hnd.2
    · rw [update_of_ne hk]
      exact h.nodup k'

end Update

/-- No item is listed twice over a list of distinct buckets. -/
theorem nodup_flatMap {ks : List κ} (h : Buckets f q) (hks : ks.Nodup) : (ks.flatMap q).Nodup := by
  rw [List.nodup_flatMap]
  refine ⟨fun k _ => h.nodup k, hks.imp ?_⟩
  intro a b hab i hia hib
  exact hab (h.bucket_unique hia hib)

/-- An item that is in a bucket is listed exactly once over any list of distinct buckets that
includes its own. -/
theorem count_flatMap [DecidableEq ι] {k : κ} {ks : List κ} (h : Buckets f q)
    (hi : f i = some k) (hk : k ∈ ks) (hks : ks.Nodup) : (ks.flatMap q).count i = 1 := by
  apply count_eq_one_of_mem (h.nodup_flatMap hks)
  exact mem_flatMap.mpr ⟨k, hk, (h.mem_iff k i).mpr hi⟩

end Buckets

/-! ## Counting -/

/-- An item of two buckets is listed at least twice. -/
theorem two_le_count_flatMap [DecidableEq ι] {q : κ → List ι} {ks : List κ} {i : ι} {j k : κ}
    (hjk : j ≠ k) (hj : j ∈ ks) (hk : k ∈ ks) (hij : i ∈ q j) (hik : i ∈ q k) :
    2 ≤ (ks.flatMap q).count i := by
  have hone : ∀ {l : κ} {ls : List κ}, l ∈ ls → i ∈ q l → 1 ≤ (ls.flatMap q).count i :=
    fun hl hi => one_le_count_iff.mpr (mem_flatMap.mpr ⟨_, hl, hi⟩)
  induction ks with
  | nil => cases hj
  | cons a ks ih =>
    rw [flatMap_cons, count_append]
    rcases mem_cons.mp hj with rfl | hj'
    · have hk' := (mem_cons.mp hk).resolve_left hjk.symm
      have hhere : 1 ≤ (q j).count i := one_le_count_iff.mpr hij
      have hthere := hone hk' hik
      omega
    · rcases mem_cons.mp hk with rfl | hk'
      · have hhere : 1 ≤ (q k).count i := one_le_count_iff.mpr hik
        have hthere := hone hj' hij
        omega
      · have htwo := ih hj' hk'
        omega

theorem length_le_of_nodup {l : List Nat} {n : Nat} (hnd : l.Nodup) (hlt : ∀ j ∈ l, j < n) :
    l.length ≤ n := by
  have hsub : l ⊆ range n := fun j hj => mem_range.mpr (hlt j hj)
  have hle := (subperm_of_subset hnd hsub).length_le
  rw [length_range] at hle
  exact hle

/-- A list without repetitions below `n` that misses a number below `n` is shorter than `n`. -/
theorem length_lt_of_nodup_of_not_mem {l : List Nat} {n i : Nat} (hnd : l.Nodup)
    (hlt : ∀ j ∈ l, j < n) (hi : i < n) (hni : i ∉ l) : l.length < n := by
  have hnd' : (i :: l).Nodup := nodup_cons.mpr ⟨hni, hnd⟩
  have hlt' : ∀ j ∈ i :: l, j < n := by
    intro j hj
    rcases mem_cons.mp hj with rfl | hj
    · exact hi
    · exact hlt j hj
  exact length_le_of_nodup hnd' hlt'

end BeastOs.Lib
