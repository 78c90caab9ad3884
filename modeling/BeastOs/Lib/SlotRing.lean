import BeastOs.Lib.WrappingIndex

/-!
# Rings with free-running indices

A producer and a consumer share an array. Both count up for ever in `w`-bit words; `slot` says which
cell of the array an index means. The unread values are those in the cells from the consumer's index
`head` up to the producer's index `tail`.

The ring is a queue as long as the unread indices have different cells (`unread_push`).
-/

namespace BeastOs.Lib

variable {α : Type} {w cap : Nat} {slot : BitVec w → Nat} {buffer : Nat → α} {head tail : BitVec w}

theorem window_succ (c : BitVec w) (n : Nat) :
    window c (n + 1) = window c n ++ [c + BitVec.ofNat w n] := by
  simp only [window_eq_map, List.range_succ, List.map_append]
  rfl

/-- The values in the cells of the indices from `head` up to `tail`. -/
def unread (slot : BitVec w → Nat) (buffer : Nat → α) (head tail : BitVec w) : List α :=
  (window head (tail - head).toNat).map fun i => buffer (slot i)

/-- Any `cap` indices in a row have different cells. -/
def DistinctSlots (slot : BitVec w → Nat) (cap : Nat) : Prop :=
  ∀ (c : BitVec w) (i j : Nat), i < j → j < cap →
    slot (c + BitVec.ofNat w i) ≠ slot (c + BitVec.ofNat w j)

@[simp] theorem unread_self (slot : BitVec w → Nat) (buffer : Nat → α) (c : BitVec w) :
    unread slot buffer c c = [] := by
  unfold unread
  rw [BitVec.sub_self]
  rfl

/-- The producer's index in terms of the consumer's. -/
theorem eq_add_distance (head tail : BitVec w) :
    tail = head + BitVec.ofNat w (tail - head).toNat := by
  rw [BitVec.ofNat_toNat, BitVec.setWidth_eq, add_sub_cancel]

theorem distance_ne_zero (h : head ≠ tail) : (tail - head).toNat ≠ 0 := by
  intro hzero
  have hsub : tail - head = 0 := BitVec.eq_of_toNat_eq hzero
  exact h (sub_eq_zero.mp hsub).symm

/-- A value is taken: the distance of the indices goes down by one. -/
theorem distance_of_ne (h : head ≠ tail) : (tail - head).toNat = (tail - (head + 1)).toNat + 1 := by
  have hpos := distance_ne_zero h
  have hlt := (tail - head).isLt
  have hnext : (tail - (head + 1)).toNat = (tail - head).toNat - 1 := by
    nth_rewrite 1 [eq_add_distance head tail]
    exact toNat_sub_index head (i := 1) (by omega) (by omega)
  omega

/-- A value is put: the distance of the indices goes up by one. -/
theorem distance_succ (h : (tail - head).toNat + 1 < 2 ^ w) :
    (tail + 1 - head).toNat = (tail - head).toNat + 1 := by
  have hnext : tail + 1 = head + BitVec.ofNat w ((tail - head).toNat + 1) := by
    rw [BitVec.ofNat_add, ← add_assoc, ← eq_add_distance]
    rfl
  have hdist := toNat_sub_index head (Nat.zero_le ((tail - head).toNat + 1)) h
  rw [hnext]
  rwa [BitVec.add_zero] at hdist

/-- The consumer takes the value at its index. -/
theorem unread_eq_cons (h : head ≠ tail) : unread slot buffer head tail =
    buffer (slot head) :: unread slot buffer (head + 1) tail := by
  unfold unread
  rw [distance_of_ne h]
  rfl

/-- The producer appends a value, since it overwrites no unread one. -/
theorem unread_push (hslots : DistinctSlots slot cap) (hcap : cap < 2 ^ w)
    (hroom : (tail - head).toNat < cap) (value : α) :
    unread slot (Function.update buffer (slot tail) value) head (tail + 1) =
      unread slot buffer head tail ++ [value] := by
  unfold unread
  rw [distance_succ (by omega), window_succ, List.map_append, ← eq_add_distance, List.map_singleton,
    Function.update_self]
  congr 1
  apply List.map_congr_left
  intro i hi
  rw [window_eq_map, List.mem_map] at hi
  obtain ⟨n, hn, rfl⟩ := hi
  have hne := hslots head n _ (List.mem_range.mp hn) hroom
  rw [← eq_add_distance] at hne
  exact Function.update_of_ne hne _ _

theorem distinctSlots_maskIndex {k : Nat} (hk : k ≤ w) :
    DistinctSlots (maskIndex (w := w) k) (2 ^ k) := by
  intro c i j hij hj
  exact maskIndex_ne hk c hij (by omega)

end BeastOs.Lib
