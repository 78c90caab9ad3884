import Mathlib.Data.Nat.ModEq
import Mathlib.Data.List.Basic
import Mathlib.Logic.Function.Basic

/-!
# Circular buffers

A deque kept in a fixed array of `cap` cells: `head` is the cell of the first element, `tail` the
cell after the last one, `len` the number of elements. The three indices are redundant, and the
structure carries the relation between them, so that a buffer whose `tail` does not match its
`head` and `len` cannot be built.

`toList` reads the contents off in order. Each operation has one lemma that says what it does to
`toList`; clients reason with these and never see an index.
-/

namespace BeastOs.Lib

open List

/-! ## Index arithmetic -/

/-- Two offsets less than one revolution apart denote different cells. -/
theorem add_mod_ne_add_mod {c h i j : Nat} (hij : i < j) (hj : j < i + c) :
    (h + i) % c ≠ (h + j) % c := by
  intro heq
  have hmod : h + i ≡ h + j [MOD c] := heq
  have hdvd : c ∣ (h + j) - (h + i) := (Nat.modEq_iff_dvd' (by omega)).mp hmod
  have hpos : 0 < (h + j) - (h + i) := by omega
  have hle := Nat.le_of_dvd hpos hdvd
  omega

/-- Stepping one cell back, with the wrap at zero, is adding `cap - 1`. -/
theorem pred_wrap_eq {c h : Nat} (hh : h < c) :
    (if h = 0 then c - 1 else h - 1) = (h + (c - 1)) % c := by
  split
  · next h0 =>
      subst h0
      rw [zero_add, Nat.mod_eq_of_lt (by omega)]
  · next h0 =>
      have hsum : h + (c - 1) = (h - 1) + c := by omega
      rw [hsum, Nat.add_mod_right, Nat.mod_eq_of_lt (by omega)]

/-! ## The structure -/

/-- A circular buffer of capacity `cap`. -/
structure CircularBuffer (α : Type) (cap : Nat) where
  buf : Fin cap → α
  head : Nat
  tail : Nat
  len : Nat
  head_lt : head < cap
  len_le : len ≤ cap
  tail_eq : tail = (head + len) % cap

namespace CircularBuffer

variable {α : Type} {cap : Nat} {b : CircularBuffer α cap}

theorem cap_pos (b : CircularBuffer α cap) : 0 < cap :=
  Nat.lt_of_le_of_lt (Nat.zero_le _) b.head_lt

theorem tail_lt (b : CircularBuffer α cap) : b.tail < cap := by
  rw [b.tail_eq]
  exact Nat.mod_lt _ b.cap_pos

/-- The empty buffer, every cell holding `fill`. -/
def empty (fill : α) (hcap : 0 < cap) : CircularBuffer α cap where
  buf := fun _ => fill
  head := 0
  tail := 0
  len := 0
  head_lt := hcap
  len_le := Nat.zero_le _
  tail_eq := by simp

/-- The element `i` places after the first one. -/
def cell (b : CircularBuffer α cap) (i : Nat) : α :=
  b.buf ⟨(b.head + i) % cap, Nat.mod_lt _ b.cap_pos⟩

/-- The contents, first element first. -/
def toList (b : CircularBuffer α cap) : List α := (List.range b.len).map b.cell

/-- Append at the end; a full buffer stays as it is. -/
def pushBack (b : CircularBuffer α cap) (x : α) : CircularBuffer α cap :=
  if h : b.len ≥ cap then b
  else
    { buf := Function.update b.buf ⟨b.tail, b.tail_lt⟩ x
      head := b.head
      tail := (b.tail + 1) % cap
      len := b.len + 1
      head_lt := b.head_lt
      len_le := by omega
      tail_eq := by rw [b.tail_eq, Nat.mod_add_mod, Nat.add_assoc] }

/-- Insert at the front; a full buffer stays as it is. -/
def pushFront (b : CircularBuffer α cap) (x : α) : CircularBuffer α cap :=
  if h : b.len ≥ cap then b
  else
    { buf := Function.update b.buf
        ⟨if b.head = 0 then cap - 1 else b.head - 1, by have := b.head_lt; split <;> omega⟩ x
      head := if b.head = 0 then cap - 1 else b.head - 1
      tail := b.tail
      len := b.len + 1
      head_lt := by have := b.head_lt; split <;> omega
      len_le := by omega
      tail_eq := by
        have hpos := b.cap_pos
        have hsum : b.head + (cap - 1) + (b.len + 1) = b.head + b.len + cap := by omega
        rw [pred_wrap_eq b.head_lt, Nat.mod_add_mod, hsum, Nat.add_mod_right, b.tail_eq] }

/-- A non-empty buffer with `head` moved past its first element. -/
def advance (b : CircularBuffer α cap) (h : b.len ≠ 0) : CircularBuffer α cap where
  buf := b.buf
  head := (b.head + 1) % cap
  tail := b.tail
  len := b.len - 1
  head_lt := Nat.mod_lt _ b.cap_pos
  len_le := by have := b.len_le; omega
  tail_eq := by
    have hsum : b.head + 1 + (b.len - 1) = b.head + b.len := by omega
    rw [Nat.mod_add_mod, hsum, b.tail_eq]

/-- Take the first element off. -/
def popFront (b : CircularBuffer α cap) : Option (α × CircularBuffer α cap) :=
  if h : b.len = 0 then none
  else some (b.buf ⟨b.head, b.head_lt⟩, b.advance h)

/-! ## What the operations do to the contents -/

@[simp] theorem length_toList (b : CircularBuffer α cap) : b.toList.length = b.len := by
  simp [toList]

/-- Appending to a buffer with room appends to the contents. -/
theorem toList_pushBack (x : α) (h : b.len < cap) : (b.pushBack x).toList = b.toList ++ [x] := by
  rw [pushBack, dif_neg (by omega)]
  simp only [toList, range_succ, map_append, map_cons, map_nil]
  congr 1
  · apply map_congr_left
    intro i hi
    have hilt : i < b.len := mem_range.mp hi
    have hne : (b.head + i) % cap ≠ b.tail := by
      rw [b.tail_eq]
      exact add_mod_ne_add_mod hilt (by omega)
    simp [cell, Function.update_of_ne, hne]
  · simp [cell, b.tail_eq]

/-- Inserting in front of a buffer with room puts the element before the contents. -/
theorem toList_pushFront (x : α) (h : b.len < cap) : (b.pushFront x).toList = x :: b.toList := by
  have hpos := b.cap_pos
  rw [pushFront, dif_neg (by omega)]
  simp only [toList, range_succ_eq_map, map_cons, map_map]
  congr 1
  · have hlt : (if b.head = 0 then cap - 1 else b.head - 1) < cap := by
      have := b.head_lt
      split <;> omega
    simp [cell, Nat.mod_eq_of_lt hlt]
  · apply map_congr_left
    intro i hi
    have hilt : i < b.len := mem_range.mp hi
    -- relative to the new head, the old element `i` is element `i + 1`
    have hidx : ((if b.head = 0 then cap - 1 else b.head - 1) + (i + 1)) % cap
        = (b.head + i) % cap := by
      have hsum : b.head + (cap - 1) + (i + 1) = b.head + i + cap := by omega
      rw [pred_wrap_eq b.head_lt, Nat.mod_add_mod, hsum, Nat.add_mod_right]
    have hne : (b.head + i) % cap ≠ (if b.head = 0 then cap - 1 else b.head - 1) := by
      rw [pred_wrap_eq b.head_lt]
      exact add_mod_ne_add_mod (by omega) (by omega)
    simp [cell, hidx, hne]

theorem pushBack_full (x : α) (h : ¬ b.len < cap) : b.pushBack x = b :=
  dif_pos (by omega)

theorem pushFront_full (x : α) (h : ¬ b.len < cap) : b.pushFront x = b :=
  dif_pos (by omega)

/-- Popping an empty buffer yields nothing. -/
theorem popFront_eq_none (h : b.toList = []) : b.popFront = none := by
  have hlen : b.len = 0 := by rw [← b.length_toList, h]; rfl
  rw [popFront, dif_pos hlen]

/-- Popping splits the contents into the first element and the rest. -/
theorem popFront_eq_some {x : α} {xs : List α} (h : b.toList = x :: xs) :
    ∃ b', b.popFront = some (x, b') ∧ b'.toList = xs := by
  have hlen : b.len = xs.length + 1 := by rw [← b.length_toList, h]; rfl
  have hsplit : b.toList = b.cell 0 :: (range xs.length).map (fun i => b.cell (i + 1)) := by
    rw [toList, hlen, range_succ_eq_map, map_cons, map_map]
    rfl
  rw [h] at hsplit
  obtain ⟨hx, hxs⟩ := cons.inj hsplit
  have hne : b.len ≠ 0 := by omega
  refine ⟨b.advance hne, ?_, ?_⟩
  · rw [popFront, dif_neg hne, hx]
    simp [cell, Nat.mod_eq_of_lt b.head_lt]
  · rw [hxs]
    simp only [toList, advance, hlen, Nat.add_sub_cancel]
    apply map_congr_left
    intro i _
    have hidx : ((b.head + 1) % cap + i) % cap = (b.head + (i + 1)) % cap := by
      rw [Nat.mod_add_mod, add_assoc, add_comm 1 i]
    simp [cell, hidx]

end CircularBuffer

end BeastOs.Lib
