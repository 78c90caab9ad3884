import Mathlib.Algebra.BigOperators.Group.List.Basic
import Mathlib.Data.List.DropRight
import Mathlib.Data.Nat.Digits.Defs
import Mathlib.Data.Nat.Digits.Lemmas

/-!
# Text in bytes

The parts of Rust's `str` that a reader of text fields uses: UTF-8 (`utf8`, `fromUtf8`), removing
characters at the ends (`trimMatches`), and numbers in a radix of at most ten (`fromStrRadix`, whose
result is an unsigned integer below `bound`).

Each is read back: a text from its bytes, a field without its blanks, a number from its digits.
-/

namespace BeastOs.Lib

open List

/-! ## UTF-8 -/

/-- The bytes of a text. -/
def utf8 (s : String) : List (BitVec 8) := s.toByteArray.data.toList.map UInt8.toBitVec

/-- `str::from_utf8` -/
def fromUtf8 (bytes : List (BitVec 8)) : Option String :=
  String.fromUTF8? ⟨(bytes.map UInt8.ofBitVec).toArray⟩

@[simp] theorem fromUtf8_utf8 (s : String) : fromUtf8 (utf8 s) = some s := by
  have hbytes : (utf8 s).map UInt8.ofBitVec = s.toByteArray.data.toList := by
    rw [utf8, map_map]
    exact map_id _
  rw [fromUtf8, hbytes]
  exact dif_pos s.isValidUTF8

/-- A text that is read from bytes has these bytes. -/
theorem utf8_of_fromUtf8 {bytes : List (BitVec 8)} {s : String} (h : fromUtf8 bytes = some s) :
    utf8 s = bytes := by
  unfold fromUtf8 String.fromUTF8? at h
  split at h
  next hvalid =>
    obtain rfl := Option.some.inj h
    have hbytes : utf8 (String.fromUTF8 ⟨(bytes.map UInt8.ofBitVec).toArray⟩ hvalid) =
        (bytes.map UInt8.ofBitVec).map UInt8.toBitVec := rfl
    rw [hbytes, map_map]
    exact map_id _
  · cases h

/-- The bytes of characters of ASCII are their codes. -/
def asciiBytes (s : List Char) : List (BitVec 8) := s.map fun c => BitVec.ofNat 8 c.toNat

@[simp] theorem length_asciiBytes (s : List Char) : (asciiBytes s).length = s.length :=
  length_map _

theorem utf8_ofList (s : List Char) :
    utf8 (String.ofList s) = (s.flatMap String.utf8EncodeChar).map UInt8.toBitVec := by
  simp [utf8, utf8Encode]

theorem utf8_ofList_ascii {s : List Char} (hascii : ∀ c ∈ s, c.toNat < 128) :
    utf8 (String.ofList s) = asciiBytes s := by
  rw [utf8_ofList]
  induction s with
  | nil => rfl
  | cons c s ih =>
    rw [forall_mem_cons] at hascii
    have hchar : String.utf8EncodeChar c = [UInt8.ofNat c.toNat] :=
      if_pos (Nat.le_of_lt_succ hascii.1)
    rw [flatMap_cons, map_append, ih hascii.2, hchar]
    rfl

theorem fromUtf8_asciiBytes {s : List Char} (hascii : ∀ c ∈ s, c.toNat < 128) :
    fromUtf8 (asciiBytes s) = some (String.ofList s) := by
  rw [← utf8_ofList_ascii hascii, fromUtf8_utf8]

/-- A character takes a byte at least. -/
theorem length_le_utf8 (s : String) : s.toList.length ≤ (utf8 s).length := by
  have hs := utf8_ofList s.toList
  rw [String.ofList_toList] at hs
  rw [hs, length_map, length_flatMap]
  have hone := length_le_sum_of_one_le
    (s.toList.map fun c => (String.utf8EncodeChar c).length) (by
      intro n hn
      obtain ⟨c, -, rfl⟩ := mem_map.mp hn
      rw [String.length_utf8EncodeChar]
      exact c.utf8Size_pos)
  rwa [length_map] at hone

/-! ## Blanks -/

/-- `trim_start_matches` -/
def trimStartMatches (p : Char → Bool) (s : String) : String := String.ofList (s.toList.dropWhile p)

/-- `trim_matches` -/
def trimMatches (p : Char → Bool) (s : String) : String :=
  String.ofList ((s.toList.dropWhile p).rdropWhile p)

/-- `trim_end_matches` -/
def trimEndMatches (p : Char → Bool) (s : String) : String := String.ofList (s.toList.rdropWhile p)

/-- `char::is_whitespace` -/
def isWhitespace (c : Char) : Bool :=
  (0x09 ≤ c.toNat && c.toNat ≤ 0x0D) || c.toNat == 0x20 || c.toNat == 0x85 || c.toNat == 0xA0 ||
    c.toNat == 0x1680 || (0x2000 ≤ c.toNat && c.toNat ≤ 0x200A) || c.toNat == 0x2028 ||
    c.toNat == 0x2029 || c.toNat == 0x202F || c.toNat == 0x205F || c.toNat == 0x3000

/-- `trim_end` -/
def trimEnd (s : String) : String := trimEndMatches isWhitespace s

variable {p : Char → Bool} {lead rest : List Char} {radix bound : Nat} {digits : List Nat}

/-- There is nothing to remove at the end. -/
theorem trimEndMatches_of_last {s : String} (hlast : ∀ c ∈ s.toList.getLast?, ¬ p c) :
    trimEndMatches p s = s := by
  have hsame : s.toList.rdropWhile p = s.toList := by
    rw [rdropWhile_eq_self_iff]
    intro hne
    exact hlast _ (getLast?_eq_some_getLast hne)
  rw [trimEndMatches, hsame, String.ofList_toList]

theorem dropWhile_append_of_all (hlead : ∀ c ∈ lead, p c)
    (hrest : ∀ c ∈ rest.head?, ¬ p c) : (lead ++ rest).dropWhile p = rest := by
  rw [dropWhile_append_of_pos hlead]
  cases rest with
  | nil => rfl
  | cons c rest => exact dropWhile_cons_of_neg (hrest c rfl)

theorem trimStartMatches_append (hlead : ∀ c ∈ lead, p c)
    (hrest : ∀ c ∈ rest.head?, ¬ p c) :
    trimStartMatches p (String.ofList (lead ++ rest)) = String.ofList rest := by
  rw [trimStartMatches, String.toList_ofList, dropWhile_append_of_all hlead hrest]

/-- What stands between blanks. -/
theorem trimMatches_append {lead mid trail : List Char} (hlead : ∀ c ∈ lead, p c)
    (hmid : ∀ c ∈ mid, ¬ p c) (hne : mid ≠ []) (htrail : ∀ c ∈ trail, p c) :
    trimMatches p (String.ofList (lead ++ (mid ++ trail))) = String.ofList mid := by
  have hstart : ∀ c ∈ (mid ++ trail).head?, ¬ p c := by
    rw [head?_append_of_ne_nil _ hne]
    exact fun c hc => hmid c (mem_of_mem_head? hc)
  have hend : ∀ c ∈ mid.reverse.head?, ¬ p c := by
    exact fun c hc => hmid c (mem_reverse.mp (mem_of_mem_head? hc))
  rw [trimMatches, String.toList_ofList, dropWhile_append_of_all hlead hstart, rdropWhile,
    reverse_append, dropWhile_append_of_all _ hend, reverse_reverse]
  exact fun c hc => htrail c (mem_reverse.mp hc)

theorem length_trimMatches_le (p : Char → Bool) (s : String) :
    (trimMatches p s).toList.length ≤ s.toList.length := by
  rw [trimMatches, String.toList_ofList]
  exact ((List.rdropWhile_prefix p _).length_le).trans (dropWhile_suffix p).length_le

/-! ## Numbers -/

/-- The value of a digit in a radix of at most ten. -/
def toDigit (radix : Nat) (c : Char) : Option Nat :=
  if '0' ≤ c ∧ c.toNat < 48 + radix then some (c.toNat - 48) else none

/-- The number that the digits continue; none if it gets too large. -/
def parseDigits (radix bound : Nat) : (acc : Nat) → List Char → Option Nat
  | acc, [] => some acc
  | acc, c :: cs =>
    match toDigit radix c with
    | none => none
    | some d =>
      if acc * radix + d < bound then parseDigits radix bound (acc * radix + d) cs else none

/-- `from_str_radix`: there may be a sign before the digits. -/
def fromStrRadix (radix bound : Nat) : List Char → Option Nat
  | [] => none
  | ['+'] => none
  | '+' :: cs => parseDigits radix bound 0 cs
  | cs => parseDigits radix bound 0 cs

theorem toDigit_lt {radix d : Nat} {c : Char} (h : toDigit radix c = some d) : d < radix := by
  unfold toDigit at h
  split at h
  next hc =>
    obtain rfl := Option.some.inj h
    have hzero : 48 ≤ c.toNat := hc.1
    omega
  · cases h

/-- A number has as many digits as it needs. -/
theorem parseDigits_lt {radix bound acc n : Nat} {cs : List Char}
    (h : parseDigits radix bound acc cs = some n) : n < (acc + 1) * radix ^ cs.length := by
  induction cs generalizing acc with
  | nil =>
    obtain rfl := Option.some.inj h
    simp
  | cons c cs ih =>
    rw [parseDigits] at h
    split at h
    · cases h
    next d hd =>
      split at h
      · refine (ih h).trans_le ?_
        have hle : acc * radix + d + 1 ≤ (acc + 1) * radix := by
          rw [Nat.add_mul, Nat.one_mul]
          exact Nat.add_le_add_left (toDigit_lt hd) _
        rw [length_cons, Nat.pow_succ', ← Nat.mul_assoc]
        exact Nat.mul_le_mul_right _ hle
      · cases h

theorem fromStrRadix_lt {radix bound n : Nat} (hradix : 0 < radix) {cs : List Char}
    (h : fromStrRadix radix bound cs = some n) : n < radix ^ cs.length := by
  unfold fromStrRadix at h
  split at h
  · cases h
  · cases h
  · have hlt := parseDigits_lt h
    rw [zero_add, one_mul] at hlt
    refine hlt.trans_le (Nat.pow_le_pow_right hradix ?_)
    exact Nat.le_succ _
  · have hlt := parseDigits_lt h
    rwa [zero_add, one_mul] at hlt

def digitChar (d : Nat) : Char := Char.ofNat (48 + d)

theorem toNat_digitChar {d : Nat} (hd : d < 10) : (digitChar d).toNat = 48 + d := by
  interval_cases d <;> rfl

theorem toDigit_digitChar {radix d : Nat} (hradix : radix ≤ 10) (hd : d < radix) :
    toDigit radix (digitChar d) = some d := by
  have hd' : d < 10 := lt_of_lt_of_le hd hradix
  rw [toDigit, toNat_digitChar hd', if_pos, Nat.add_sub_cancel_left]
  refine ⟨?_, by omega⟩
  interval_cases d <;> decide

/-- The digits of a number, the most significant first. -/
theorem parseDigits_digits (hradix : radix ≤ 10)
    (hdigits : ∀ d ∈ digits, d < radix) (acc : Nat)
    (hbound : acc * radix ^ digits.length + Nat.ofDigits radix digits.reverse < bound) :
    parseDigits radix bound acc (digits.map digitChar) =
      some (acc * radix ^ digits.length + Nat.ofDigits radix digits.reverse) := by
  induction digits generalizing acc with
  | nil => simp [parseDigits]
  | cons d digits ih =>
    rw [forall_mem_cons] at hdigits
    have hvalue : acc * radix ^ (d :: digits).length + Nat.ofDigits radix (d :: digits).reverse =
        (acc * radix + d) * radix ^ digits.length + Nat.ofDigits radix digits.reverse := by
      rw [reverse_cons, Nat.ofDigits_append, Nat.ofDigits_singleton, length_reverse, length_cons]
      ring
    rw [hvalue] at hbound ⊢
    have hstep : acc * radix + d < bound := by
      refine lt_of_le_of_lt ?_ hbound
      have hpow : 1 ≤ radix ^ digits.length := Nat.one_le_pow _ _ (Nat.zero_lt_of_lt hdigits.1)
      calc acc * radix + d = (acc * radix + d) * 1 := (mul_one _).symm
        _ ≤ (acc * radix + d) * radix ^ digits.length := Nat.mul_le_mul_left _ hpow
        _ ≤ _ := Nat.le_add_right _ _
    rw [map_cons, parseDigits, toDigit_digitChar hradix hdigits.1]
    dsimp only
    rw [if_pos hstep]
    exact ih hdigits.2 _ hbound

/-- A number is read from its digits. -/
theorem fromStrRadix_digits (hradix : radix ≤ 10)
    (hdigits : ∀ d ∈ digits, d < radix) (hne : digits ≠ [])
    (hbound : Nat.ofDigits radix digits.reverse < bound) :
    fromStrRadix radix bound (digits.map digitChar) = some (Nat.ofDigits radix digits.reverse) := by
  have hparse := parseDigits_digits hradix hdigits 0 (by rwa [zero_mul, zero_add])
  rw [zero_mul, zero_add] at hparse
  cases digits with
  | nil => exact absurd rfl hne
  | cons d digits =>
    have hd : d < 10 := lt_of_lt_of_le (hdigits d mem_cons_self) hradix
    have hsign : digitChar d ≠ '+' := by interval_cases d <;> decide
    unfold fromStrRadix
    split
    next h => cases h
    next h => exact absurd (cons.inj h).1 hsign
    next h => exact absurd (cons.inj h).1 hsign
    · exact hparse

end BeastOs.Lib
