import Mathlib.Data.BitVec

/-!
# UTF-16

A character below `U+10000` is one unit, any other a pair of surrogates. `decodeUtf16` is
`String::from_utf16_lossy`: a surrogate that is not part of a pair becomes `U+FFFD`. What has been
encoded is read back.

Main result: `fromUtf16Lossy_utf16`.
-/

namespace BeastOs.Lib

abbrev Unit16 := BitVec 16

def encodeUtf16Char (c : Char) : List Unit16 :=
  if c.toNat < 0x10000 then [BitVec.ofNat 16 c.toNat]
  else
    let v := c.toNat - 0x10000
    [BitVec.ofNat 16 (0xD800 + v / 0x400), BitVec.ofNat 16 (0xDC00 + v % 0x400)]

def utf16 (s : String) : List Unit16 := s.toList.flatMap encodeUtf16Char

def replacementCharacter : Char := '\ufffd'

def decodeUtf16Units : List Unit16 → List Char
  | [] => []
  | u :: rest =>
    if u.toNat < 0xD800 ∨ 0xDFFF < u.toNat then Char.ofNat u.toNat :: decodeUtf16Units rest
    else if 0xDC00 ≤ u.toNat then replacementCharacter :: decodeUtf16Units rest
    else
      match rest with
      | [] => [replacementCharacter]
      | u' :: rest' =>
        if u'.toNat < 0xDC00 ∨ 0xDFFF < u'.toNat then
          replacementCharacter :: decodeUtf16Units (u' :: rest')
        else
          Char.ofNat ((u.toNat - 0xD800) * 0x400 + (u'.toNat - 0xDC00) + 0x10000) ::
            decodeUtf16Units rest'

/-- `String::from_utf16_lossy` -/
def fromUtf16Lossy (units : List Unit16) : String := String.ofList (decodeUtf16Units units)

/-- A character is not a surrogate. -/
theorem toNat_char (c : Char) : c.toNat < 0xD800 ∨ (0xDFFF < c.toNat ∧ c.toNat < 0x110000) :=
  c.valid

theorem decodeUtf16Units_encodeUtf16Char (c : Char) (rest : List Unit16) :
    decodeUtf16Units (encodeUtf16Char c ++ rest) = c :: decodeUtf16Units rest := by
  have hchar := toNat_char c
  unfold encodeUtf16Char
  split
  next hlt =>
    have hunit : (BitVec.ofNat 16 c.toNat).toNat = c.toNat := by
      rw [BitVec.toNat_ofNat, Nat.mod_eq_of_lt hlt]
    rw [List.singleton_append, decodeUtf16Units.eq_def]
    dsimp only
    rw [hunit, if_pos (by omega), Char.ofNat_toNat]
  next hge =>
    have hhigh : (BitVec.ofNat 16 (0xD800 + (c.toNat - 0x10000) / 0x400)).toNat =
        0xD800 + (c.toNat - 0x10000) / 0x400 := by
      rw [BitVec.toNat_ofNat, Nat.mod_eq_of_lt (by omega)]
    have hlow : (BitVec.ofNat 16 (0xDC00 + (c.toNat - 0x10000) % 0x400)).toNat =
        0xDC00 + (c.toNat - 0x10000) % 0x400 := by
      rw [BitVec.toNat_ofNat, Nat.mod_eq_of_lt (by omega)]
    have hvalue : (0xD800 + (c.toNat - 0x10000) / 0x400 - 0xD800) * 0x400 +
        (0xDC00 + (c.toNat - 0x10000) % 0x400 - 0xDC00) + 0x10000 = c.toNat := by omega
    rw [List.cons_append, List.singleton_append, decodeUtf16Units, hhigh, if_neg (by omega),
      if_neg (by omega), hlow, if_neg (by omega), hvalue, Char.ofNat_toNat]

/-- **Text is read back from its units.** -/
theorem fromUtf16Lossy_utf16 (s : String) : fromUtf16Lossy (utf16 s) = s := by
  have hlist : ∀ cs : List Char, decodeUtf16Units (cs.flatMap encodeUtf16Char) = cs := by
    intro cs
    induction cs with
    | nil => rfl
    | cons c cs ih => rw [List.flatMap_cons, decodeUtf16Units_encodeUtf16Char, ih]
  rw [fromUtf16Lossy, utf16, hlist, String.ofList_toList]

/-- Only NUL is encoded with a zero. -/
theorem zero_not_mem_utf16 {s : String} (hs : '\x00' ∉ s.toList) : 0 ∉ utf16 s := by
  intro hzero
  obtain ⟨c, hc, hunit⟩ := List.mem_flatMap.mp hzero
  have hchar := toNat_char c
  have hne : c.toNat ≠ 0 := fun h => hs ((Char.toNat_inj (d := '\x00')).mp h ▸ hc)
  unfold encodeUtf16Char at hunit
  split at hunit
  next hlt =>
    have heq := congrArg BitVec.toNat (List.mem_singleton.mp hunit)
    rw [BitVec.toNat_ofNat, Nat.mod_eq_of_lt hlt] at heq
    exact hne heq.symm
  · rw [List.mem_cons, List.mem_singleton] at hunit
    rcases hunit with heq | heq
    all_goals
      have hvalue := congrArg BitVec.toNat heq
      rw [BitVec.toNat_ofNat, Nat.mod_eq_of_lt (by omega)] at hvalue
      have hzero : (0 : Unit16).toNat = 0 := rfl
      omega

end BeastOs.Lib
