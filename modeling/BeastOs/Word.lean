import Mathlib.Data.BitVec

/-!
# Machine words

The kernel's integers as bit vectors: arithmetic wraps, as in a release build.
-/

namespace BeastOs

/-- A machine word, also for `usize` and `i64`. -/
abbrev U64 := BitVec 64

abbrev U32 := BitVec 32

abbrev U8 := BitVec 8

/-- The `count` low bytes of a word, lowest first. -/
def leBytes {n : Nat} (x : BitVec n) (count : Nat) : List U8 :=
  (List.range count).map fun i => (x >>> (8 * i)).setWidth 8

end BeastOs
