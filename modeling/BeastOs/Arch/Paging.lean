import BeastOs.Lib.Alignment
import BeastOs.Word

/-!
# Page-table entries and addresses

`kernel/src/arch/paging.rs`: an entry packs a frame's address and flags into one word, and a virtual
address packs the four indices of its walk and an offset.
-/

namespace BeastOs

open BitVec

namespace Flags

def present : U64 := 1
def writable : U64 := 2
def user : U64 := 4
def hugePage : U64 := 0x80
def noExecute : U64 := 0x8000000000000000

/-- Bit 9, which the hardware ignores: the page is to be allocated at its first use. -/
def onDemand : U64 := 0x200

end Flags

namespace PageTableEntry

/-- Bits 12 to 51. -/
def addressMask : U64 := 0x000FFFFFFFFFF000

def isPresent (e : U64) : Bool := e &&& Flags.present ≠ 0

def setAddress (addr flags : U64) : U64 := (addr &&& addressMask) ||| (flags &&& ~~~addressMask)

def physicalAddress (e : U64) : U64 := e &&& addressMask

def flags (e : U64) : U64 := e &&& 0xFFF0000000000FFF

/-- The flag `b` is set. -/
def has (e b : U64) : Bool := flags e &&& b ≠ 0

variable {a b e f m : U64}

theorem flags_eq (e : U64) : flags e = e &&& ~~~addressMask := rfl

/-- Masking a word that was put together from two parts. -/
theorem or_and_not_and (a f m : U64) : ((a &&& m) ||| (f &&& ~~~m)) &&& m = a &&& m := by
  ext i hi
  simp only [getElem_and, getElem_or, getElem_not]
  cases a[i] <;> cases f[i] <;> cases m[i] <;> rfl

theorem or_and_not_and_not (a f m : U64) : ((a &&& m) ||| (f &&& ~~~m)) &&& ~~~m = f &&& ~~~m := by
  ext i hi
  simp only [getElem_and, getElem_or, getElem_not]
  cases a[i] <;> cases f[i] <;> cases m[i] <;> rfl

variable (addr f : U64)

theorem physicalAddress_setAddress :
    physicalAddress (setAddress addr f) = addr &&& addressMask :=
  or_and_not_and _ _ _

theorem flags_setAddress : flags (setAddress addr f) = f &&& ~~~addressMask :=
  or_and_not_and_not _ _ _

/-- Bits outside the address can be read from the flags. -/
theorem flags_and (e : U64) (hb : ~~~addressMask &&& b = b) : flags e &&& b = e &&& b := by
  rw [flags_eq, BitVec.and_assoc, hb]

theorem setAddress_and (hb : ~~~addressMask &&& b = b) : setAddress addr f &&& b = f &&& b := by
  rw [← flags_and _ hb, flags_setAddress, BitVec.and_assoc, hb]

@[simp] theorem isPresent_zero : isPresent 0 = false := by decide

@[simp] theorem isPresent_setAddress :
    isPresent (setAddress addr f) = decide (f &&& Flags.present ≠ 0) := by
  unfold isPresent
  rw [setAddress_and _ _ (by decide)]

theorem has_setAddress (hb : ~~~addressMask &&& b = b) :
    has (setAddress addr f) b = decide (f &&& b ≠ 0) := by
  unfold has
  rw [flags_and _ hb, setAddress_and _ _ hb]

end PageTableEntry

/-! ## Virtual addresses -/

namespace Paging

def pml4Index (virt : U64) : Nat := ((virt >>> 39) &&& 0x1FF).toNat

def pdptIndex (virt : U64) : Nat := ((virt >>> 30) &&& 0x1FF).toNat

def pdIndex (virt : U64) : Nat := ((virt >>> 21) &&& 0x1FF).toNat

def ptIndex (virt : U64) : Nat := ((virt >>> 12) &&& 0x1FF).toNat

/-- The page an address lies in. -/
def pageBase (virt : U64) : U64 := virt &&& ~~~0xFFF

variable (virt : U64)

theorem toNat_shift_and (n : Nat) : ((virt >>> n) &&& 0x1FF).toNat = virt.toNat / 2 ^ n % 512 := by
  rw [toNat_and, toNat_ushiftRight, Nat.shiftRight_eq_div_pow]
  exact Nat.and_two_pow_sub_one_eq_mod _ 9

theorem index_lt (n : Nat) : ((virt >>> n) &&& 0x1FF).toNat < 512 := by
  rw [toNat_shift_and]
  exact Nat.mod_lt _ (by decide)

theorem toNat_pageBase_add {o : Nat} (ho : o < 4096) :
    (pageBase virt + BitVec.ofNat 64 o).toNat = virt.toNat / 4096 * 4096 + o := by
  have hbase : (pageBase virt).toNat = virt.toNat / 4096 * 4096 :=
    Lib.toNat_and_not_mask virt 12
  rw [toNat_add, toNat_ofNat, hbase, Nat.add_mod_mod, Nat.mod_eq_of_lt]
  omega

/-- An address of a page has the indices of every other address of the page. -/
theorem index_pageBase_add {o n : Nat} (ho : o < 4096) (hn : 12 ≤ n) :
    (((pageBase virt + BitVec.ofNat 64 o) >>> n) &&& 0x1FF).toNat =
      ((virt >>> n) &&& 0x1FF).toNat := by
  have hpow : (2 : Nat) ^ n = 4096 * 2 ^ (n - 12) := by
    rw [show (4096 : Nat) = 2 ^ 12 from rfl, ← Nat.pow_add, Nat.add_sub_cancel' hn]
  have hdiv : (virt.toNat / 4096 * 4096 + o) / 4096 = virt.toNat / 4096 := by omega
  simp only [toNat_shift_and, toNat_pageBase_add virt ho, hpow, ← Nat.div_div_eq_div_mul, hdiv]

theorem offset_pageBase_add {o : Nat} (ho : o < 4096) :
    (pageBase virt + BitVec.ofNat 64 o) &&& 0xFFF = BitVec.ofNat 64 o := by
  apply eq_of_toNat_eq
  have hlt : o < 2 ^ 64 := Nat.lt_trans ho (by decide)
  rw [toNat_and, toNat_pageBase_add virt ho, toNat_ofNat, Nat.mod_eq_of_lt hlt]
  rw [show ((0xFFF : U64).toNat) = 2 ^ 12 - 1 from rfl, Nat.and_two_pow_sub_one_eq_mod]
  omega

end Paging

end BeastOs
