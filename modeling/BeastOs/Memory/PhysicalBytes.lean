import BeastOs.Memory.PageTables

/-!
# Bytes of physical memory

Physical memory is given by the words of its pages; the kernel also reads and writes single bytes
of it through the direct map, at any address. A byte is found by its page, its word in the page and
its place in the word, and these determine its address (`address_ext`).

Whether a store changes a given word can be told byte by byte (`writeBytes_eq_iff`).
-/

namespace BeastOs

open BitVec

/-! ## Bytes of a word -/

namespace Word

def byte (w : U64) (k : Nat) : U8 := (w >>> (8 * k)).setWidth 8

def setByte (w : U64) (k : Nat) (b : U8) : U64 :=
  (w &&& ~~~((0xFF : U64) <<< (8 * k))) ||| (b.setWidth 64 <<< (8 * k))

/-- A word with the same byte everywhere. -/
def repeatByte (b : U8) : U64 := b.setWidth 64 * 0x0101010101010101

/-- The bytes of a word in memory, the lowest first. -/
def toBytes (w : U64) : List U8 := (List.range 8).map (byte w)

variable {w w' : U64} {k j : Nat}

theorem getLsbD_byte (w : U64) (k : Nat) {i : Nat} (hi : i < 8) :
    (byte w k).getLsbD i = w.getLsbD (8 * k + i) := by
  unfold byte
  simp [hi]

theorem getLsbD_mask (n : Nat) : (0xFF : U64).getLsbD n = decide (n < 8) := by
  show (BitVec.ofNat 64 (2 ^ 8 - 1)).getLsbD n = _
  rw [getLsbD_ofNat, Nat.testBit_two_pow_sub_one]
  by_cases hn : n < 8
  · simp [hn, lt_trans hn]
  · simp [hn]

/-- The bits of the word after a byte of it has been replaced. -/
theorem getLsbD_setByte (b : U8) {n : Nat} (hn : n < 64) : (setByte w k b).getLsbD n =
    if 8 * k ≤ n ∧ n < 8 * k + 8 then b.getLsbD (n - 8 * k) else w.getLsbD n := by
  unfold setByte
  simp only [getLsbD_or, getLsbD_and, getLsbD_not, getLsbD_shiftLeft,
    getLsbD_setWidth, getLsbD_mask]
  by_cases hlow : n < 8 * k
  · have hout : ¬ (8 * k ≤ n ∧ n < 8 * k + 8) := by omega
    simp [hn, hlow, hout]
  · by_cases hhigh : n < 8 * k + 8
    · have hin : 8 * k ≤ n ∧ n < 8 * k + 8 := ⟨not_lt.mp hlow, hhigh⟩
      have hsub : n - 8 * k < 8 := by omega
      have hsub' : n - 8 * k < 64 := by omega
      rw [if_pos hin]
      simp [hn, hlow, hsub, hsub']
    · have hout : ¬ (8 * k ≤ n ∧ n < 8 * k + 8) := fun h => hhigh h.2
      have hsub : 8 ≤ n - 8 * k := by omega
      rw [if_neg hout]
      simp [hn, hlow, not_lt.mpr hsub, getLsbD_of_ge b _ hsub]

theorem byte_setByte (hk : k < 8) (b : U8) : byte (setByte w k b) k = b := by
  refine eq_of_getLsbD_eq fun i hi => ?_
  rw [getLsbD_byte _ _ hi, getLsbD_setByte b (by omega), if_pos ⟨by omega, by omega⟩,
    Nat.add_sub_cancel_left]

theorem byte_setByte_of_ne (hj : j < 8) (hjk : j ≠ k) (b : U8) :
    byte (setByte w k b) j = byte w j := by
  refine eq_of_getLsbD_eq fun i hi => ?_
  rw [getLsbD_byte _ _ hi, getLsbD_byte _ _ hi, getLsbD_setByte b (by omega), if_neg (by omega)]

/-- A word is determined by its bytes. -/
theorem ext_byte (h : ∀ k < 8, byte w k = byte w' k) : w = w' := by
  refine eq_of_getLsbD_eq fun i hi => ?_
  have hbyte : (byte w (i / 8)).getLsbD (i % 8) = (byte w' (i / 8)).getLsbD (i % 8) := by
    rw [h (i / 8) (by omega)]
  rw [getLsbD_byte _ _ (by omega), getLsbD_byte _ _ (by omega), Nat.div_add_mod] at hbyte
  exact hbyte

end Word

/-! ## Reading numbers -/

/-- The number of `n` bytes, the lowest first. -/
def readLe (peek : U64 → U8) (address : U64) : Nat → Nat
  | 0 => 0
  | n + 1 => (peek address).toNat + 256 * readLe peek (address + 1) n

def readU16 (peek : U64 → U8) (address : U64) : BitVec 16 := BitVec.ofNat 16 (readLe peek address 2)

def readU32 (peek : U64 → U8) (address : U64) : U32 := BitVec.ofNat 32 (readLe peek address 4)

def readU64 (peek : U64 → U8) (address : U64) : U64 := BitVec.ofNat 64 (readLe peek address 8)

/-- Addresses one after the other. -/
theorem add_succ (address : U64) (k : Nat) :
    address + 1 + BitVec.ofNat 64 k = address + BitVec.ofNat 64 (k + 1) := by
  rw [BitVec.add_assoc, add_comm k 1, ofNat_add]
  rfl

/-- A number depends on its bytes only. -/
theorem readLe_congr {peek peek' : U64 → U8} {address address' : U64} {n : Nat}
    (h : ∀ k < n, peek (address + BitVec.ofNat 64 k) = peek' (address' + BitVec.ofNat 64 k)) :
    readLe peek address n = readLe peek' address' n := by
  induction n generalizing address address' with
  | zero => rfl
  | succ n ih =>
    have hfirst := h 0 (Nat.succ_pos n)
    simp only [BitVec.add_zero] at hfirst
    rw [readLe, readLe, hfirst, ih fun k hk => ?_]
    rw [add_succ, add_succ]
    exact h (k + 1) (Nat.succ_lt_succ hk)

/-- `n` bytes in a row. -/
def readBytes (peek : U64 → U8) (address : U64) (n : Nat) : List U8 :=
  (List.range n).map fun k => peek (address + BitVec.ofNat 64 k)

/-! ## Bytes in memory -/

namespace Vmm

open Paging Word

/-- The word of its page that a byte is in. -/
def wordIndex (phys : U64) : Nat := phys.toNat % 4096 / 8

def byteIndex (phys : U64) : Nat := phys.toNat % 8

def readByte (σ : Machine) (phys : U64) : U8 :=
  byte (σ.mem (pageBase phys) (wordIndex phys)) (byteIndex phys)

def writeByte (σ : Machine) (phys : U64) (b : U8) : Machine :=
  write σ (pageBase phys) (wordIndex phys)
    (setByte (σ.mem (pageBase phys) (wordIndex phys)) (byteIndex phys) b)

def writeBytes (σ : Machine) (phys : U64) : List U8 → Machine
  | [] => σ
  | b :: bs => writeBytes (writeByte σ phys b) (phys + 1) bs

variable {σ : Machine} {phys phys' t : U64} {i j k : Nat} {b : U8} {bs : List U8}

theorem byteIndex_lt (phys : U64) : byteIndex phys < 8 := Nat.mod_lt _ (by decide)

theorem toNat_pageBase (phys : U64) : (pageBase phys).toNat = phys.toNat / 4096 * 4096 :=
  Lib.toNat_and_not_mask phys 12

/-- Where a byte is determines its address. -/
theorem address_ext (hpage : pageBase phys = pageBase phys')
    (hword : wordIndex phys = wordIndex phys') (hbyte : byteIndex phys = byteIndex phys') :
    phys = phys' := by
  have hpage' := congrArg BitVec.toNat hpage
  simp only [toNat_pageBase] at hpage'
  unfold wordIndex at hword
  unfold byteIndex at hbyte
  apply eq_of_toNat_eq
  omega

/-- The byte at `phys` is byte `j` of word `i` of the page `t`. -/
def At (phys t : U64) (i j : Nat) : Prop :=
  pageBase phys = t ∧ wordIndex phys = i ∧ byteIndex phys = j

theorem At.unique (h : At phys t i j) (h' : At phys' t i j) : phys = phys' :=
  address_ext (h.1.trans h'.1.symm) (h.2.1.trans h'.2.1.symm) (h.2.2.trans h'.2.2.symm)

theorem byte_writeByte (h : At phys t i j) (b : U8) :
    byte ((writeByte σ phys b).mem t i) j = b := by
  obtain ⟨rfl, rfl, rfl⟩ := h
  unfold writeByte
  rw [write_self]
  exact byte_setByte (byteIndex_lt phys) b

theorem byte_writeByte_of_not (hj : j < 8) (h : ¬ At phys t i j) (b : U8) :
    byte ((writeByte σ phys b).mem t i) j = byte (σ.mem t i) j := by
  unfold writeByte
  by_cases hword : t = pageBase phys ∧ i = wordIndex phys
  · obtain ⟨rfl, rfl⟩ := hword
    rw [write_self]
    exact byte_setByte_of_ne hj (fun heq => h ⟨rfl, rfl, heq.symm⟩) b
  · rw [write_of_ne σ _ hword]

theorem byte_writeBytes_of_not (hj : j < 8)
    (h : ∀ k < bs.length, ¬ At (phys + BitVec.ofNat 64 k) t i j) :
    byte ((writeBytes σ phys bs).mem t i) j = byte (σ.mem t i) j := by
  induction bs generalizing σ phys with
  | nil => rfl
  | cons b bs ih =>
    have hfirst : ¬ At phys t i j := by
      have h0 := h 0 (Nat.succ_pos _)
      rwa [BitVec.add_zero] at h0
    refine (ih fun k hk => ?_).trans (byte_writeByte_of_not hj hfirst b)
    rw [add_succ]
    exact h (k + 1) (Nat.succ_lt_succ hk)

/-- The store that reaches a byte is the only one to do so: a store does not go around. -/
theorem byte_writeBytes (hlen : bs.length < 2 ^ 64) (hk : k < bs.length)
    (h : At (phys + BitVec.ofNat 64 k) t i j) :
    byte ((writeBytes σ phys bs).mem t i) j = bs[k] := by
  have hj : j < 8 := h.2.2 ▸ byteIndex_lt _
  induction bs generalizing σ phys k with
  | nil => cases hk
  | cons b bs ih =>
    rw [List.length_cons] at hlen hk
    cases k with
    | succ k =>
      rw [← add_succ] at h
      exact ih (Nat.lt_of_succ_lt hlen) (Nat.lt_of_succ_lt_succ hk) h
    | zero =>
      rw [BitVec.add_zero] at h
      show byte ((writeBytes (writeByte σ phys b) (phys + 1) bs).mem t i) j = b
      refine (byte_writeBytes_of_not hj fun k hk' hat => ?_).trans (byte_writeByte h b)
      have heq := congrArg BitVec.toNat (h.unique hat)
      rw [add_succ, toNat_add, toNat_ofNat] at heq
      have := phys.isLt
      omega

/-- **A store leaves a word as it is** if and only if it finds there what it writes. -/
theorem writeBytes_eq_iff (hlen : bs.length < 2 ^ 64) : (writeBytes σ phys bs).mem t i = σ.mem t i ↔
      ∀ k (hk : k < bs.length), pageBase (phys + BitVec.ofNat 64 k) = t →
        wordIndex (phys + BitVec.ofNat 64 k) = i →
          readByte σ (phys + BitVec.ofNat 64 k) = bs[k] := by
  constructor
  · intro hsame k hk hpage hword
    have hat : At (phys + BitVec.ofNat 64 k) t i (byteIndex (phys + BitVec.ofNat 64 k)) :=
      ⟨hpage, hword, rfl⟩
    have hbyte := byte_writeBytes (σ := σ) hlen hk hat
    rw [hsame] at hbyte
    unfold readByte
    rw [hpage, hword]
    exact hbyte
  · intro h
    refine ext_byte fun j hj => ?_
    by_cases hhit : ∃ k < bs.length, At (phys + BitVec.ofNat 64 k) t i j
    · obtain ⟨k, hk, hat⟩ := hhit
      have hread := h k hk hat.1 hat.2.1
      unfold readByte at hread
      rw [hat.1, hat.2.1, hat.2.2] at hread
      exact (byte_writeBytes hlen hk hat).trans hread.symm
    · exact byte_writeBytes_of_not hj fun k hk hat => hhit ⟨k, hk, hat⟩

/-- Addresses by their distance from a page frame. -/
theorem add_offset (phys offset : U64) (k : Nat) :
    phys + offset + BitVec.ofNat 64 k = phys + BitVec.ofNat 64 (offset.toNat + k) := by
  rw [BitVec.add_assoc, ofNat_add, ofNat_toNat, setWidth_eq]

/-- A store to other pages. -/
theorem writeBytes_of_ne (h : ∀ k < bs.length, pageBase (phys + BitVec.ofNat 64 k) ≠ t) :
    (writeBytes σ phys bs).mem t = σ.mem t := by
  funext i
  exact ext_byte fun j hj => byte_writeBytes_of_not hj fun k hk hat => h k hk hat.1

theorem writeBytes_pmm : (writeBytes σ phys bs).pmm = σ.pmm := by
  induction bs generalizing σ phys with
  | nil => rfl
  | cons b bs ih => exact ih

theorem writeBytes_kernelPml4 : (writeBytes σ phys bs).kernelPml4 = σ.kernelPml4 := by
  induction bs generalizing σ phys with
  | nil => rfl
  | cons b bs ih => exact ih

/-- The addresses of a page. -/
theorem pageBase_add (hphys : pageBase phys = phys) (hk : k < 4096) :
    pageBase (phys + BitVec.ofNat 64 k) = phys := by
  have hsum := toNat_pageBase_add phys hk
  have hbase : phys.toNat = phys.toNat / 4096 * 4096 := by
    rw [← toNat_pageBase, hphys]
  rw [hphys] at hsum
  refine eq_of_toNat_eq ?_
  rw [toNat_pageBase, hsum]
  omega

end Vmm

end BeastOs
