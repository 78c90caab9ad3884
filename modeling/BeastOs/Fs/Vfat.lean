import BeastOs.Fs.Fat32Directory

/-!
# Directories with long names

How VFAT puts files into a directory: the name of a file is cut into fragments of thirteen units,
each of them in a slot of its own, and the slots are there from the last fragment to the first. The
slot with the short name comes after them.

`readDirectory_exact`: whatever files are encoded like this, with deleted slots between them, are
what `read_directory` returns.
-/

namespace BeastOs.Fs

open List Lib Fat32Instance

/-! ## The encoding -/

/-- A file in a directory; without a long name `longName` is empty. -/
structure VfatFile where
  longName : String
  shortName : List U8
  attr : U8
  firstCluster : U32
  fileSize : U32
  nul_not_mem : '\x00' ∉ longName.toList
  length_utf16 : (utf16 longName).length ≤ 255
  last_longName : ∀ c ∈ longName.toList.getLast?, c ≠ '\uffff' ∧ c ≠ '.' ∧ ¬ isWhitespace c
  length_shortName : shortName.length = 11
  head_shortName : ∀ b ∈ shortName.head?, b ≠ dirEnd ∧ b ≠ dirDeleted ∧ b ≠ 0x2E
  not_volumeId : attr &&& attrVolumeId = 0

/-- What a directory should tell about it. -/
def VfatFile.entry (file : VfatFile) : DirEntry where
  name := if file.longName = "" then formatShortName file.shortName else file.longName
  isDirectory := file.attr &&& attrDirectory ≠ 0
  firstCluster := file.firstCluster
  fileSize := file.fileSize.setWidth 64

def unitsPerSlot : Nat := 13

/-- A name in fragments; a terminator and padding only if the last one is not full. -/
def fragments (units : List Unit16) : List (List Unit16) :=
  if units = [] then []
  else if units.length < unitsPerSlot then
    [units ++ 0 :: List.replicate (unitsPerSlot - 1 - units.length) 0xFFFF]
  else units.take unitsPerSlot :: fragments (units.drop unitsPerSlot)
termination_by units.length
decreasing_by
  have hpos : 0 < units.length := List.length_pos_iff.mpr ‹_›
  rw [List.length_drop, unitsPerSlot]
  omega

/-- A slot with a fragment of a long name. -/
structure LongSlot where
  order : U8
  kind : U8
  checksum : U8
  firstCluster : BitVec 16
  units : List Unit16
  order_ne : order ≠ dirDeleted
  length_units : units.length = unitsPerSlot

def LongSlot.bytes (slot : LongSlot) : Slot :=
  [slot.order] ++ ((slot.units.take 5).flatMap (leBytes · 2) ++
    ([attrLfn, slot.kind, slot.checksum] ++ (((slot.units.drop 5).take 6).flatMap (leBytes · 2) ++
      (leBytes slot.firstCluster 2 ++ ((slot.units.drop 11).flatMap (leBytes · 2) ++ [])))))

/-- A file as it stands in a directory: deleted slots, the slots with its long name, and the slot
with the short name, which holds its times as well. -/
structure VfatRecord where
  deleted : List Slot
  long : List LongSlot
  file : VfatFile
  created : List U8
  written : List U8
  first_deleted : ∀ slot ∈ deleted, slot.first = dirDeleted
  units_long : long.map LongSlot.units = (fragments (utf16 file.longName)).reverse
  length_created : created.length = 8
  length_written : written.length = 4

namespace VfatRecord

def shortSlot (r : VfatRecord) : Slot :=
  r.file.shortName ++ ([r.file.attr] ++ (r.created ++ (leBytes (r.file.firstCluster >>> 16) 2 ++
    (r.written ++ (leBytes r.file.firstCluster 2 ++ (leBytes r.file.fileSize 4 ++ []))))))

def slots (r : VfatRecord) : List Slot :=
  r.deleted ++ (r.long.map LongSlot.bytes ++ [r.shortSlot])

end VfatRecord

/-! ## Reading a slot -/

variable {n : Nat}

/-- A number is put together from its upper and its lower part. -/
theorem setWidth_append_setWidth (x : BitVec n) (v w : Nat) :
    (x >>> w).setWidth v ++ x.setWidth w = x.setWidth (v + w) := by
  refine BitVec.eq_of_getLsbD_eq fun i hi => ?_
  rw [BitVec.getLsbD_append]
  by_cases hlow : i < w
  · simp [hlow, hi]
  · have hsplit : w + (i - w) = i := by omega
    have hhigh : i - w < v := by omega
    simp [hlow, hi, hsplit, hhigh]

namespace Slot

variable {pre : List U8} {k : Nat}

theorem byte_append (hpre : pre.length = k) (rest : List U8) (i : Nat) :
    byte (pre ++ rest) (k + i) = byte rest i := by
  simp only [byte, getD_eq_getElem?_getD, ← hpre, getElem?_append_right (Nat.le_add_right _ _),
    Nat.add_sub_cancel_left]

theorem byte_leBytes {n count i : Nat} (x : BitVec n) (hi : i < count) (rest : List U8) :
    byte (leBytes x count ++ rest) i = (x >>> (8 * i)).setWidth 8 := by
  have hlt : i < (leBytes x count).length := by
    rw [leBytes, length_map, length_range]
    exact hi
  rw [byte, getD_eq_getElem?_getD, getElem?_append_left hlt, leBytes, getElem?_map,
    getElem?_range hi]
  rfl

theorem u16_append (hpre : pre.length = k) (x : BitVec n) (rest : List U8) :
    u16 (pre ++ (leBytes x 2 ++ rest)) k = x.setWidth 16 := by
  have hlow : byte (pre ++ (leBytes x 2 ++ rest)) k = _ := byte_append hpre _ 0
  rw [u16, byte_append hpre, hlow, byte_leBytes x (by omega), byte_leBytes x (by omega)]
  exact setWidth_append_setWidth x 8 8

/-- Units that stand one after the other. -/
theorem map_u16_append {units : List Unit16} (hunits : units.length = n)
    (hpre : pre.length = k) (rest : List U8) :
    (List.range n).map (fun i => u16 (pre ++ (units.flatMap (leBytes · 2) ++ rest)) (k + i * 2)) =
      units := by
  induction units generalizing pre k n with
  | nil => rw [← hunits]; rfl
  | cons u units ih =>
    have hnext : (pre ++ leBytes u 2).length = k + 2 := by
      rw [length_append, hpre]
      rfl
    have hrest := ih rfl hnext
    rw [← hunits, length_cons, range_succ_eq_map, map_cons, map_map,
      flatMap_cons, append_assoc, zero_mul, add_zero, u16_append hpre u,
      BitVec.setWidth_eq]
    refine congrArg (u :: ·) (Eq.trans (map_congr_left fun i _ => ?_) hrest)
    have hindex : k + (i + 1) * 2 = k + 2 + i * 2 := by omega
    rw [append_assoc, ← hindex]
    rfl

end Slot

namespace LongSlot

variable (slot : LongSlot)

theorem length_take_units : (slot.units.take 5).length = 5 := by
  rw [length_take, slot.length_units]
  rfl

theorem length_take_drop_units : ((slot.units.drop 5).take 6).length = 6 := by
  rw [length_take, length_drop, slot.length_units]
  rfl

theorem length_drop_units : (slot.units.drop 11).length = 2 := by
  rw [length_drop, slot.length_units]
  rfl

theorem length_flatMap_leBytes (units : List Unit16) :
    (units.flatMap (leBytes · 2)).length = units.length * 2 :=
  length_flatMap_blocks (f := fun u => leBytes u 2) (fun _ => rfl) units

@[simp] theorem first_bytes : slot.bytes.first = slot.order := rfl

@[simp] theorem attr_bytes : slot.bytes.attr = attrLfn := by
  have hpre : ([slot.order] ++ (slot.units.take 5).flatMap (leBytes · 2)).length = 11 := by
    rw [length_append, length_flatMap_leBytes, length_take_units]
    rfl
  exact Slot.byte_append hpre _ 0

/-- The fragment is read back. -/
theorem parseLfnEntry_bytes : parseLfnEntry slot.bytes = slot.units := by
  have hone : (range 5).map (fun i => slot.bytes.u16 (1 + i * 2)) = slot.units.take 5 :=
    Slot.map_u16_append slot.length_take_units rfl _
  have htwo : (range 6).map (fun i => slot.bytes.u16 (14 + i * 2)) =
      (slot.units.drop 5).take 6 := by
    have hpre : ([slot.order] ++ ((slot.units.take 5).flatMap (leBytes · 2) ++
        [attrLfn, slot.kind, slot.checksum])).length = 14 := by
      simp only [length_append, length_flatMap_leBytes, length_take_units]
      rfl
    have hread := Slot.map_u16_append slot.length_take_drop_units hpre
    simp only [append_assoc] at hread
    exact hread
      (leBytes slot.firstCluster 2 ++ ((slot.units.drop 11).flatMap (leBytes · 2) ++ []))
  have hthree : (range 2).map (fun i => slot.bytes.u16 (28 + i * 2)) =
      slot.units.drop 11 := by
    have hpre : ([slot.order] ++ ((slot.units.take 5).flatMap (leBytes · 2) ++
        ([attrLfn, slot.kind, slot.checksum] ++
          (((slot.units.drop 5).take 6).flatMap (leBytes · 2) ++
            leBytes slot.firstCluster 2)))).length = 28 := by
      simp only [length_append, length_flatMap_leBytes, length_take_units, length_take_drop_units]
      rfl
    have hread := Slot.map_u16_append slot.length_drop_units hpre []
    simp only [append_assoc] at hread
    exact hread
  have hdrop : slot.units.drop 11 = (slot.units.drop 5).drop 6 := by rw [drop_drop]
  simp only [parseLfnEntry, hone, htwo, hthree, hdrop, append_assoc, take_append_drop]

end LongSlot

namespace VfatRecord

variable (r : VfatRecord)

theorem shortName_shortSlot : r.shortSlot.shortName = r.file.shortName := by
  rw [Slot.shortName, shortSlot, ← r.file.length_shortName, take_left]

theorem first_shortSlot :
    r.shortSlot.first ≠ dirEnd ∧ r.shortSlot.first ≠ dirDeleted ∧ r.shortSlot.first ≠ 0x2E := by
  have hlength := r.file.length_shortName
  have hhead := r.file.head_shortName
  rw [Slot.first, Slot.byte, shortSlot]
  cases hname : r.file.shortName with
  | nil =>
    rw [hname] at hlength
    exact absurd hlength (by decide)
  | cons b name =>
    rw [hname] at hhead
    exact hhead b rfl

theorem attr_shortSlot : r.shortSlot.attr = r.file.attr :=
  Slot.byte_append r.file.length_shortName _ 0

theorem firstCluster_shortSlot : r.shortSlot.firstCluster = r.file.firstCluster := by
  have hlow : r.shortSlot.u16 0x1A = r.file.firstCluster.setWidth 16 := by
    have hpre : (r.file.shortName ++ ([r.file.attr] ++ (r.created ++
        (leBytes (r.file.firstCluster >>> 16) 2 ++ r.written)))).length = 0x1A := by
      simp only [length_append, r.file.length_shortName, r.length_created, r.length_written]
      rfl
    have hread := Slot.u16_append hpre r.file.firstCluster (leBytes r.file.fileSize 4 ++ [])
    simp only [append_assoc] at hread
    exact hread
  have hhigh : r.shortSlot.u16 0x14 = (r.file.firstCluster >>> 16).setWidth 16 := by
    have hpre : (r.file.shortName ++ ([r.file.attr] ++ r.created)).length = 0x14 := by
      simp only [length_append, r.file.length_shortName, r.length_created]
      rfl
    have hread := Slot.u16_append hpre (r.file.firstCluster >>> 16)
    simp only [append_assoc] at hread
    exact hread
      (r.written ++ (leBytes r.file.firstCluster 2 ++ (leBytes r.file.fileSize 4 ++ [])))
  rw [Slot.firstCluster, hlow, hhigh]
  refine BitVec.eq_of_getLsbD_eq fun i hi => ?_
  by_cases hlt : i < 16
  · simp [hlt, hi]
  · have hsplit : 16 + (i - 16) = i := by omega
    have htop : i - 16 < 16 := by omega
    simp [hlt, hi, hsplit, htop]

theorem fileSize_shortSlot : r.shortSlot.fileSize = r.file.fileSize := by
  have hpre : (r.file.shortName ++ ([r.file.attr] ++ (r.created ++
      (leBytes (r.file.firstCluster >>> 16) 2 ++ (r.written ++
        leBytes r.file.firstCluster 2))))).length = 0x1C := by
    simp only [length_append, r.file.length_shortName, r.length_created, r.length_written]
    rfl
  have hbyte : ∀ i < 4, r.shortSlot.byte (0x1C + i) = (r.file.fileSize >>> (8 * i)).setWidth 8 := by
    intro i hi
    have hread := Slot.byte_append hpre (leBytes r.file.fileSize 4 ++ []) i
    simp only [append_assoc, Slot.byte_leBytes _ hi] at hread
    exact hread
  have hzero : r.shortSlot.byte 0x1C = r.file.fileSize.setWidth 8 := hbyte 0 (by decide)
  have htwo : r.file.fileSize >>> (8 * 2) = r.file.fileSize >>> 8 >>> 8 :=
    BitVec.shiftRight_add _ 8 8
  have hthree : r.file.fileSize >>> (8 * 3) = r.file.fileSize >>> (8 * 2) >>> 8 :=
    BitVec.shiftRight_add _ 16 8
  simp only [Slot.fileSize, hbyte 3 (by decide), hbyte 2 (by decide), hbyte 1 (by decide), hzero,
    hthree, setWidth_append_setWidth, htwo]
  exact BitVec.setWidth_eq _

theorem listable_shortSlot : Listable r.shortSlot := by
  obtain ⟨hend, hdeleted, hdot⟩ := r.first_shortSlot
  refine ⟨hend, hdeleted, hdot, ?_⟩
  rw [attr_shortSlot]
  exact r.file.not_volumeId

end VfatRecord

/-! ## Names -/

/-- The terminator ends a fragment, and there is none in a full one. -/
theorem flatMap_fragments {units : List Unit16} (hzero : 0 ∉ units) :
    (fragments units).flatMap (fun fragment => fragment.takeWhile (· ≠ 0)) = units := by
  have hne : ∀ u ∈ units, decide (u ≠ 0) = true := fun u hu =>
    decide_eq_true fun h => hzero (h ▸ hu)
  fun_induction fragments units with
  | case1 => rfl
  | case2 units hsome hlt =>
    rw [flatMap_singleton, takeWhile_append_of_pos hne, takeWhile_cons_of_neg (by simp), append_nil]
  | case3 units hsome hge ih =>
    have hrest := ih (fun h => hzero (mem_of_mem_drop h)) fun u hu =>
      hne u (mem_of_mem_drop hu)
    rw [flatMap_cons, hrest, takeWhile_eq_self_iff.mpr fun u hu => hne u (mem_of_mem_take hu),
      take_append_drop]

/-- Every fragment fills a slot. -/
theorem length_of_mem_fragments {units fragment : List Unit16}
    (hfragment : fragment ∈ fragments units) : fragment.length = unitsPerSlot := by
  fun_induction fragments units with
  | case1 => cases hfragment
  | case2 units hsome hlt =>
    rw [mem_singleton.mp hfragment, length_append, length_cons, length_replicate]
    omega
  | case3 units hsome hge ih =>
    rcases mem_cons.mp hfragment with rfl | hrest
    · rw [length_take, min_eq_left (not_lt.mp hge)]
    · exact ih hrest

/-- The slots before the short name give the long name. -/
theorem VfatFile.entryName_fragments (file : VfatFile) :
    entryName (fragments (utf16 file.longName)).reverse file.shortName =
      file.entry.name := by
  have hunits := flatMap_fragments (zero_not_mem_utf16 file.nul_not_mem)
  by_cases hlong : file.longName = ""
  · have hnone : fragments (utf16 file.longName) = [] := by
      rw [hlong, fragments]
      exact if_pos rfl
    rw [hnone, reverse_nil, entryName, if_pos rfl, entry, if_pos hlong]
  · have hsome : (fragments (utf16 file.longName)).reverse ≠ [] := by
      intro hnil
      rw [reverse_eq_nil_iff.mp hnil] at hunits
      refine hlong ?_
      rw [← fromUtf16Lossy_utf16 file.longName, ← hunits]
      rfl
    have hlast := file.last_longName
    have hpadding : trimEndMatches (· == '\uffff') file.longName = file.longName :=
      trimEndMatches_of_last fun c hc h => (hlast c hc).1 (eq_of_beq h)
    have hdots : trimEndMatches (· == '.') file.longName = file.longName :=
      trimEndMatches_of_last fun c hc h => (hlast c hc).2.1 (eq_of_beq h)
    have hspaces : trimEnd file.longName = file.longName :=
      trimEndMatches_of_last fun c hc => (hlast c hc).2.2
    rw [entryName, if_neg hsome, reverse_reverse, hunits]
    dsimp only
    rw [fromUtf16Lossy_utf16, hpadding, hdots, hspaces, if_pos hlong, entry, if_neg hlong]

/-! ## Every file can be encoded -/

/-- The checksum of the short name, which is in every slot of the long name. -/
def Fat32Instance.lfnChecksum (shortName : List U8) : U8 :=
  shortName.foldl (fun sum b => ((sum &&& 1) <<< 7 ||| sum >>> 1) + b) 0

theorem length_fragments (units : List Unit16) :
    (fragments units).length * unitsPerSlot < units.length + unitsPerSlot := by
  fun_induction fragments units with
  | case1 => decide
  | case2 units hsome hlt =>
    have hpos : 0 < units.length := length_pos_iff.mpr hsome
    rw [length_singleton]
    omega
  | case3 units hsome hge ih =>
    rw [length_drop] at ih
    rw [length_cons, Nat.succ_mul]
    omega

namespace VfatFile

variable (file : VfatFile)

/-- The number of a fragment, with a mark on the last one. -/
def order (i : Nat) : U8 :=
  BitVec.ofNat 8 (i + 1) |||
    if i + 1 = (fragments (utf16 file.longName)).length then 0x40 else 0

theorem order_ne {i : Nat} (hi : i < (fragments (utf16 file.longName)).length) :
    file.order i ≠ dirDeleted := by
  have hfragments := length_fragments (utf16 file.longName)
  have hunits := file.length_utf16
  have hlt : i < 20 := by
    unfold unitsPerSlot at hfragments
    omega
  have hsmall : ∀ i < 20, BitVec.ofNat 8 (i + 1) ||| 0x40 ≠ dirDeleted ∧
      BitVec.ofNat 8 (i + 1) ||| 0 ≠ dirDeleted := by decide
  rw [order]
  split
  · exact (hsmall i hlt).1
  · exact (hsmall i hlt).2

def longSlot (i : Fin (fragments (utf16 file.longName)).length) : LongSlot where
  order := file.order i
  kind := 0
  checksum := lfnChecksum file.shortName
  firstCluster := 0
  units := (fragments (utf16 file.longName)).get i
  order_ne := file.order_ne i.isLt
  length_units := length_of_mem_fragments (List.get_mem _ i)

/-- The slots of a file, as they are written. -/
def record : VfatRecord where
  deleted := []
  long := ((List.finRange _).map file.longSlot).reverse
  file := file
  created := List.replicate 8 0
  written := List.replicate 4 0
  first_deleted := fun _ h => nomatch h
  units_long := by
    rw [List.map_reverse, List.map_map]
    exact congrArg List.reverse (List.map_get_finRange _)
  length_created := rfl
  length_written := rfl

end VfatFile

/-! ## Reading the slots of a file -/

namespace Fat32Instance

variable {prev : Option U8} {lfnBuf : List (List Unit16)} {rest : List Slot}
  {contents : U64 → Sector} {inst : Fat32Instance}

theorem lastAttr_append (prev : Option U8) (slots slots' : List Slot) :
    lastAttr prev (slots ++ slots') = lastAttr (lastAttr prev slots) slots' :=
  foldl_append

/-- Deleted slots are passed over, and what was collected is forgotten. -/
theorem readSlots_deleted {deleted : List Slot}
    (hdeleted : ∀ slot ∈ deleted, slot.first = dirDeleted) (prev : Option U8) (rest : List Slot) :
    readSlots prev [] (deleted ++ rest) = readSlots (lastAttr prev deleted) [] rest := by
  induction deleted generalizing prev with
  | nil => rfl
  | cons slot deleted ih =>
    rw [forall_mem_cons] at hdeleted
    have hstops : ¬ Stops prev slot := not_stops (by rw [hdeleted.1]; decide)
    have hskip : slot.first = dirDeleted ∨ slot.first = dirEnd := .inl hdeleted.1
    rw [cons_append, readSlots, if_neg hstops, if_pos hdeleted.1, if_pos hskip, ite_self,
      ih hdeleted.2]
    rfl

/-- Slots of a long name are collected. -/
theorem readSlots_long (long : List LongSlot) (prev : Option U8) (lfnBuf : List (List Unit16))
    (rest : List Slot) : readSlots prev lfnBuf (long.map LongSlot.bytes ++ rest) =
      readSlots (lastAttr prev (long.map LongSlot.bytes)) (lfnBuf ++ long.map LongSlot.units)
        rest := by
  induction long generalizing prev lfnBuf with
  | nil => rw [map_nil, map_nil, append_nil]; rfl
  | cons slot long ih =>
    have hstops : ¬ Stops prev slot.bytes := fun h => h.2.1 slot.attr_bytes
    rw [map_cons, map_cons, cons_append, readSlots, if_neg hstops,
      if_pos slot.attr_bytes, if_neg (by rw [slot.first_bytes]; exact slot.order_ne),
      slot.parseLfnEntry_bytes, ih, append_assoc]
    rfl

/-- **A file is read back** from its slots. -/
theorem readSlots_record (r : VfatRecord) (prev : Option U8) (rest : List Slot) :
    readSlots prev [] (r.slots ++ rest) =
      r.file.entry :: readSlots (lastAttr prev r.slots) [] rest := by
  have hentry : entryOf (r.long.map LongSlot.units) r.shortSlot = r.file.entry := by
    rw [entryOf, r.shortName_shortSlot, r.attr_shortSlot, r.firstCluster_shortSlot,
      r.fileSize_shortSlot, r.units_long, r.file.entryName_fragments]
    rfl
  simp only [VfatRecord.slots, append_assoc, readSlots_deleted r.first_deleted, readSlots_long,
    nil_append, singleton_append, readSlots_listable r.listable_shortSlot, hentry, lastAttr_append]
  rfl

theorem readSlots_records (records : List VfatRecord) (prev : Option U8) (rest : List Slot) :
    readSlots prev [] (records.flatMap VfatRecord.slots ++ rest) =
      records.map (fun r => r.file.entry) ++
        readSlots (lastAttr prev (records.flatMap VfatRecord.slots)) [] rest := by
  induction records generalizing prev with
  | nil => rfl
  | cons r records ih =>
    rw [flatMap_cons, append_assoc, readSlots_record, ih, lastAttr_append, map_cons, cons_append]

/-- What may come after the last file: nothing, or a slot of zeros that is not after a slot of a
long name, and then anything. -/
def Ends (before rest : List Slot) : Prop :=
  rest = [] ∨ (rest.head? = some zeroSlot ∧ lastAttr none before ≠ some attrLfn)

theorem readSlots_ends (hends : rest = [] ∨ (rest.head? = some zeroSlot ∧ prev ≠ some attrLfn)) :
    readSlots prev [] rest = [] := by
  rcases hends with rfl | ⟨hzero, hprev⟩
  · rfl
  · cases rest with
    | nil => rfl
    | cons slot rest =>
      cases hzero
      exact if_pos ⟨rfl, by decide, hprev⟩

/-! ## Reading the clusters -/

/-- If every sector can be read the buffer gets all clusters. -/
theorem readClusterChain_eq (clusters : List U32) (read : List U8) {bufLen : Nat}
    (hroom : read.length + clusters.length * inst.clusterBytes = bufLen) :
    readClusterChain (fun lba => some (contents lba)) inst bufLen clusters read =
      read ++ chainData contents inst clusters := by
  induction clusters generalizing read with
  | nil => exact (append_nil read).symm
  | cons cluster clusters ih =>
    rw [length_cons, Nat.succ_mul] at hroom
    have hfits : 0 + inst.clusterBytes ≤ bufLen - read.length := by omega
    have hsectors : readSectors (.of contents fun _ => true) (bufLen - read.length)
        inst.sectorsPerCluster (inst.clusterToLba cluster) 0 0 = _ :=
      readSectors_eq _ _ _ _ hfits
    rw [sectorsRead_of_ok fun _ => rfl] at hsectors
    have hone : (readSectors (fun _ lba => some (contents lba)) (bufLen - read.length)
        inst.sectorsPerCluster (inst.clusterToLba cluster) 0 0).1 =
        clusterData contents inst cluster := congrArg Prod.fst hsectors
    rw [readClusterChain, if_neg (by omega), hone, ih, chainData, chainData, flatMap_cons,
      append_assoc]
    rw [length_append, length_clusterData]
    omega

theorem directoryData_eq (clusters : List U32) :
    directoryData (fun lba => some (contents lba)) inst clusters =
      chainData contents inst clusters := by
  rw [directoryData, readClusterChain_eq clusters [] (Nat.zero_add _), nil_append,
    length_chainData, Nat.sub_self, replicate_zero, append_nil]

/-- **VFAT directories are decoded exactly.** -/
theorem readDirectory_exact {inst : Fat32Instance} {fuel : Nat} {start : U32} {clusters : List U32}
    (hchain : clusterChain (fun lba => some (contents lba)) inst fuel start = some clusters)
    (hne : clusters ≠ []) (records : List VfatRecord) {deleted rest : List Slot}
    (hslots : blocks dirEntrySize (chainData contents inst clusters) =
      records.flatMap VfatRecord.slots ++ (deleted ++ rest))
    (hdeleted : ∀ slot ∈ deleted, slot.first = dirDeleted)
    (hends : Ends (records.flatMap VfatRecord.slots ++ deleted) rest) :
    readDirectory (fun lba => some (contents lba)) inst fuel start =
      some (.ok (records.map fun r => r.file.entry)) := by
  rw [Ends, lastAttr_append] at hends
  rw [readDirectory, hchain, Option.map_some, if_neg hne, directorySlots, directoryData_eq, hslots,
    readSlots_records, readSlots_deleted hdeleted, readSlots_ends hends, append_nil]

/-- The directory of `directoryDisk`, all of whose sectors can be read. -/
def directoryContents (slots : List Slot) (lba : U64) : Sector :=
  if lba = 64 then fun i => slots.flatten.getD i 0 else fun _ => 0xFF

theorem directoryDisk_eq (slots : List Slot) :
    directoryDisk slots = fun lba => some (directoryContents slots lba) := by
  funext lba
  unfold directoryDisk directoryContents
  split <;> rfl

/-- `Long File Name.txt`, with the short name `LONGFI~1.TXT` -/
def longFile : VfatFile where
  longName := "Long File Name.txt"
  shortName := [0x4C, 0x4F, 0x4E, 0x47, 0x46, 0x49, 0x7E, 0x31, 0x54, 0x58, 0x54]
  attr := 0x20
  firstCluster := 0x00030005
  fileSize := 1000
  nul_not_mem := by decide
  length_utf16 := by decide
  last_longName := by
    have hlast : "Long File Name.txt".toList.getLast? = some 't' := by decide
    rw [hlast]
    rintro c ⟨⟩
    decide
  length_shortName := rfl
  head_shortName := by decide
  not_volumeId := rfl

/-- `BIN`, a directory -/
def shortFile : VfatFile where
  longName := ""
  shortName := [0x42, 0x49, 0x4E, 0x20, 0x20, 0x20, 0x20, 0x20, 0x20, 0x20, 0x20]
  attr := attrDirectory
  firstCluster := 7
  fileSize := 0
  nul_not_mem := by decide
  length_utf16 := by decide
  last_longName := by
    have hlast : "".toList.getLast? = none := by decide
    rw [hlast]
    exact nofun
  length_shortName := rfl
  head_shortName := by decide
  not_volumeId := rfl

/-- Both files, with a deleted slot between them. -/
def twoFiles : List VfatRecord :=
  [longFile.record,
    { shortFile.record with
      deleted := [deletedLong]
      first_deleted := by decide }]

/-- What is after the end is not read. -/
theorem readDirectory_twoFiles :
    readDirectory (directoryDisk (twoFiles.flatMap VfatRecord.slots ++ [zeroSlot, staleSlot]))
        smallInstance 1 2 =
      some (.ok [⟨"Long File Name.txt", false, 0x00030005, 1000⟩, ⟨"BIN", true, 7, 0⟩]) := by
  have hslots : blocks dirEntrySize (chainData (directoryContents
      (twoFiles.flatMap VfatRecord.slots ++ [zeroSlot, staleSlot]))
        smallInstance [2]) =
      twoFiles.flatMap VfatRecord.slots ++
        ([] ++ zeroSlot :: staleSlot :: replicate 9 zeroSlot) := by
    decide +kernel
  have hends : Ends (twoFiles.flatMap VfatRecord.slots ++ [])
      (zeroSlot :: staleSlot :: replicate 9 zeroSlot) := .inr ⟨rfl, by decide +kernel⟩
  have hchain := clusterChain_directoryDisk
    (twoFiles.flatMap VfatRecord.slots ++ [zeroSlot, staleSlot])
  rw [directoryDisk_eq] at hchain ⊢
  refine (readDirectory_exact hchain (cons_ne_nil _ _) twoFiles hslots
    nofun hends).trans ?_
  decide +kernel

end Fat32Instance

end BeastOs.Fs
