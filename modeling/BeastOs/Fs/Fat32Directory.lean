import BeastOs.Lib.Utf16
import BeastOs.Lib.Text
import BeastOs.Fs.Fat32Chain
import BeastOs.Fs.Fat32Read

/-!
# FAT32 directories

`read_directory` of `fs/fat32.rs`: the clusters of a directory are a list of slots of 32 bytes. A
file has one slot with its short name, and before it slots with the fragments of its long name, the
last fragment first. The loop collects fragments until it gets to a short name.

A slot that starts with a zero is the end of the directory, but the loop does not stop there if the
slot, or the one before it, has the attribute of a long name. `nothing_after_end_iff`: only what is
before the first such slot is listed exactly if there is nothing to list between it and the slot at
which the loop does stop.
-/

namespace BeastOs.Fs

open List Lib

structure DirEntry where
  name : String
  isDirectory : Bool
  firstCluster : U32
  fileSize : U64
  deriving DecidableEq, Repr

/-! ## Slots -/

def dirEntrySize : Nat := 32

def attrVolumeId : U8 := 0x08

def attrDirectory : U8 := 0x10

def attrLfn : U8 := 0x0F

def dirDeleted : U8 := 0xE5

def dirEnd : U8 := 0x00

abbrev Slot := List U8

namespace Slot

def byte (slot : Slot) (k : Nat) : U8 := slot.getD k 0

def first (slot : Slot) : U8 := slot.byte 0

def attr (slot : Slot) : U8 := slot.byte 0x0B

def u16 (slot : Slot) (k : Nat) : BitVec 16 := slot.byte (k + 1) ++ slot.byte k

def shortName (slot : Slot) : List U8 := slot.take 11

def firstCluster (slot : Slot) : U32 :=
  (slot.u16 0x1A).setWidth 32 ||| (slot.u16 0x14).setWidth 32 <<< 16

def fileSize (slot : Slot) : U32 :=
  slot.byte 0x1F ++ slot.byte 0x1E ++ slot.byte 0x1D ++ slot.byte 0x1C

end Slot

namespace Fat32Instance

/-! ## The code -/

/-- The loop of `read_cluster_chain`, with what it has put into the buffer so far. -/
def readClusterChain (disk : Disk) (inst : Fat32Instance) (bufLen : Nat) :
    List U32 → (read : List U8) → List U8
  | [], read => read
  | cluster :: clusters, read =>
    let lba := inst.clusterToLba cluster
    let remaining := bufLen - read.length
    if read.length + inst.clusterBytes > bufLen then
      read ++ (readSectors (fun _ => disk) remaining
        ((remaining + sectorSize - 1) / sectorSize) lba 0 0).1
    else
      readClusterChain disk inst bufLen clusters
        (read ++ (readSectors (fun _ => disk) remaining inst.sectorsPerCluster lba 0 0).1)

/-- `data`: a buffer of zeros, and what has been read into it. -/
def directoryData (disk : Disk) (inst : Fat32Instance) (clusters : List U32) : List U8 :=
  let bufLen := clusters.length * inst.clusterBytes
  let read := readClusterChain disk inst bufLen clusters []
  read ++ List.replicate (bufLen - read.length) 0

/-- The thirteen characters of a long name in a slot. -/
def parseLfnEntry (slot : Slot) : List Unit16 :=
  (List.range 5).map (fun i => slot.u16 (1 + i * 2)) ++
    (List.range 6).map (fun i => slot.u16 (14 + i * 2)) ++
    (List.range 2).map (fun i => slot.u16 (28 + i * 2))

def formatShortName (name : List U8) : String :=
  let nameStr := trimEnd ((fromUtf8 (name.take 8)).getD "")
  let extStr := trimEnd ((fromUtf8 ((name.drop 8).take 3)).getD "")
  if extStr = "" then nameStr else nameStr ++ "." ++ extStr

/-- The name of a file, from the fragments before its slot and the short name in it. -/
def entryName (lfnBuf : List (List Unit16)) (shortName : List U8) : String :=
  if lfnBuf = [] then formatShortName shortName
  else
    let nameUtf16 := lfnBuf.reverse.flatMap fun fragment => fragment.takeWhile (· ≠ 0)
    let name := trimEnd (trimEndMatches (· == '.')
      (trimEndMatches (· == '\uffff') (fromUtf16Lossy nameUtf16)))
    if name ≠ "" then name else formatShortName shortName

def entryOf (lfnBuf : List (List Unit16)) (slot : Slot) : DirEntry where
  name := entryName lfnBuf slot.shortName
  isDirectory := slot.attr &&& attrDirectory ≠ 0
  firstCluster := slot.firstCluster
  fileSize := slot.fileSize.setWidth 64

/-- The loop stops at this slot; `prev` is the attribute of the one before it. -/
def Stops (prev : Option U8) (slot : Slot) : Prop :=
  slot.first = dirEnd ∧ slot.attr ≠ attrLfn ∧ prev ≠ some attrLfn

instance (prev : Option U8) (slot : Slot) : Decidable (Stops prev slot) :=
  inferInstanceAs (Decidable (_ ∧ _))

/-- The loop over the slots, with the fragments collected so far. -/
def readSlots : (prev : Option U8) → (lfnBuf : List (List Unit16)) → List Slot → List DirEntry
  | _, _, [] => []
  | prev, lfnBuf, slot :: slots =>
    if Stops prev slot then []
    else if slot.attr = attrLfn then
      if slot.first = dirDeleted then readSlots (some slot.attr) [] slots
      else readSlots (some slot.attr) (lfnBuf ++ [parseLfnEntry slot]) slots
    else if slot.first = dirDeleted ∨ slot.first = dirEnd then
      readSlots (some slot.attr) [] slots
    else if slot.attr &&& attrVolumeId ≠ 0 then readSlots (some slot.attr) [] slots
    -- `.` and `..` are skipped
    else if slot.first = 0x2E then readSlots (some slot.attr) [] slots
    else entryOf lfnBuf slot :: readSlots (some slot.attr) [] slots

/-- The slots of a directory. -/
def directorySlots (disk : Disk) (inst : Fat32Instance) (clusters : List U32) :
    List Slot :=
  blocks dirEntrySize (directoryData disk inst clusters)

/-- `none` if the clusters have not come to an end after `fuel` of them. -/
def readDirectory (disk : Disk) (inst : Fat32Instance) (fuel : Nat) (cluster : U32) :
    Option (Except FsError (List DirEntry)) :=
  (clusterChain disk inst fuel cluster).map fun clusters =>
    if clusters = [] then .error .notFound
    else .ok (readSlots none [] (directorySlots disk inst clusters))

/-! ## The end of a directory -/

/-- A slot that makes for an entry if the loop gets to it. -/
def Listable (slot : Slot) : Prop :=
  slot.first ≠ dirEnd ∧ slot.first ≠ dirDeleted ∧ slot.first ≠ 0x2E ∧
    slot.attr &&& attrVolumeId = 0

instance (slot : Slot) : Decidable (Listable slot) := inferInstanceAs (Decidable (_ ∧ _))

/-- The slots that the loop gets to. -/
def reached : (prev : Option U8) → List Slot → List Slot
  | _, [] => []
  | prev, slot :: slots =>
    if Stops prev slot then [] else slot :: reached (some slot.attr) slots

/-- The slots before the first that starts with a zero. -/
def beforeEnd (slots : List Slot) : List Slot := slots.takeWhile fun slot => slot.first ≠ dirEnd

variable {prev : Option U8} {lfnBuf : List (List Unit16)} {slot : Slot} {slots pre rest : List Slot}

theorem not_stops (h : slot.first ≠ dirEnd) : ¬ Stops prev slot := fun hstops => h hstops.1

/-- A listable slot is not one of a long name. -/
theorem Listable.attr_ne (h : Listable slot) : slot.attr ≠ attrLfn := by
  intro hattr
  have hvolume := h.2.2.2
  rw [hattr] at hvolume
  exact absurd hvolume (by decide)

theorem readSlots_listable (h : Listable slot) : readSlots prev lfnBuf (slot :: slots) =
      entryOf lfnBuf slot :: readSlots (some slot.attr) [] slots := by
  rw [readSlots, if_neg (not_stops h.1), if_neg h.attr_ne, if_neg (not_or.mpr ⟨h.2.1, h.1⟩),
    if_neg (not_not.mpr h.2.2.2), if_neg h.2.2.1]

/-- Any other slot only changes what has been collected. -/
theorem readSlots_skip (hstops : ¬ Stops prev slot) (h : ¬ Listable slot) (lfnBuf) :
    ∃ lfnBuf', ∀ slots,
      readSlots prev lfnBuf (slot :: slots) = readSlots (some slot.attr) lfnBuf' slots := by
  by_cases hattr : slot.attr = attrLfn
  · by_cases hdeleted : slot.first = dirDeleted
    · exact ⟨[], fun slots => by
        rw [readSlots, if_neg hstops, if_pos hattr, if_pos hdeleted]⟩
    · exact ⟨_, fun slots => by
        rw [readSlots, if_neg hstops, if_pos hattr, if_neg hdeleted]⟩
  · refine ⟨[], fun slots => ?_⟩
    rw [readSlots, if_neg hstops, if_neg hattr]
    split
    · rfl
    next hfirst =>
      split
      · rfl
      next hvolume =>
        refine if_pos ?_
        by_contra hdot
        obtain ⟨hdeleted, hend⟩ := not_or.mp hfirst
        exact h ⟨hend, hdeleted, hdot, not_not.mp hvolume⟩

/-- The attribute of the last slot. -/
def lastAttr (prev : Option U8) (slots : List Slot) : Option U8 :=
  slots.foldl (fun _ slot => some slot.attr) prev

/-- Before the end of the directory the loop does not stop. -/
theorem readSlots_append (hpre : ∀ slot ∈ pre, slot.first ≠ dirEnd) (prev) (lfnBuf)
    (rest : List Slot) : ∃ lfnBuf', readSlots prev lfnBuf (pre ++ rest) =
      readSlots prev lfnBuf pre ++ readSlots (lastAttr prev pre) lfnBuf' rest := by
  induction pre generalizing prev lfnBuf with
  | nil => exact ⟨lfnBuf, rfl⟩
  | cons slot pre ih =>
    rw [forall_mem_cons] at hpre
    by_cases hlist : Listable slot
    · obtain ⟨lfnBuf', hrest⟩ := ih hpre.2 (some slot.attr) []
      refine ⟨lfnBuf', ?_⟩
      simp only [cons_append, readSlots_listable hlist, hrest]
      rfl
    · obtain ⟨collected, hskip⟩ := readSlots_skip (not_stops hpre.1) hlist lfnBuf
      obtain ⟨lfnBuf', hrest⟩ := ih hpre.2 (some slot.attr) collected
      refine ⟨lfnBuf', ?_⟩
      rw [cons_append, hskip, hskip, hrest]
      rfl

theorem reached_append (hpre : ∀ slot ∈ pre, slot.first ≠ dirEnd) (prev : Option U8)
    (rest : List Slot) : reached prev (pre ++ rest) = pre ++ reached (lastAttr prev pre) rest := by
  induction pre generalizing prev with
  | nil => rfl
  | cons slot pre ih =>
    rw [forall_mem_cons] at hpre
    rw [cons_append, reached, if_neg (not_stops hpre.1), ih hpre.2, cons_append]
    rfl

theorem readSlots_eq_nil_iff :
    readSlots prev lfnBuf slots = [] ↔ ∀ slot ∈ reached prev slots, ¬ Listable slot := by
  induction slots generalizing prev lfnBuf with
  | nil => simp [readSlots, reached]
  | cons slot slots ih =>
    by_cases hstops : Stops prev slot
    · simp [readSlots, reached, hstops]
    · rw [reached, if_neg hstops, forall_mem_cons]
      by_cases hlist : Listable slot
      · rw [readSlots_listable hlist]
        exact iff_of_false (cons_ne_nil _ _) fun h => h.1 hlist
      · obtain ⟨collected, hskip⟩ := readSlots_skip hstops hlist lfnBuf
        rw [hskip, ih]
        exact (and_iff_right hlist).symm

/-- What is after the first slot that starts with a zero. -/
def afterEnd (slots : List Slot) : List Slot := slots.dropWhile fun slot => slot.first ≠ dirEnd

theorem readSlots_eq_beforeEnd_iff (slots : List Slot) :
    readSlots none [] slots = readSlots none [] (beforeEnd slots) ↔
      ∀ slot ∈ afterEnd (reached none slots), ¬ Listable slot := by
  have hpre : ∀ slot ∈ beforeEnd slots, slot.first ≠ dirEnd := by
    intro slot hslot
    have hfirst := mem_takeWhile_imp (p := fun slot : Slot => slot.first ≠ dirEnd) hslot
    exact of_decide_eq_true hfirst
  have hsplit : beforeEnd slots ++ afterEnd slots = slots := takeWhile_append_dropWhile
  have hafter : afterEnd (reached none slots) =
      reached (lastAttr none (beforeEnd slots)) (afterEnd slots) := by
    conv_lhs => rw [← hsplit, reached_append hpre]
    rw [afterEnd, dropWhile_append_of_pos fun slot hslot => decide_eq_true (hpre slot hslot)]
    -- what is left starts with a zero, if there is anything
    cases hrest : afterEnd slots with
    | nil => rfl
    | cons slot rest =>
      have hzero := head?_dropWhile_not (fun slot : Slot => slot.first ≠ dirEnd) slots
      rw [show slots.dropWhile _ = slot :: rest from hrest] at hzero
      rw [reached]
      split
      · rfl
      · exact dropWhile_cons_of_neg (by simpa using hzero)
  obtain ⟨lfnBuf', hread⟩ := readSlots_append hpre none [] (afterEnd slots)
  rw [hsplit] at hread
  rw [hread, append_right_eq_self, readSlots_eq_nil_iff, hafter]

/-- **Nothing after the end of a directory is listed** if and only if there is nothing to list
between the first slot that starts with a zero and the slot at which the loop stops. -/
theorem nothing_after_end_iff {disk : Disk} {inst : Fat32Instance} {fuel : Nat} {cluster : U32}
    {clusters : List U32} (hchain : clusterChain disk inst fuel cluster = some clusters)
    (hne : clusters ≠ []) :
    readDirectory disk inst fuel cluster =
        some (.ok (readSlots none []
          (beforeEnd (directorySlots disk inst clusters)))) ↔
      ∀ slot ∈ afterEnd (reached none (directorySlots disk inst clusters)),
        ¬ Listable slot := by
  rw [readDirectory, hchain, Option.map_some, if_neg hne, Option.some_inj, Except.ok.injEq]
  exact readSlots_eq_beforeEnd_iff _

/-- A disk on which cluster 2 of `smallInstance` is a directory with these slots. -/
def directoryDisk (slots : List Slot) : Disk := fun lba =>
  if lba = 64 then some fun i => slots.flatten.getD i 0 else some fun _ => 0xFF

/-- A slot with a short name and no other data. -/
def shortSlot (name : List U8) (attr : U8) : Slot := name ++ attr :: List.replicate 20 0

/-- `STALE.TXT` -/
def staleSlot : Slot :=
  shortSlot [0x53, 0x54, 0x41, 0x4C, 0x45, 0x20, 0x20, 0x20, 0x54, 0x58, 0x54] 0x20

def zeroSlot : Slot := List.replicate 32 0

/-- A slot of a long name that has been deleted. -/
def deletedLong : Slot := shortSlot (dirDeleted :: List.replicate 10 0) attrLfn

theorem clusterChain_directoryDisk (slots : List Slot) :
    clusterChain (directoryDisk slots) smallInstance 1 2 = some [2] := by
  have hentry : smallInstance.readFatEntry (directoryDisk slots) 2 = some 0x0FFFFFFF := rfl
  refine clusterChain_last (by decide) ?_ 0
  rw [successor, hentry]
  decide

/-- After a short name the loop stops at the end of the directory. -/
theorem nothing_after_end_short :
    readDirectory (directoryDisk [staleSlot, zeroSlot, staleSlot]) smallInstance 1 2 =
      some (.ok [⟨"STALE.TXT", false, 0, 0⟩]) := by
  refine ((nothing_after_end_iff (clusterChain_directoryDisk _) (cons_ne_nil _ _)).mpr
    (by decide +kernel)).trans ?_
  decide +kernel

/-- After a long name, be it a deleted one, the loop goes on, and lists a file that is behind the
end. -/
theorem listed_after_end :
    readDirectory (directoryDisk [deletedLong, zeroSlot, staleSlot]) smallInstance 1 2 =
        some (.ok [⟨"STALE.TXT", false, 0, 0⟩]) ∧
      beforeEnd (directorySlots (directoryDisk [deletedLong, zeroSlot, staleSlot])
        smallInstance [2]) = [deletedLong] ∧
      readSlots none [] [deletedLong] = [] := by
  decide +kernel

end Fat32Instance

end BeastOs.Fs
