import BeastOs.Lib.Checked
import BeastOs.Fs.RamFs
import BeastOs.Fs.TarListing

/-!
# Reading any bytes as an archive

The loops of `fs/tar.rs` once more, with every addition and every slice checked: `none` is a panic,
or a loop that has not come to its end after `fuel` headers.

A header is what it is: its name need not be text, and its size can be anything that fits into
twelve bytes. `tar_safe` says that this does no harm. The size is below `8 ^ 12`, so offsets stay
far from the end of a `usize`, and each header is at least 512 bytes after the last one.
-/

namespace BeastOs.Fs

open Option Lib

namespace TarArchive

/-! ## The code -/

structure Header where
  fileName : String
  (size dataOffset nextOffset : Nat)

def checkedFileName (header : List U8) : Option String := do
  let nameField ← checkedSlice header 0 100
  let nameLen := (nameField.findIdx? (· == 0)).getD 100
  let name ← checkedSlice header 0 nameLen
  pure ((fromUtf8 name).getD "")

def checkedFileSize (header : List U8) : Option Nat := do
  let sizeBytes ← checkedSlice header 124 136
  let sizeStr := trimMatches isBlank ((fromUtf8 sizeBytes).getD "0")
  pure ((fromStrRadix 8 (2 ^ 64) sizeStr.toList).getD 0)

def checkedNextOffset (dataOffset size : Nat) : Option Nat := do
  let rounded ← checkedAdd size 511
  checkedAdd dataOffset (BitVec.ofNat 64 rounded &&& ~~~511 : U64).toNat

/-- What all three loops do first: the header at an offset, or none if it starts with a zero. -/
def checkedHeader (raw : List U8) (offset : Nat) : Option (Option Header) := do
  let stop ← checkedAdd offset 512
  let header ← checkedSlice raw offset stop
  let first ← header[0]?
  if first = 0 then pure none
  else do
    let fileName ← checkedFileName header
    let size ← checkedFileSize header
    let dataOffset ← checkedAdd offset 512
    let nextOffset ← checkedNextOffset dataOffset size
    pure (some ⟨fileName, size, dataOffset, nextOffset⟩)

/-- The loop of `get_file` and `open`. -/
def checkedScan {α : Type} (raw : List U8) (name : String) (cutOff absent : α)
    (found : TarFile → α) : (fuel offset : Nat) → Option α
  | 0, _ => none
  | fuel + 1, offset => do
    let stop ← checkedAdd offset 512
    if stop ≤ raw.length then
      match ← checkedHeader raw offset with
      | none => pure absent
      | some header =>
        if header.fileName = name then do
          let stop ← checkedAdd header.dataOffset header.size
          if stop > raw.length then pure cutOff
          else do
            let data ← checkedSlice raw header.dataOffset stop
            pure (found ⟨header.fileName, data⟩)
        else checkedScan raw name cutOff absent found fuel header.nextOffset
    else pure absent

def checkedGetFile (raw : List U8) (name : String) (fuel : Nat) : Option (Option TarFile) :=
  checkedScan raw (trimStartMatches (· == '/') name) none none some fuel 0

def checkedOpen (raw : List U8) (path : String) (fuel : Nat) : Option (Except FsError TarFile) :=
  checkedScan raw (trimStartMatches (· == '/') path) (.error .ioError) (.error .notFound) .ok fuel 0

def checkedListEntry (path fileName : String) (entries : List String) : Option (List String) :=
  if path = "" then
    if '/' ∈ fileName.toList then pure (pushNew entries (firstPart fileName ++ "/"))
    else pure (pushNew entries fileName)
  else
    let normalized := trimStartMatches (· == '/') fileName
    if path.toList <+: normalized.toList ∧ normalized ≠ path then do
      let rest ← checkedFrom normalized (utf8 path).length
      let relative := trimStartMatches (· == '/') rest
      if relative = "" then pure entries
      else if '/' ∈ relative.toList then pure (pushNew entries (firstPart relative ++ "/"))
      else pure (pushNew entries (firstPart relative))
    else pure entries

/-- The loop of `read_dir`. -/
def checkedReadDirFrom (raw : List U8) (path : String) :
    (fuel : Nat) → List String → (offset : Nat) → Option (List String)
  | 0, _, _ => none
  | fuel + 1, entries, offset => do
    let stop ← checkedAdd offset 512
    if stop ≤ raw.length then
      match ← checkedHeader raw offset with
      | none => pure entries
      | some header => do
        let entries ← checkedListEntry path header.fileName entries
        checkedReadDirFrom raw path fuel entries header.nextOffset
    else pure entries

def checkedReadDir (raw : List U8) (path : String) (fuel : Nat) :
    Option (Except FsError (List String)) :=
  (checkedReadDirFrom raw (trimMatches (· == '/') path) fuel [] 0).map .ok

/-! ## Headers -/

/-- Twelve bytes hold twelve octal digits at most. -/
theorem fileSize_lt (header : List U8) : fileSize header < 8 ^ 12 := by
  have htext : ((fromUtf8 ((header.drop 124).take 12)).getD "0").toList.length ≤ 12 := by
    cases hutf8 : fromUtf8 ((header.drop 124).take 12) with
    | none => exact Nat.le_of_ble_eq_true rfl
    | some s =>
      have hbytes := length_le_utf8 s
      rw [utf8_of_fromUtf8 hutf8] at hbytes
      exact hbytes.trans (List.length_take_le _ _)
  unfold fileSize
  dsimp only
  cases hsize : fromStrRadix 8 (2 ^ 64)
      (trimMatches isBlank ((fromUtf8 ((header.drop 124).take 12)).getD "0")).toList with
  | none => exact Nat.pow_pos (by decide)
  | some n =>
    refine (fromStrRadix_lt (by decide) hsize).trans_le (Nat.pow_le_pow_right (by decide) ?_)
    exact (length_trimMatches_le _ _).trans htext

theorem toNat_rounded (header : List U8) :
    (BitVec.ofNat 64 (fileSize header) + 511 : U64).toNat = fileSize header + 511 := by
  have hsize := fileSize_lt header
  rw [BitVec.toNat_add, BitVec.toNat_ofNat, Nat.mod_eq_of_lt (hsize.trans (by decide))]
  exact Nat.mod_eq_of_lt (Nat.lt_trans (Nat.add_lt_add_right hsize 511) (by decide))

theorem nextOffset_lt (dataOffset : Nat) (header : List U8) :
    nextOffset dataOffset (fileSize header) < dataOffset + 2 ^ 37 := by
  have hsize := fileSize_lt header
  have hround : ((BitVec.ofNat 64 (fileSize header) + 511 : U64) &&& ~~~511).toNat = _ :=
    toNat_and_not_mask _ 9
  rw [nextOffset, hround, toNat_rounded]
  omega

section Header

variable {header : List U8} (hlength : header.length = 512)

include hlength

theorem checkedFileName_eq : checkedFileName header = some (fileName header) := by
  have hnameLen : ((header.take 100).findIdx? (· == 0)).getD 100 ≤ header.length := by
    cases hfind : (header.take 100).findIdx? (· == 0) with
    | none =>
      rw [getD_none]
      omega
    | some n =>
      have hn := (List.findIdx?_eq_some_iff_getElem.mp hfind).1
      rw [List.length_take] at hn
      rw [getD_some]
      omega
  rw [checkedFileName, checkedSlice_zero (by omega)]
  dsimp only [bind_eq_bind, bind_some]
  rw [checkedSlice_zero hnameLen]
  rfl

theorem checkedFileSize_eq : checkedFileSize header = some (fileSize header) := by
  rw [checkedFileSize, checkedSlice_eq (by decide) (by omega)]
  rfl

end Header

theorem checkedNextOffset_eq {dataOffset : Nat} (hoffset : dataOffset ≤ 2 ^ 63) (header : List U8) :
    checkedNextOffset dataOffset (fileSize header) =
      some (nextOffset dataOffset (fileSize header)) := by
  have hsize := fileSize_lt header
  have hnext := nextOffset_lt dataOffset header
  have hrounded : (BitVec.ofNat 64 (fileSize header + 511) : U64) =
      BitVec.ofNat 64 (fileSize header) + 511 := BitVec.ofNat_add _ _
  rw [checkedNextOffset, checkedAdd_eq (by omega)]
  dsimp only [bind_eq_bind, bind_some]
  rw [hrounded]
  exact checkedAdd_eq (hnext.trans (by omega))

/-- **No header makes the loops panic.** -/
theorem checkedHeader_eq {raw : List U8} (hraw : raw.length ≤ isizeMax) {offset : Nat}
    (hlen : offset + 512 ≤ raw.length) :
    checkedHeader raw offset = let header := (raw.drop offset).take 512
      some (if header.head? = some 0 then none
        else some ⟨fileName header, fileSize header, offset + 512,
          nextOffset (offset + 512) (fileSize header)⟩) := by
  have hmax : isizeMax = 2 ^ 63 - 1 := rfl
  have hsub : offset + 512 - offset = 512 := by omega
  rw [checkedHeader, checkedAdd_eq (by omega)]
  dsimp only [bind_eq_bind, bind_some]
  rw [checkedSlice_eq (Nat.le_add_right _ _) hlen, hsub]
  generalize hheader : (raw.drop offset).take 512 = header
  have hlength : header.length = 512 := by
    rw [← hheader, List.length_take, List.length_drop]
    omega
  dsimp only [bind_some]
  rw [← List.head?_eq_getElem?]
  cases hfirst : header.head? with
  | none =>
    rw [List.head?_eq_none_iff.mp hfirst] at hlength
    cases hlength
  | some first =>
    dsimp only [bind_some]
    by_cases hzero : first = 0
    · rw [if_pos hzero, if_pos (by rw [hzero])]
      rfl
    · rw [if_neg hzero, if_neg fun h => hzero (some.inj h), checkedFileName_eq hlength,
        checkedFileSize_eq hlength]
      dsimp only [bind_some]
      rw [checkedNextOffset_eq (by omega)]
      rfl

/-! ## Loops -/

section Loops

variable {raw : List U8} (hraw : raw.length ≤ isizeMax) {fuel offset : Nat}
  (hfuel : raw.length - offset < fuel) (hoffset : offset < 2 ^ 63 + 2 ^ 37)

include hraw hfuel hoffset

/-- **The loop of `get_file` and `open`** ends, and does not panic. -/
theorem checkedScan_eq {α : Type} (name : String) (cutOff absent : α) (found : TarFile → α) :
    checkedScan raw name cutOff absent found fuel offset =
      some (scan raw name cutOff absent found offset) := by
  have hmax : isizeMax = 2 ^ 63 - 1 := rfl
  induction fuel generalizing offset with
  | zero => omega
  | succ fuel ih =>
    rw [checkedScan, checkedAdd_eq (by omega), scan]
    dsimp only [bind_eq_bind, bind_some]
    by_cases hlen : offset + 512 ≤ raw.length
    · have hsize := fileSize_lt ((raw.drop offset).take 512)
      have hnext := nextOffset_lt (offset + 512) ((raw.drop offset).take 512)
      have hgrows : offset + 512 ≤
          nextOffset (offset + 512) (fileSize ((raw.drop offset).take 512)) :=
        Nat.le_add_right _ _
      rw [if_pos hlen, if_pos hlen, checkedHeader_eq hraw hlen]
      dsimp only [bind_some]
      by_cases hzero : ((raw.drop offset).take 512).head? = some 0
      · simp only [if_pos hzero]
        rfl
      · rw [if_neg hzero, if_neg hzero]
        dsimp only
        by_cases hname : fileName ((raw.drop offset).take 512) = name
        · rw [if_pos hname, if_pos hname, checkedAdd_eq (by omega)]
          dsimp only [bind_some]
          split
          · rfl
          next hend =>
            rw [checkedSlice_eq (Nat.le_add_right _ _) (not_lt.mp hend),
              Nat.add_sub_cancel_left]
            rfl
        · simp only [if_neg hname]
          exact ih (by omega) (by omega)
    · rw [if_neg hlen, if_neg hlen]
      rfl

omit hraw hfuel hoffset in
/-- The path is a text that the name starts with, so the name can be cut after it. -/
theorem checkedListEntry_eq (path fileName : String) (entries : List String) :
    checkedListEntry path fileName entries = some (listEntry path fileName entries) := by
  unfold checkedListEntry listEntry
  split
  · split <;> rfl
  · dsimp only
    split
    next hstarts =>
      obtain ⟨⟨rest, hrest⟩, -⟩ := hstarts
      have hname : trimStartMatches (· == '/') fileName = path ++ String.ofList rest := by
        apply String.toList_injective
        rw [String.toList_append, String.toList_ofList, hrest]
      rw [← hrest, hname, checkedFrom_append, List.drop_left]
      dsimp only [bind_eq_bind, bind_some]
      split
      · rfl
      · split <;> rfl
    · rfl

/-- **The loop of `read_dir`** ends, and does not panic. -/
theorem checkedReadDirFrom_eq (path : String) (entries : List String) :
    checkedReadDirFrom raw path fuel entries offset =
      some (readDirFrom raw path entries offset) := by
  have hmax : isizeMax = 2 ^ 63 - 1 := rfl
  induction fuel generalizing offset entries with
  | zero => omega
  | succ fuel ih =>
    rw [checkedReadDirFrom, checkedAdd_eq (by omega), readDirFrom]
    dsimp only [bind_eq_bind, bind_some]
    by_cases hlen : offset + 512 ≤ raw.length
    · have hnext := nextOffset_lt (offset + 512) ((raw.drop offset).take 512)
      have hgrows : offset + 512 ≤
          nextOffset (offset + 512) (fileSize ((raw.drop offset).take 512)) :=
        Nat.le_add_right _ _
      rw [if_pos hlen, if_pos hlen, checkedHeader_eq hraw hlen]
      dsimp only [bind_some]
      by_cases hzero : ((raw.drop offset).take 512).head? = some 0
      · rw [if_pos hzero, if_pos hzero]
        rfl
      · rw [if_neg hzero, if_neg hzero]
        dsimp only
        rw [checkedListEntry_eq]
        exact ih (by omega) (by omega) _
    · rw [if_neg hlen, if_neg hlen]
      rfl

end Loops

/-- **Any bytes can be read as an archive.** Whatever they are and whatever the path is, the three
functions come to an end, no addition overflows and no slice is out of range; and `open` returns a
file exactly if `get_file` does, the same one. -/
theorem tar_safe (raw : Bytes) (path : String) :
    ∃ fuel,
      checkedGetFile raw.data path fuel = some (getFile ⟨raw.data⟩ path) ∧
      checkedOpen raw.data path fuel = some (TarArchive.open ⟨raw.data⟩ path) ∧
      checkedReadDir raw.data path fuel = some (readDir ⟨raw.data⟩ path) ∧
      ∀ file, TarArchive.open ⟨raw.data⟩ path = .ok file ↔
        getFile ⟨raw.data⟩ path = some file := by
  have hfuel : raw.data.length - 0 < raw.data.length + 1 := Nat.lt_succ_self _
  have hoffset : 0 < 2 ^ 63 + 2 ^ 37 := by decide
  refine ⟨raw.data.length + 1, ?_, ?_, ?_, fun file => ?_⟩
  · exact checkedScan_eq raw.length_le hfuel hoffset _ _ _ _
  · exact checkedScan_eq raw.length_le hfuel hoffset _ _ _ _
  · rw [checkedReadDir, checkedReadDirFrom_eq raw.length_le hfuel hoffset]
    rfl
  · rw [getFile_eq_toOption_open]
    cases TarArchive.open ⟨raw.data⟩ path with
    | error e => exact ⟨nofun, nofun⟩
    | ok found => exact ⟨fun h => congrArg some (Except.ok.inj h), fun h =>
      congrArg Except.ok (some.inj h)⟩

end TarArchive

end BeastOs.Fs
