import BeastOs.Lib.Alignment
import BeastOs.Lib.Text
import BeastOs.Fs.Mounts

/-!
# Tar archives

`TarArchive` of `fs/tar.rs`: a list of records, each a header of 512 bytes and the data of a file,
padded to a multiple of 512 bytes. `get_file` and `open` each have a loop that goes from header to
header; they are one loop here (`scan`) with different results.

A `Record` is how an entry can be laid out. The bytes of a header that the loop does not read, the
padding, and the blanks and leading zeros around the size are free. `readsBack`: whatever they are,
both functions find the data of the first entry with the name that is asked for.
-/

namespace BeastOs.Fs

open Lib List

structure TarFile where
  name : String
  data : List U8
  deriving DecidableEq

structure TarArchive where
  rawData : List U8

namespace TarArchive

/-! ## The code -/

/-- `file_name`: up to the first NUL, or all 100 bytes. -/
def fileName (header : List U8) : String :=
  let nameLen := ((header.take 100).findIdx? (· == 0)).getD 100
  (fromUtf8 (header.take nameLen)).getD ""

def isBlank (c : Char) : Bool := c == ' ' || c == '\x00'

/-- `size`: twelve bytes, in octal. -/
def fileSize (header : List U8) : Nat :=
  let sizeStr := trimMatches isBlank ((fromUtf8 ((header.drop 124).take 12)).getD "0")
  (fromStrRadix 8 (2 ^ 64) sizeStr.toList).getD 0

def nextOffset (dataOffset size : Nat) : Nat :=
  dataOffset + ((BitVec.ofNat 64 size + 511 : U64) &&& ~~~511).toNat

/-- The loop. The data of the file may be cut off by the end of the archive, and the file may be
absent. -/
def scan {α : Type} (raw : List U8) (name : String) (cutOff absent : α) (found : TarFile → α)
    (offset : Nat) : α :=
  if offset + 512 ≤ raw.length then
    let header := (raw.drop offset).take 512
    if header.head? = some 0 then absent
    else
      let size := fileSize header
      let dataOffset := offset + 512
      if fileName header = name then
        if dataOffset + size > raw.length then cutOff
        else found ⟨fileName header, (raw.drop dataOffset).take size⟩
      else scan raw name cutOff absent found (nextOffset dataOffset size)
  else absent
termination_by raw.length - offset
decreasing_by
  have hnext : offset + 512 ≤ nextOffset (offset + 512) (fileSize ((raw.drop offset).take 512)) :=
    Nat.le_add_right _ _
  omega

def getFile (archive : TarArchive) (name : String) : Option TarFile :=
  scan archive.rawData (trimStartMatches (· == '/') name) none none some 0

end TarArchive

def TarArchive.open (archive : TarArchive) (path : String) : Except FsError TarFile :=
  TarArchive.scan archive.rawData (trimStartMatches (· == '/') path) (.error .ioError)
    (.error .notFound) .ok 0

namespace TarArchive

section Scan

variable {α β : Type} {raw : List U8} {name : String}

/-- The loop does the same whatever it returns. -/
theorem map_scan (g : α → β) (cutOff absent : α) (found : TarFile → α) (offset : Nat) :
    g (scan raw name cutOff absent found offset) =
      scan raw name (g cutOff) (g absent) (fun file => g (found file)) offset := by
  fun_induction scan raw name cutOff absent found offset with
  | case1 offset hlen header hzero =>
    rw [scan, if_pos hlen]
    exact (if_pos hzero).symm
  | case2 offset hlen header hzero size dataOffset hname hcut =>
    rw [scan, if_pos hlen]
    rw [if_neg hzero, if_pos hname, if_pos hcut]
  | case3 offset hlen header hzero size dataOffset hname hcut =>
    rw [scan, if_pos hlen]
    rw [if_neg hzero, if_pos hname, if_neg hcut]
  | case4 offset hlen header hzero size dataOffset hname ih =>
    rw [ih]
    conv_rhs => rw [scan, if_pos hlen]
    rw [if_neg hzero, if_neg hname]
  | case5 offset hlen => rw [scan, if_neg hlen]

/-- **The two functions agree** on every archive, well-formed or not. -/
theorem getFile_eq_toOption_open (archive : TarArchive) (name : String) :
    archive.getFile name = (archive.open name).toOption := by
  rw [getFile, TarArchive.open, map_scan Except.toOption]
  rfl

/-- What is in a file is in the archive. -/
theorem length_data_le {archive : TarArchive} {file : TarFile} (h : file ∈ archive.getFile name) :
    file.data.length ≤ archive.rawData.length := by
  have hscan : ∀ name offset, ∀ file ∈ scan archive.rawData name none none some offset,
      file.data.length ≤ archive.rawData.length := by
    intro name offset
    fun_induction scan archive.rawData name none none some offset with
    | case1 | case2 | case5 => exact nofun
    | case3 =>
      intro file hfile
      rw [← Option.mem_some_iff.mp hfile]
      rw [length_take, length_drop]
      omega
    | case4 _ _ _ _ _ _ _ ih => exact ih
  exact hscan _ _ _ h

end Scan

/-! ## Archives -/

/-- A file that can be put into an archive. -/
structure Entry where
  name : String
  data : List U8
  name_ne : name ≠ ""
  length_name : (utf8 name).length ≤ 100
  noNul : 0 ∉ utf8 name
  relative : name.toList.head? ≠ some '/'
  length_data : data.length < 8 ^ 11

def Entry.file (e : Entry) : TarFile := ⟨e.name, e.data⟩

/-- How a size can be written: octal digits, and after them a NUL or a space. -/
structure SizeField (size : Nat) where
  lead : List Char
  digits : List Nat
  trail : List Char
  lead_blank : ∀ c ∈ lead, isBlank c
  digits_ne : digits ≠ []
  digits_lt : ∀ d ∈ digits, d < 8
  value : Nat.ofDigits 8 digits.reverse = size
  trail_ne : trail ≠ []
  trail_blank : ∀ c ∈ trail, isBlank c
  length_eq : lead.length + digits.length + trail.length = 12

def SizeField.text {size : Nat} (f : SizeField size) : List Char :=
  f.lead ++ (f.digits.map digitChar ++ f.trail)

/-- An entry and the bytes around it: those between name and size, those after the size, and the
padding of the data. -/
structure Record where
  entry : Entry
  size : SizeField entry.data.length
  between : List U8
  rest : List U8
  padding : List U8
  length_between : between.length = 24
  length_rest : rest.length = 376
  length_padding : padding.length < 512
  dvd_padded : 512 ∣ entry.data.length + padding.length

namespace Record

def nameField (r : Record) : List U8 :=
  utf8 r.entry.name ++ List.replicate (100 - (utf8 r.entry.name).length) 0

def header (r : Record) : List U8 :=
  r.nameField ++ (r.between ++ (asciiBytes r.size.text ++ r.rest))

def bytes (r : Record) : List U8 := r.header ++ (r.entry.data ++ r.padding)

end Record

/-- The end of the input, or a block of zeros. -/
def EndOfArchive (trailer : List U8) : Prop :=
  trailer = [] ∨ ∃ rest, trailer = List.replicate 512 0 ++ rest

def ofRecords (records : List Record) (trailer : List U8) : TarArchive :=
  ⟨records.flatMap Record.bytes ++ trailer⟩

/-- The first entry with a name. -/
def entryNamed (records : List Record) (name : String) : Option Entry :=
  (records.map (·.entry)).find? (·.name = name)

/-! ## Reading a header -/

theorem isBlank_lt {c : Char} (h : isBlank c) : c.toNat < 128 := by
  rw [isBlank, Bool.or_eq_true, beq_iff_eq, beq_iff_eq] at h
  rcases h with rfl | rfl <;> decide

theorem isBlank_digitChar {d : Nat} (hd : d < 8) : ¬ isBlank (digitChar d) := by
  interval_cases d <;> decide

theorem SizeField.text_ascii {size : Nat} (f : SizeField size) : ∀ c ∈ f.text, c.toNat < 128 := by
  intro c hc
  simp only [text, mem_append, mem_map] at hc
  rcases hc with hlead | ⟨d, hd, rfl⟩ | htrail
  · exact isBlank_lt (f.lead_blank c hlead)
  · have hlt := f.digits_lt d hd
    rw [toNat_digitChar (by omega)]
    omega
  · exact isBlank_lt (f.trail_blank c htrail)

theorem SizeField.length_text {size : Nat} (f : SizeField size) : f.text.length = 12 := by
  simp only [text, length_append, length_map, ← add_assoc, f.length_eq]

namespace Record

variable (r : Record)

theorem length_nameField : r.nameField.length = 100 := by
  rw [nameField, length_append, length_replicate]
  exact Nat.add_sub_cancel' r.entry.length_name

theorem length_header : r.header.length = 512 := by
  simp only [header, length_append, length_nameField, r.length_between, length_asciiBytes,
    r.size.length_text, r.length_rest]

theorem utf8_name_ne_nil : utf8 r.entry.name ≠ [] := by
  intro hnil
  have hempty := fromUtf8_utf8 r.entry.name
  rw [hnil] at hempty
  exact r.entry.name_ne (Option.some.inj hempty).symm

theorem head?_header_ne : r.header.head? ≠ some 0 := by
  rw [header, nameField, append_assoc, List.head?_append_of_ne_nil _ r.utf8_name_ne_nil]
  exact fun h => r.entry.noNul (mem_of_mem_head? h)

theorem take_header : r.header.take 100 = r.nameField := by
  rw [header, ← r.length_nameField, take_left]

/-- **The name** is read back. -/
theorem fileName_header : fileName r.header = r.entry.name := by
  have hlen : ((r.header.take 100).findIdx? (· == 0)).getD 100 = (utf8 r.entry.name).length := by
    have hnone : (utf8 r.entry.name).findIdx? (· == 0) = none := by
      rw [List.findIdx?_eq_none_iff]
      intro b hb
      rw [beq_eq_false_iff_ne]
      rintro rfl
      exact r.entry.noNul hb
    rw [take_header, nameField, List.findIdx?_append, hnone, Option.none_or,
      List.findIdx?_replicate]
    have hle := r.entry.length_name
    split
    · simp
    · next h =>
      simp only [beq_self_eq_true, and_true] at h
      simp only [Option.map_none, Option.getD_none]
      omega
  unfold fileName
  dsimp only
  rw [hlen, header, nameField, append_assoc, take_left, fromUtf8_utf8, Option.getD_some]

/-- **The size** is read back. -/
theorem fileSize_header : fileSize r.header = r.entry.data.length := by
  have hfield : (r.header.drop 124).take 12 = asciiBytes r.size.text := by
    have hbefore : (r.nameField ++ r.between).length = 124 := by
      rw [length_append, length_nameField, r.length_between]
    have htext : (asciiBytes r.size.text).length = 12 := by
      rw [length_asciiBytes, r.size.length_text]
    rw [header, ← append_assoc, ← hbefore, drop_left, ← htext, take_left]
  have hvalue : Nat.ofDigits 8 r.size.digits.reverse < 2 ^ 64 := by
    rw [r.size.value]
    exact r.entry.length_data.trans (by decide)
  have hdigits : ∀ c ∈ r.size.digits.map digitChar, ¬ isBlank c := by
    intro c hc
    obtain ⟨d, hd, rfl⟩ := mem_map.mp hc
    exact isBlank_digitChar (r.size.digits_lt d hd)
  unfold fileSize
  dsimp only
  rw [hfield, fromUtf8_asciiBytes r.size.text_ascii, Option.getD_some, SizeField.text,
    trimMatches_append r.size.lead_blank hdigits (mt map_eq_nil_iff.mp r.size.digits_ne)
      r.size.trail_blank,
    String.toList_ofList, fromStrRadix_digits (by decide) r.size.digits_lt r.size.digits_ne hvalue,
    Option.getD_some, r.size.value]

/-- **The next header** is after the padding. -/
theorem nextOffset_eq (dataOffset : Nat) : nextOffset dataOffset r.entry.data.length =
      dataOffset + (r.entry.data.length + r.padding.length) := by
  have hlt := r.entry.length_data
  have hpadding := r.length_padding
  obtain ⟨k, hk⟩ := r.dvd_padded
  have hsize : (BitVec.ofNat 64 r.entry.data.length + 511 : U64).toNat =
      r.entry.data.length + 511 := by
    rw [BitVec.toNat_add, BitVec.toNat_ofNat, Nat.mod_eq_of_lt (hlt.trans (by decide))]
    exact Nat.mod_eq_of_lt (Nat.lt_trans (Nat.add_lt_add_right hlt 511) (by decide))
  have hround : ((BitVec.ofNat 64 r.entry.data.length + 511 : U64) &&& ~~~511).toNat = _ :=
    toNat_and_not_mask _ 9
  rw [nextOffset, hround, hsize]
  omega

theorem length_bytes : r.bytes.length = 512 + (r.entry.data.length + r.padding.length) := by
  simp only [bytes, length_append, length_header]

/-! A record in an archive, after the bytes `pre` and before the bytes `post`. -/

variable (pre post : List U8)

theorem length_le : pre.length + 512 + r.entry.data.length ≤ (pre ++ (r.bytes ++ post)).length := by
  simp only [length_append, r.length_bytes]
  omega

theorem header_at : ((pre ++ (r.bytes ++ post)).drop pre.length).take 512 = r.header := by
  rw [drop_left, bytes, append_assoc, ← r.length_header, take_left]

theorem nextOffset_at :
    nextOffset (pre.length + 512) r.entry.data.length = (pre ++ r.bytes).length := by
  rw [r.nextOffset_eq, length_append, r.length_bytes]
  omega

end Record

variable {trailer : List U8}

/-- A header after the last record starts with a zero. -/
theorem EndOfArchive.head?_header (hend : EndOfArchive trailer) {pre : List U8}
    (hlen : pre.length + 512 ≤ (pre ++ trailer).length) :
    (((pre ++ trailer).drop pre.length).take 512).head? = some 0 := by
  rcases hend with rfl | ⟨rest, rfl⟩
  · rw [append_nil] at hlen
    omega
  · rw [drop_left, take_append_of_le_length (by rw [length_replicate])]
    rfl

/-! ## Reading an archive -/

section Records

variable {α : Type} {cutOff absent : α} {found : TarFile → α} {n : String}

/-- After the last record the loop ends. -/
theorem scan_trailer (hend : EndOfArchive trailer) (pre : List U8) :
    scan (pre ++ trailer) n cutOff absent found pre.length = absent := by
  rw [scan]
  split
  next hlen => exact if_pos (hend.head?_header hlen)
  · rfl

/-- **One record**: its file is found, or the loop goes on after it. -/
theorem scan_record (r : Record) (pre post : List U8) :
    scan (pre ++ (r.bytes ++ post)) n cutOff absent found pre.length =
      if r.entry.name = n then found r.entry.file
      else scan (pre ++ (r.bytes ++ post)) n cutOff absent found (pre ++ r.bytes).length := by
  have hlen := r.length_le pre post
  have hdata : ((pre ++ (r.bytes ++ post)).drop (pre.length + 512)).take r.entry.data.length =
      r.entry.data := by
    simp only [← drop_drop, drop_left, Record.bytes, append_assoc, ← r.length_header,
      take_left]
  conv_lhs => rw [scan, if_pos (by omega)]
  dsimp only
  rw [r.header_at, if_neg r.head?_header_ne, r.fileName_header, r.fileSize_header, hdata,
    r.nextOffset_at, if_neg (not_lt.mpr hlen)]
  rfl

/-- **The loop finds the first record with the name.** -/
theorem scan_records (hend : EndOfArchive trailer) (records : List Record)
    (pre : List U8) :
    scan (pre ++ (records.flatMap Record.bytes ++ trailer)) n cutOff absent found pre.length =
      (entryNamed records n).elim absent fun e => found e.file := by
  induction records generalizing pre with
  | nil => exact scan_trailer hend pre
  | cons r records ih =>
    rw [flatMap_cons, append_assoc, scan_record]
    by_cases hname : r.entry.name = n
    · rw [if_pos hname, entryNamed, map_cons, List.find?_cons_of_pos (by simpa using hname)]
      rfl
    · rw [if_neg hname, ← append_assoc, ih, entryNamed, entryNamed, map_cons,
        List.find?_cons_of_neg (by simpa using hname)]

end Records

/-- A name with slashes before it. -/
def withSlashes (slashes : Nat) (n : String) : String :=
  String.ofList (List.replicate slashes '/' ++ n.toList)

theorem trimStartMatches_withSlashes {n : String} (hn : n.toList.head? ≠ some '/')
    (slashes : Nat) : trimStartMatches (· == '/') (withSlashes slashes n) = n := by
  rw [withSlashes, trimStartMatches_append, String.ofList_toList]
  · intro c hc
    rw [(mem_replicate.mp hc).2]
    rfl
  · intro c hc
    rw [beq_iff_eq]
    rintro rfl
    exact hn hc

section ReadsBack

variable (records : List Record) {trailer : List U8} (hend : EndOfArchive trailer) {n : String}
  (hn : n.toList.head? ≠ some '/') (slashes : Nat)

include hend hn

theorem open_ofRecords : (ofRecords records trailer).open (withSlashes slashes n) =
      (entryNamed records n).elim (.error .notFound) fun e => .ok e.file := by
  rw [TarArchive.open, trimStartMatches_withSlashes hn]
  exact scan_records hend records []

/-- **A well-formed archive is read back exactly.** For every list of records, whatever their free
bytes are, with the end of the input or zeros after them, and for every name with any number of
slashes before it, `get_file` and `open` both return the data of the first entry with that name, and
say so if there is none. -/
theorem readsBack :
    (ofRecords records trailer).getFile (withSlashes slashes n) =
        (entryNamed records n).map Entry.file ∧
      (ofRecords records trailer).open (withSlashes slashes n) =
        (entryNamed records n).elim (.error .notFound) fun e => .ok e.file := by
  have hopen := open_ofRecords records hend hn slashes
  refine ⟨?_, hopen⟩
  rw [getFile_eq_toOption_open, hopen]
  cases entryNamed records n <;> rfl

end ReadsBack

/-! ## Writing an archive -/

/-- Eleven digits and a NUL. -/
def SizeField.ofSize {size : Nat} (hsize : size < 8 ^ 11) : SizeField size where
  lead := []
  digits := (Nat.digitsAppend 8 11 size).reverse
  trail := ['\x00']
  lead_blank := by simp
  digits_ne := by
    have hlength := Nat.length_digitsAppend (by decide) 11 hsize
    intro hnil
    rw [reverse_eq_nil_iff.mp hnil] at hlength
    cases hlength
  digits_lt d hd := Nat.lt_of_mem_digitsAppend (by decide) 11 d (mem_reverse.mp hd)
  value := by
    rw [reverse_reverse, Nat.digitsAppend, Nat.ofDigits_append_replicate_zero,
      Nat.ofDigits_digits]
  trail_ne := by simp
  trail_blank c hc := by
    rw [mem_singleton.mp hc]
    rfl
  length_eq := by
    rw [length_reverse, Nat.length_digitsAppend (by decide) 11 hsize]
    rfl

/-- Every entry can be laid out: with zeros where a record is free. -/
def Entry.record (e : Entry) : Record where
  entry := e
  size := .ofSize e.length_data
  between := List.replicate 24 0
  rest := List.replicate 376 0
  padding := List.replicate ((512 - e.data.length % 512) % 512) 0
  length_between := length_replicate
  length_rest := length_replicate
  length_padding := by
    rw [length_replicate]
    exact Nat.mod_lt _ (by decide)
  dvd_padded := by
    rw [length_replicate]
    omega

/-- An archive of the given files. -/
def ofEntries (entries : List Entry) : TarArchive :=
  ofRecords (entries.map Entry.record) (List.replicate 1024 0)

def shell : Entry := ⟨"bin/sh", [7, 8], by decide, by decide, by decide, by decide, by decide⟩

def motd : Entry := ⟨"etc/motd", [104, 105], by decide, by decide, by decide, by decide, by decide⟩

/-- The second of two files is found, and a third one is not. -/
theorem readsBack_ofEntries :
    (ofEntries [shell, motd]).getFile "//etc/motd" = some ⟨"etc/motd", [104, 105]⟩ ∧
      (ofEntries [shell, motd]).open "/etc/passwd" = .error .notFound := by
  have hend : EndOfArchive (List.replicate 1024 0) := Or.inr ⟨_, replicate_add 512 512 0⟩
  constructor
  · have hread := (readsBack ([shell, motd].map Entry.record) hend (n := "etc/motd")
      (by decide) 2).1
    exact hread
  · have hread := (readsBack ([shell, motd].map Entry.record) hend (n := "etc/passwd")
      (by decide) 1).2
    exact hread

end TarArchive

end BeastOs.Fs
