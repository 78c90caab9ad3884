import BeastOs.Fs.LoaderChecks

/-!
# Reading any bytes as an ELF file

The loader of `elf_loader.rs` with every read of the file checked, and every sum, product and
difference as well. A sum that is compared with the length of the file can wrap around before the
comparison, and so can the end of a segment.

`elf_safe_iff` says for which files none of that happens. All that can go wrong with a segment goes
wrong by its first page: from there on, the end of what was read for one page is in the file, so the
next page cannot be far behind.
-/

namespace BeastOs.UniversalExec

open BitVec Lib Paging Vmm

variable {r : U64} {ε : Type}

/-! ## Pages of a segment -/

namespace Segment

variable {segment : Segment} {i : Nat} {slice : Slice}

/-- The first and the last address of what is copied to a page, as numbers. -/
def spanStart (segment : Segment) (i : Nat) : Nat :=
  max ((segment.vaddr.toNat / 4096 + i) * 4096) segment.vaddr.toNat

def spanEnd (segment : Segment) (i : Nat) : Nat :=
  min ((segment.vaddr.toNat / 4096 + i) * 4096 + 4096)
    (segment.vaddr.toNat + segment.filesz.toNat)

/-- Some sum that has to do with a page is too large. -/
def PageWraps (segment : Segment) (i : Nat) : Prop :=
  2 ^ 64 ≤ segment.vaddr.toNat + segment.filesz.toNat ∨
    (segment.spanStart i < segment.spanEnd i ∧
      2 ^ 64 ≤ segment.offset.toNat + (segment.spanEnd i - segment.vaddr.toNat))

/-- The file ends before the part of it that belongs to a page does. -/
def PageMissing (segment : Segment) (slice : Slice) (i : Nat) : Prop :=
  segment.spanStart i < segment.spanEnd i ∧
    slice.data.data.length < segment.offset.toNat + (segment.spanEnd i - segment.vaddr.toNat)

/-- The segment and the page after it are below the end of the address space. -/
def Fits (segment : Segment) : Prop :=
  segment.vaddr.toNat + segment.memsz.toNat + 4096 < 2 ^ 64

section

variable (hfits : segment.Fits)
include hfits

theorem toNat_pageEnd :
    segment.pageEnd.toNat = (segment.vaddr.toNat + segment.memsz.toNat + 4095) / 4096 * 4096 := by
  have hlast : (segment.vaddr + segment.memsz + 4096 - 1).toNat =
      segment.vaddr.toNat + segment.memsz.toNat + 4095 := by
    unfold Fits at hfits
    bv_omega
  rw [← hlast]
  exact toNat_pageBase _

theorem pageCount_eq :
    segment.pageCount = (segment.vaddr.toNat + segment.memsz.toNat + 4095) / 4096 -
      segment.vaddr.toNat / 4096 := by
  have hend := toNat_pageEnd hfits
  have hstart := segment.toNat_pageStart
  rw [pageCount, toNat_udiv, toNat_sub_of_le (le_def.mpr (by omega)), hend, hstart]
  show _ / 4096 = _
  omega

theorem toNat_page_of_fits (hi : i < segment.pageCount) :
    (segment.page i).toNat = (segment.vaddr.toNat / 4096 + i) * 4096 ∧
      (segment.page i).toNat + 4096 < 2 ^ 64 := by
  rw [pageCount_eq hfits] at hi
  unfold Fits at hfits
  rw [segment.toNat_page, segment.toNat_pageStart]
  omega

theorem toNat_copyStart (hi : i < segment.pageCount) :
    (segment.copyStart i).toNat = segment.spanStart i := by
  rw [copyStart, toNat_maxU64, (toNat_page_of_fits hfits hi).1]
  rfl

theorem toNat_copyEnd (hi : i < segment.pageCount)
    (hfile : segment.vaddr.toNat + segment.filesz.toNat < 2 ^ 64) :
    (segment.copyEnd i).toNat = segment.spanEnd i := by
  obtain ⟨hpage, hlt⟩ := toNat_page_of_fits hfits hi
  have hnext : (segment.page i + 4096).toNat = (segment.page i).toNat + 4096 :=
    toNat_add_of_lt hlt
  rw [copyEnd, toNat_minU64, hnext, hpage, toNat_add_of_lt hfile]
  rfl

end

/-! ## All pages of a segment -/

/-- Some sum that has to do with the segment is too large: its end, or the end of its data in
memory, or the end in the file of what is copied to its first page. -/
def Wraps (segment : Segment) : Prop :=
  ¬ segment.Fits ∨
    (0 < segment.pageCount ∧
      (2 ^ 64 ≤ segment.vaddr.toNat + segment.filesz.toNat ∨
        (0 < segment.filesz.toNat ∧ 2 ^ 64 ≤ segment.offset.toNat +
          min segment.filesz.toNat (4096 - segment.vaddr.toNat % 4096))))

/-- The file ends before the data of the segment do, as far as there are pages for them. -/
def Missing (segment : Segment) (slice : Slice) : Prop :=
  0 < segment.pageCount ∧ 0 < segment.filesz.toNat ∧
    slice.data.data.length < segment.offset.toNat +
      min segment.filesz.toNat (segment.pageEnd.toNat - segment.vaddr.toNat)

theorem pageWraps_zero_iff :
    segment.PageWraps 0 ↔ 2 ^ 64 ≤ segment.vaddr.toNat + segment.filesz.toNat ∨
      (0 < segment.filesz.toNat ∧ 2 ^ 64 ≤ segment.offset.toNat +
        min segment.filesz.toNat (4096 - segment.vaddr.toNat % 4096)) := by
  unfold PageWraps spanStart spanEnd
  omega

/-- A segment that has a page has none that wraps around if the first one does not. -/
theorem not_wraps (hfits : segment.Fits) (hzero : 0 < segment.pageCount → ¬ segment.PageWraps 0) :
    ¬ segment.Wraps := by
  rintro (hnot | ⟨hpos, hwraps⟩)
  · exact hnot hfits
  · exact hzero hpos (pageWraps_zero_iff.mpr hwraps)

/-- A page after the first is where the one before it ends, so if that one is in the file, nothing
can wrap around. -/
theorem wraps_of_pageWraps {k : Nat} (hk : k < segment.pageCount)
    (hbefore : ∀ j < k, ¬ segment.PageMissing slice j) (hwraps : segment.PageWraps k) :
    segment.Wraps := by
  refine .inr ⟨Nat.zero_lt_of_lt hk, pageWraps_zero_iff.mp ?_⟩
  rcases hwraps with hle | ⟨hspan, hle⟩
  · exact .inl hle
  · cases k with
    | zero => exact .inr ⟨hspan, hle⟩
    | succ k =>
      have hlt := slice.length_lt
      have hprev := hbefore k (Nat.lt_succ_self k)
      unfold PageMissing at hprev
      unfold spanStart spanEnd at *
      omega

theorem pageMissing_of_missing (hfits : segment.Fits) (hmissing : segment.Missing slice) :
    ∃ k < segment.pageCount, segment.PageMissing slice k := by
  obtain ⟨hpos, hfilesz, hlt⟩ := hmissing
  rw [toNat_pageEnd hfits] at hlt
  rw [pageCount_eq hfits] at hpos ⊢
  -- the page in which the data end
  refine ⟨(min (segment.vaddr.toNat + segment.filesz.toNat)
    ((segment.vaddr.toNat + segment.memsz.toNat + 4095) / 4096 * 4096) - 1) / 4096 -
      segment.vaddr.toNat / 4096, by omega, ?_⟩
  unfold PageMissing spanStart spanEnd
  omega

/-- A segment in memory has pages for all of it. -/
theorem missing_of_lt (hfits : segment.Fits)
    (hpos : 0 < min segment.filesz.toNat segment.memsz.toNat)
    (hlt : slice.data.data.length <
      segment.offset.toNat + min segment.filesz.toNat segment.memsz.toNat) :
    segment.Missing slice := by
  rw [Missing, pageCount_eq hfits, toNat_pageEnd hfits]
  omega

theorem missing_of_pageMissing (hfits : segment.Fits) {k : Nat} (hk : k < segment.pageCount)
    (hmissing : segment.PageMissing slice k) : segment.Missing slice := by
  unfold PageMissing spanStart spanEnd at hmissing
  rw [Missing, toNat_pageEnd hfits]
  rw [pageCount_eq hfits] at hk ⊢
  omega

end Segment

section Ends

variable {slice : Slice} {segment : Segment} {oom short : ε} {i : Nat}

/-- The part of a page that comes from the file. -/
theorem ends_copy_strict (hfits : segment.Fits) (hi : i < segment.pageCount)
    (hfile : segment.vaddr.toNat + segment.filesz.toNat < 2 ^ 64)
    (hspan : segment.spanStart i < segment.spanEnd i) (phys : U64) :
    Traced.Ends (checkedCopy (r := r) true slice segment (.fail short) phys (segment.page i)
        (segment.copyStart i) (segment.copyEnd i))
      (fun _ => ¬ segment.PageWraps i ∧ ¬ segment.PageMissing slice i)
      fun e => e = .error oom ∨ (e = .fault ∧ segment.PageWraps i) ∨
        (e = .error short ∧ ¬ segment.PageWraps i ∧ segment.PageMissing slice i) := by
  have hcopyStart := Segment.toNat_copyStart hfits hi
  have hcopyEnd := Segment.toNat_copyEnd hfits hi hfile
  have hstart : segment.vaddr.toNat ≤ segment.spanStart i := le_max_right _ _
  have hpage : (segment.page i).toNat ≤ (segment.copyStart i).toNat := by
    rw [Segment.copyStart, Segment.toNat_maxU64]
    exact le_max_left _ _
  have hlen : (segment.copyEnd i - segment.copyStart i).toNat =
      segment.spanEnd i - segment.spanStart i := by
    rw [toNat_sub_of_le (le_def.mpr (by omega)), hcopyStart, hcopyEnd]
  have hdistance : (segment.copyStart i - segment.vaddr).toNat =
      segment.spanStart i - segment.vaddr.toNat := by
    rw [toNat_sub_of_le (le_def.mpr (by omega)), hcopyStart]
  refine .checked_bind (absurd fun _ => by omega) fun _ => ?_
  refine .checked_bind (absurd fun _ => by omega) fun _ => ?_
  refine .checked_bind (fun hwrap => .inr (.inl ⟨rfl, .inr ⟨hspan, ?_⟩⟩)) fun hoffset => ?_
  · have hle := not_lt.mp fun h => hwrap fun _ => h
    omega
  have hfileOffset := toNat_add_of_lt (hoffset rfl)
  refine .checked_bind (absurd fun _ => hpage) fun _ => ?_
  refine .checked_bind (fun hwrap => .inr (.inl ⟨rfl, .inr ⟨hspan, ?_⟩⟩)) fun hstop => ?_
  · have hle := not_lt.mp fun h => hwrap fun _ => h
    omega
  have hend := toNat_add_of_lt (hstop rfl)
  have hlength := slice.toNat_len
  have hwraps : ¬ segment.PageWraps i := by
    rintro (hle | ⟨-, hle⟩) <;> omega
  refine .ite (fun hlong => .lift (.fail ?_)) fun hfits => ?_
  · have hlt := lt_def.mp hlong
    exact .inr (.inr ⟨rfl, hwraps, hspan, by omega⟩)
  · have hle := le_def.mp (BitVec.not_lt.mp hfits)
    refine .checked_bind (absurd ?_) fun _ => ?_
    · unfold Slice.Holds
      omega
    · refine (ends_act _).imp (fun _ _ => ⟨hwraps, ?_⟩) fun _ he => he
      rintro ⟨-, hlt⟩
      omega

/-- How the load of one page ends: in a fault if a sum for it is too large, and in an error if its
data are missing. -/
theorem ends_loadPage_strict (hfits : segment.Fits) (hi : i < segment.pageCount) :
    Traced.Ends (checkedLoadPage (r := r) true slice segment oom True (.fail short) i)
      (fun _ => ¬ segment.PageWraps i ∧ ¬ segment.PageMissing slice i)
      fun e => e = .error oom ∨ (e = .fault ∧ segment.PageWraps i) ∨
        (e = .error short ∧ ¬ segment.PageWraps i ∧ segment.PageMissing slice i) := by
  obtain ⟨hpage, hnext⟩ := Segment.toNat_page_of_fits hfits hi
  have hstart := segment.toNat_pageStart
  have hindex : (BitVec.ofNat 64 i).toNat = i := by
    rw [toNat_ofNat, Nat.mod_eq_of_lt (by omega)]
  have hmul : (BitVec.ofNat 64 i).toNat * (4096 : U64).toNat < 2 ^ 64 := by
    rw [hindex]
    show i * 4096 < _
    omega
  have hadd : segment.pageStart.toNat + (BitVec.ofNat 64 i * 4096).toNat < 2 ^ 64 := by
    rw [toNat_mul_of_lt hmul, hindex, hstart]
    show _ + i * 4096 < _
    omega
  refine .checked_bind (absurd fun _ => hmul) fun _ => ?_
  refine .checked_bind (absurd fun _ => hadd) fun _ => ?_
  refine .bind (ends_allocPage (.inl rfl)) fun phys _ => .checked_bind (absurd trivial) fun _ => ?_
  refine .bind (ends_mapPageWithFlags (.inl rfl) _ _ _) fun _ _ => .bind (ends_act _) fun _ _ => ?_
  refine .checked_bind (fun hwrap => .inr (.inl ⟨rfl, .inl ?_⟩)) fun hfile => ?_
  · exact not_lt.mp fun h => hwrap fun _ => h
  refine .checked_bind (absurd fun _ => hnext) fun _ => ?_
  have hcopy : segment.copyStart i < segment.copyEnd i ↔
      segment.spanStart i < segment.spanEnd i := by
    rw [lt_def, Segment.toNat_copyStart hfits hi, Segment.toNat_copyEnd hfits hi (hfile rfl)]
  refine .ite (fun h => ?_) fun h => ?_
  · exact ends_copy_strict hfits hi (hfile rfl) (hcopy.mp h) phys
  · have hspan : ¬ segment.spanStart i < segment.spanEnd i := fun hlt => h (hcopy.mpr hlt)
    refine .ret ⟨?_, fun hmissing => hspan hmissing.1⟩
    rintro (hle | ⟨hlt, -⟩)
    · exact not_lt.mpr hle (hfile rfl)
    · exact hspan hlt

/-- **What goes wrong when a segment is loaded.** -/
theorem ends_loadPages_strict :
    Traced.Ends (checkedLoadPages (r := r) true slice segment oom True (.fail short))
      (fun _ => ¬ segment.Wraps ∧ ¬ segment.Missing slice)
      fun e => e = .error oom ∨ (e = .fault ∧ segment.Wraps) ∨
        (e = .error short ∧ ¬ segment.Wraps ∧ segment.Missing slice) := by
  refine .bind (ends_act _) fun _ _ => ?_
  refine .checked_bind (fun hwrap => .inr (.inl ⟨rfl, .inl fun hfits => ?_⟩)) fun hend => ?_
  · refine hwrap fun _ => ?_
    unfold Segment.Fits at hfits
    omega
  have hsum := toNat_add_of_lt (hend rfl)
  refine .checked_bind (fun hwrap => .inr (.inl ⟨rfl, .inl fun hfits => ?_⟩)) fun hbeyond => ?_
  · refine hwrap fun _ => ?_
    rw [hsum]
    exact hfits
  have hfits : segment.Fits := by
    have hlt := hbeyond rfl
    rw [hsum] at hlt
    exact hlt
  have hlast : (1 : U64).toNat ≤ (segment.vaddr + segment.memsz + 4096).toNat := by
    rw [toNat_add_of_lt (hbeyond rfl)]
    exact Nat.le_add_left_of_le (by decide)
  have hsize : segment.pageStart.toNat ≤ segment.pageEnd.toNat := by
    rw [Segment.toNat_pageEnd hfits, segment.toNat_pageStart]
    omega
  refine .checked_bind (absurd fun _ => hlast) fun _ => ?_
  refine .checked_bind (absurd fun _ => hsize) fun _ => ?_
  refine (Traced.Ends.forM_range fun i hi => ends_loadPage_strict hfits hi).imp ?_ ?_
  · intro _ hpages
    refine ⟨Segment.not_wraps hfits fun hpos => (hpages 0 hpos).1, fun hmissing => ?_⟩
    obtain ⟨k, hk, hpage⟩ := Segment.pageMissing_of_missing hfits hmissing
    exact (hpages k hk).2 hpage
  · rintro e ⟨k, hk, hbefore, rfl | ⟨rfl, hwraps⟩ | ⟨rfl, hwraps, hmissing⟩⟩
    · exact .inl rfl
    · exact .inr (.inl ⟨rfl, Segment.wraps_of_pageWraps hk (fun j hj => (hbefore j hj).2) hwraps⟩)
    · refine .inr (.inr ⟨rfl, Segment.not_wraps hfits fun _ => ?_,
        Segment.missing_of_pageMissing hfits hk hmissing⟩)
      rcases Nat.eq_zero_or_pos k with rfl | hpos
      · exact hwraps
      · exact (hbefore 0 hpos).1

end Ends

/-- The header that a file starts with. -/
def Slice.ehdr (slice : Slice) : Elf64Ehdr := Elf64Ehdr.read slice.byte

/-! ## The code -/

namespace LoadedElf

def checkedLoadHeader (slice : Slice) (ehdr : Elf64Ehdr) (i : Nat) :
    Load r (WithFault ElfError) Unit := do
  let distance ← mul true (BitVec.ofNat 64 i) (ehdr.ePhentsize.setWidth 64)
  let phdrOffset ← add true ehdr.ePhoff distance
  let stop ← add true phdrOffset 56
  .failIf (stop > slice.len) (.error .readFailed)
  let phdr ← readAt slice phdrOffset 56 fun peek => Elf64Phdr.read peek phdrOffset
  if phdr.pType = 1 then
    checkedLoadPages true slice (segment phdr) .outOfMemory True (.fail .readFailed)
  else pure ()

def checkedLoad (slice : Slice) : Load r (WithFault ElfError) LoadedElf := do
  .failIf (slice.len < 64) (.error .readFailed)
  let ehdr ← readAt slice 0 64 Elf64Ehdr.read
  .failIf (ehdr.magic ≠ 0x464C457F) (.error .badMagic)
  .failIf (ehdr.eClass ≠ 2) (.error .not64Bit)
  .failIf (ehdr.eData ≠ 1) (.error .wrongEndian)
  .failIf (ehdr.eType ≠ 2 ∧ ehdr.eType ≠ 3) (.error .notExecutable)
  .failIf (ehdr.ePhnum = 0) (.error .noProgramHeaders)
  (List.range ehdr.ePhnum.toNat).forM (checkedLoadHeader slice ehdr)
  pure ⟨ehdr.eEntry, ehdr.ePhoff, ehdr.ePhnum⟩

variable {slice : Slice} {peek : U64 → U8} {offset : U64} {ehdr : Elf64Ehdr} {i : Nat}

/-! ## The code with checks is the code -/

theorem ehdr_eq (hshows : slice.Shows peek) (hin : slice.Holds 0 64) :
    Elf64Ehdr.read peek = slice.ehdr := by
  have hpart : ∀ (a : U64) n, a.toNat + n ≤ 64 → slice.Holds a n := by
    intro a n ha
    have hlength : 0 + 64 ≤ slice.data.data.length := hin
    unfold Slice.Holds
    omega
  have hmagic := Slice.readU32_eq hshows (hpart 0 4 (by decide))
  have hclass : peek 4 = slice.byte 4 := hshows 4 (hpart 4 1 (by decide))
  have hdata : peek 5 = slice.byte 5 := hshows 5 (hpart 5 1 (by decide))
  have htype := Slice.readU16_eq hshows (hpart 16 2 (by decide))
  have hentry := Slice.readU64_eq hshows (hpart 24 8 (by decide))
  have hphoff := Slice.readU64_eq hshows (hpart 32 8 (by decide))
  have hphentsize := Slice.readU16_eq hshows (hpart 54 2 (by decide))
  have hphnum := Slice.readU16_eq hshows (hpart 56 2 (by decide))
  unfold Slice.ehdr Elf64Ehdr.read
  rw [hmagic, hclass, hdata, htype, hentry, hphoff, hphentsize, hphnum]

theorem phdr_eq (hshows : slice.Shows peek) (hin : slice.Holds offset 56) :
    Elf64Phdr.read peek offset = Elf64Phdr.read slice.byte offset := by
  have htype : readU32 peek offset = readU32 slice.byte offset :=
    Slice.readU32_eq hshows (hin.mono (by decide))
  have hflags : readU32 peek (offset + 4) = readU32 slice.byte (offset + 4) :=
    Slice.readU32_eq hshows (hin.part (k := 4) (by decide))
  have hfield : ∀ a : U64, a.toNat + 8 ≤ 56 →
      readU64 peek (offset + a) = readU64 slice.byte (offset + a) := by
    intro a ha
    simpa using Slice.readU64_eq hshows (hin.part ha)
  unfold Elf64Phdr.read
  rw [htype, hflags, hfield 8 (by decide), hfield 16 (by decide), hfield 32 (by decide),
    hfield 40 (by decide)]

theorem checks_loadHeader (slice : Slice) (ehdr : Elf64Ehdr) (i : Nat) :
    Traced.Checks (checkedLoadHeader (r := r) slice ehdr i) (loadHeader slice ehdr i) := by
  refine .checked_bind fun _ => .checked_bind fun _ => .checked_bind fun _ => ?_
  refine .bind (.failIf _ _) fun _ => .checked_bind fun hin => .of_reads fun σ => ?_
  rw [phdr_eq (slice.shows_peek σ) hin]
  exact .ite (checks_loadPages true slice _ _ True _) (.ret ())

theorem checks_load (slice : Slice) : Traced.Checks (checkedLoad (r := r) slice) (load slice) := by
  refine .bind (.failIf _ _) fun _ => .checked_bind fun hin => .of_reads fun σ => ?_
  rw [ehdr_eq (slice.shows_peek σ) hin]
  refine .bind (.failIf _ _) fun _ => .bind (.failIf _ _) fun _ => .bind (.failIf _ _) fun _ => ?_
  refine .bind (.failIf _ _) fun _ => .bind (.failIf _ _) fun _ => ?_
  exact .bind (.forM fun i _ => checks_loadHeader slice _ i) fun _ => .ret _

/-! ## Which files are safe -/

/-- The file starts with a header that is accepted. -/
def ValidHeader (slice : Slice) : Prop :=
  slice.Holds 0 64 ∧ slice.ehdr.magic = 0x464C457F ∧
    slice.ehdr.eClass = 2 ∧ slice.ehdr.eData = 1 ∧
    (slice.ehdr.eType = 2 ∨ slice.ehdr.eType = 3) ∧
    slice.ehdr.ePhnum ≠ 0

instance (slice : Slice) : Decidable (ValidHeader slice) :=
  inferInstanceAs (Decidable (_ ∧ _ ∧ _ ∧ _ ∧ _ ∧ _))

/-- Where a program header ends. -/
def headerEnd (ehdr : Elf64Ehdr) (i : Nat) : Nat :=
  ehdr.ePhoff.toNat + i * ehdr.ePhentsize.toNat + 56

def headerOffset (ehdr : Elf64Ehdr) (i : Nat) : U64 :=
  ehdr.ePhoff + BitVec.ofNat 64 i * ehdr.ePhentsize.setWidth 64

def programHeader (slice : Slice) (ehdr : Elf64Ehdr) (i : Nat) : Elf64Phdr :=
  Elf64Phdr.read slice.byte (headerOffset ehdr i)

/-- Some sum that has to do with a program header or its segment is too large. -/
def HeaderWraps (slice : Slice) (ehdr : Elf64Ehdr) (i : Nat) : Prop :=
  2 ^ 64 ≤ headerEnd ehdr i ∨
    (headerEnd ehdr i ≤ slice.data.data.length ∧ (programHeader slice ehdr i).pType = 1 ∧
      (segment (programHeader slice ehdr i)).Wraps)

/-- The file ends before a program header or the data of its segment do. -/
def HeaderMissing (slice : Slice) (ehdr : Elf64Ehdr) (i : Nat) : Prop :=
  slice.data.data.length < headerEnd ehdr i ∨
    ((programHeader slice ehdr i).pType = 1 ∧
      (segment (programHeader slice ehdr i)).Missing slice)

/-- No sum is too large that has to do with a program header up to the first that is missing from
the file, or whose data are. -/
def Bounded (slice : Slice) : Prop :=
  ValidHeader slice → ∀ i < slice.ehdr.ePhnum.toNat,
    (∀ j < i, ¬ HeaderMissing slice slice.ehdr j) →
      ¬ HeaderWraps slice slice.ehdr i

/-- The data of a segment, as far as they belong into memory, are not all in the file. -/
def DataOutside (slice : Slice) (phdr : Elf64Phdr) : Prop :=
  phdr.pType = 1 ∧ 0 < min phdr.pFilesz.toNat phdr.pMemsz.toNat ∧
    slice.data.data.length < phdr.pOffset.toNat + min phdr.pFilesz.toNat phdr.pMemsz.toNat

/-- Files that should not be accepted: there is no proper header, or the file ends before a program
header or the data of a segment do. -/
def Malformed (slice : Slice) : Prop :=
  ValidHeader slice → ∃ i < slice.ehdr.ePhnum.toNat,
    slice.data.data.length < headerEnd slice.ehdr i ∨
      DataOutside slice (programHeader slice slice.ehdr i)

/-- The numbers of 16 bits that are multiplied are small. -/
theorem toNat_headerDistance (hi : i < ehdr.ePhnum.toNat) :
    (BitVec.ofNat 64 i).toNat * (ehdr.ePhentsize.setWidth 64 : U64).toNat < 2 ^ 64 ∧
      (BitVec.ofNat 64 i * ehdr.ePhentsize.setWidth 64 : U64).toNat =
        i * ehdr.ePhentsize.toNat := by
  have hnum := ehdr.ePhnum.isLt
  have hindex : (BitVec.ofNat 64 i).toNat = i := by
    rw [toNat_ofNat, Nat.mod_eq_of_lt (by omega)]
  have hsize : (ehdr.ePhentsize.setWidth 64 : U64).toNat = ehdr.ePhentsize.toNat :=
    toNat_setWidth_of_le (by decide)
  have hmul : (BitVec.ofNat 64 i).toNat * (ehdr.ePhentsize.setWidth 64 : U64).toNat < 2 ^ 64 := by
    rw [hindex, hsize]
    exact (Nat.mul_lt_mul'' (lt_trans hi hnum) ehdr.ePhentsize.isLt).trans (by decide)
  exact ⟨hmul, by rw [toNat_mul_of_lt hmul, hindex, hsize]⟩

/-- A program header that ends in the file is in the file. -/
theorem holds_headerOffset (hi : i < ehdr.ePhnum.toNat)
    (h : headerEnd ehdr i ≤ slice.data.data.length) : slice.Holds (headerOffset ehdr i) 56 := by
  have hlength := slice.length_lt
  have hdistance := (toNat_headerDistance hi).2
  unfold headerEnd at h
  unfold Slice.Holds headerOffset
  rw [toNat_add, hdistance]
  omega

theorem ends_loadHeader (slice : Slice) (hi : i < ehdr.ePhnum.toNat) :
    Traced.Ends (checkedLoadHeader (r := r) slice ehdr i)
      (fun _ => ¬ HeaderWraps slice ehdr i ∧ ¬ HeaderMissing slice ehdr i)
      fun e => e = .error .outOfMemory ∨ (e = .fault ∧ HeaderWraps slice ehdr i) ∨
        (e = .error .readFailed ∧ ¬ HeaderWraps slice ehdr i ∧ HeaderMissing slice ehdr i) := by
  have hlength := slice.toNat_len
  obtain ⟨hmul, hdistance⟩ := toNat_headerDistance hi
  have hend : headerEnd ehdr i = ehdr.ePhoff.toNat + i * ehdr.ePhentsize.toNat + 56 := rfl
  refine .checked_bind (absurd fun _ => hmul) fun _ => ?_
  refine .checked_bind (fun hwrap => .inr (.inl ⟨rfl, .inl ?_⟩)) fun hstart => ?_
  · have hle := not_lt.mp fun h => hwrap fun _ => h
    omega
  have hoffset : (headerOffset ehdr i).toNat = _ := toNat_add_of_lt (hstart rfl)
  refine .checked_bind (fun hwrap => .inr (.inl ⟨rfl, .inl ?_⟩)) fun hstop => ?_
  · have hle : 2 ^ 64 ≤ (headerOffset ehdr i).toNat + 56 :=
      not_lt.mp fun h => hwrap fun _ => h
    omega
  have hlt : (headerOffset ehdr i).toNat + 56 < 2 ^ 64 := hstop rfl
  have hstop : (headerOffset ehdr i + 56).toNat = headerEnd ehdr i := by
    rw [toNat_add_of_lt hlt, hend]
    show (headerOffset ehdr i).toNat + 56 = _
    omega
  have hbelow : ¬ 2 ^ 64 ≤ headerEnd ehdr i := by omega
  refine .bind (.failIf fun hlong => .inr (.inr ⟨rfl, ?_, .inl ?_⟩)) fun _ hshort => ?_
  · have hlong : slice.len < headerOffset ehdr i + 56 := hlong
    rw [lt_def, hlength, hstop] at hlong
    rintro (hle | ⟨hle, -⟩)
    · exact hbelow hle
    · exact not_le.mpr hlong hle
  · have hlong : slice.len < headerOffset ehdr i + 56 := hlong
    rwa [lt_def, hlength, hstop] at hlong
  have hshort : headerEnd ehdr i ≤ slice.data.data.length := by
    have hle : headerOffset ehdr i + 56 ≤ slice.len := BitVec.not_lt.mp hshort
    rwa [le_def, hlength, hstop] at hle
  refine .checked_bind (absurd (holds_headerOffset hi hshort)) fun _ =>
    .ite (fun hload => ?_) fun hload => ?_
  · have hload : (programHeader slice ehdr i).pType = 1 := hload
    have hwraps : HeaderWraps slice ehdr i ↔ (segment (programHeader slice ehdr i)).Wraps :=
      ⟨fun h => (h.resolve_left hbelow).2.2, fun h => .inr ⟨hshort, hload, h⟩⟩
    have hmissing : HeaderMissing slice ehdr i ↔
        (segment (programHeader slice ehdr i)).Missing slice :=
      ⟨fun h => (h.resolve_left (not_lt.mpr hshort)).2, fun h => .inr ⟨hload, h⟩⟩
    rw [hwraps, hmissing]
    exact ends_loadPages_strict
  · have hload : (programHeader slice ehdr i).pType ≠ 1 := hload
    refine .ret ⟨?_, ?_⟩
    · rintro (hle | ⟨-, htype, -⟩)
      · exact hbelow hle
      · exact hload htype
    · rintro (hlt | ⟨htype, -⟩)
      · exact not_lt.mpr hshort hlt
      · exact hload htype

theorem ends_load (slice : Slice) : Traced.Ends (checkedLoad (r := r) slice)
      (fun _ => ValidHeader slice ∧ ∀ i < slice.ehdr.ePhnum.toNat,
        ¬ HeaderWraps slice slice.ehdr i ∧
          ¬ HeaderMissing slice slice.ehdr i)
      fun e => e = .error .outOfMemory ∨ (e = .fault ∧ ¬ Bounded slice) ∨
        (e ≠ .fault ∧ Bounded slice) := by
  have hlength := slice.toNat_len
  have hbad : ∀ {e : ElfError}, ¬ ValidHeader slice →
      (WithFault.error e = .error .outOfMemory ∨
        (WithFault.error e = .fault ∧ ¬ Bounded slice) ∨
        (WithFault.error e ≠ .fault ∧ Bounded slice)) :=
    fun h => .inr (.inr ⟨nofun, fun hvalid => absurd hvalid h⟩)
  refine .bind (.failIf fun hshort => hbad fun h => ?_) fun _ hlong => ?_
  · have hle : 0 + 64 ≤ slice.data.data.length := h.1
    bv_omega
  have hin : slice.Holds 0 64 := by
    unfold Slice.Holds
    bv_omega
  refine .checked_bind (absurd hin) fun _ => ?_
  refine .bind (.failIf fun hne => hbad fun h => hne h.2.1) fun _ hmagic => ?_
  refine .bind (.failIf fun hne => hbad fun h => hne h.2.2.1) fun _ hclass => ?_
  refine .bind (.failIf fun hne => hbad fun h => hne h.2.2.2.1) fun _ hdata => ?_
  refine .bind (.failIf fun hne => hbad fun h => ?_) fun _ htype => ?_
  · exact h.2.2.2.2.1.elim hne.1 hne.2
  refine .bind (.failIf fun hzero => hbad fun h => h.2.2.2.2.2 hzero) fun _ hnum => ?_
  have hvalid : ValidHeader slice := by
    refine ⟨hin, not_not.mp hmagic, not_not.mp hclass, not_not.mp hdata, ?_, hnum⟩
    rcases not_and_or.mp htype with h | h
    · exact .inl (not_not.mp h)
    · exact .inr (not_not.mp h)
  refine .bind ((Traced.Ends.forM_range fun i hi => ends_loadHeader slice hi).imp (fun _ h => h) ?_)
    fun _ hall => .ret ⟨hvalid, hall⟩
  rintro e ⟨k, hk, hbefore, rfl | ⟨rfl, hwraps⟩ | ⟨rfl, hwraps, hmissing⟩⟩
  · exact .inl rfl
  · exact .inr (.inl ⟨rfl, fun h => h hvalid k hk (fun j hj => (hbefore j hj).2) hwraps⟩)
  · -- the loop has stopped at the first header that is not all there
    refine .inr (.inr ⟨nofun, fun _ i hi hpresent => ?_⟩)
    rcases Nat.lt_trichotomy i k with hlt | rfl | hgt
    · exact (hbefore i hlt).1
    · exact hwraps
    · exact absurd hmissing (hpresent k hgt)

/-- A file that is accepted is not malformed. -/
theorem not_malformed (hvalid : ValidHeader slice)
    (hall : ∀ i < slice.ehdr.ePhnum.toNat,
      ¬ HeaderWraps slice slice.ehdr i ∧
        ¬ HeaderMissing slice slice.ehdr i) : ¬ Malformed slice := by
  intro hmalformed
  obtain ⟨i, hi, hlt | ⟨htype, hpos, hlt⟩⟩ := hmalformed hvalid
  · exact (hall i hi).2 (.inl hlt)
  · obtain ⟨hwraps, hmissing⟩ := hall i hi
    have hheader := not_lt.mp fun h => hmissing (.inl h)
    have hfits : (segment (programHeader slice slice.ehdr i)).Fits :=
      not_not.mp fun h => hwraps (.inr ⟨hheader, htype, .inl h⟩)
    exact hmissing (.inr ⟨htype, Segment.missing_of_lt hfits hpos hlt⟩)

/-- **No read is outside of the file, no sum is too large, and malformed files are rejected**, if
and only if the sums that have to do with its headers and segments are not too large; unless there
is not enough memory to get to the first that is. -/
theorem elf_safe_iff (slice : Slice) (σ : Machine) :
    (Traced.Passes σ (checkedLoad (r := r) slice) (load slice) ∧
        (Malformed slice → ∃ e, (load (r := r) slice σ).result = .error e)) ↔
      ((checkedLoad (r := r) slice σ).result ≠ .error (.error .outOfMemory) → Bounded slice) := by
  have hends := ends_load (r := r) slice
  have hsafe := (hends.imp (fun _ h _ i hi _ => (h.2 i hi).1) fun _ he => he).ne_fault_iff σ
  rw [(checks_load slice).passes_iff σ, hsafe, and_iff_left_iff_imp]
  intro hbounded hmalformed
  have hpasses := ((checks_load (r := r) slice).passes_iff σ).mpr (hsafe.mpr hbounded)
  cases hload : (load (r := r) slice σ).result with
  | error e => exact ⟨e, rfl⟩
  | ok elf =>
    have hresult := hpasses.1
    rw [hload] at hresult
    obtain ⟨hvalid, hall⟩ := (hends σ).1 elf hresult
    exact absurd hmalformed (not_malformed hvalid hall)

/-- A header whose program headers are at the very end of the address space. -/
def wrappedSlice : Slice where
  data := ⟨[0x7F, 0x45, 0x4C, 0x46, 2, 1] ++ List.replicate 10 0 ++ field 2 2 ++
    List.replicate 6 0 ++ field 8 0x400000 ++ field 8 0xFFFFFFFFFFFFFFF8 ++ List.replicate 14 0 ++
    field 2 56 ++ field 2 1 ++ List.replicate 6 0, by decide⟩
  around := fun _ _ => 0

/-- The end of the program header wraps around to 48, so that it seems to be in the file. -/
theorem not_elf_safe_wrapped :
    ¬ Traced.Passes (smallSystem.create 0x2000).machine (checkedLoad (r := 0x2000) wrappedSlice)
        (load wrappedSlice) ∧
      Malformed wrappedSlice ∧
      (load (r := 0x2000) wrappedSlice (smallSystem.create 0x2000).machine).result =
        .ok ⟨0x400000, 0xFFFFFFFFFFFFFFF8, 1⟩ := by
  have hfault : (checkedLoad (r := 0x2000) wrappedSlice
      (smallSystem.create 0x2000).machine).result = .error .fault := by
    decide +kernel
  have hend : wrappedSlice.data.data.length < headerEnd wrappedSlice.ehdr 0 := by
    decide +kernel
  exact ⟨fun h => h.result_ne hfault, fun _ => ⟨0, by decide +kernel, .inl hend⟩, by decide +kernel⟩

end LoadedElf

end BeastOs.UniversalExec
