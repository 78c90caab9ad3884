import BeastOs.Fs.LoaderChecks

/-!
# Reading any bytes as a PE file

The loader of `pe_loader.rs` with every read of the file checked. `pe_safe`: no check ever fails.
Offsets are made of fields of 32 bits, so the sums of them do not wrap around; and the part of a
section that is copied to a page is a part of its raw data, even if the section is at the end of the
address space.
-/

namespace BeastOs.UniversalExec.PeLoader

open Lib Paging Vmm

variable {r : U64} {slice : Slice}

/-! ## The code -/

/-- The fields of a section header are read one by one. -/
def checkedLoadHeader (slice : Slice) (imageBase sectionHeaderOffset : U64) (i : Nat) :
    Load r (WithFault Stop) Unit := do
  let sectionOffset := sectionHeaderOffset + BitVec.ofNat 64 i * 40
  let virtualSize ← readU32At slice (sectionOffset + 8)
  if virtualSize = 0 then pure ()
  else do
    let virtualAddress ← readU32At slice (sectionOffset + 12)
    let sizeOfRawData ← readU32At slice (sectionOffset + 16)
    let pointerToRawData ← readU32At slice (sectionOffset + 20)
    let characteristics ← readU32At slice (sectionOffset + 36)
    let sec : PeSectionHeader :=
      ⟨virtualSize, virtualAddress, sizeOfRawData, pointerToRawData, characteristics⟩
    checkedLoadPages false slice (segment imageBase sec) (.error .outOfMemory) True (pure ())

/-- The header is in the file, but the import table is in memory. -/
def checkedPatchImports (slice : Slice) (optionalHeaderOffset imageBase stubsBase : U64)
    (fuel : Nat) : Load r (WithFault Stop) Unit := do
  let numDirectories ← readU32At slice (optionalHeaderOffset + 108)
  if 1 ≥ numDirectories then pure ()
  else do
    let importDirAddr ← readU32At slice (optionalHeaderOffset + 120)
    if importDirAddr = 0 then pure ()
    else .lift (patchDescriptors imageBase stubsBase fuel importDirAddr)

def checkedLoad (slice : Slice) (fuel : Nat) : Load r (WithFault Stop) LoadedImage := do
  let stubsBase ← .lift (PePatcher.createStubs (.error .outOfMemory))
  .failIf (slice.len < 64) (.error (.error .invalidFormat))
  let eMagic ← readU16At slice 0
  .failIf (eMagic ≠ 0x5A4D) (.error (.error .invalidFormat))
  let eLfanew ← readU32At slice 60
  let ntHeaderOffset : U64 := eLfanew.setWidth 64
  .failIf (slice.len < ntHeaderOffset + 4 + 20) (.error (.error .invalidFormat))
  let signature ← readU32At slice ntHeaderOffset
  .failIf (signature ≠ 0x00004550) (.error (.error .invalidFormat))
  let optionalHeaderOffset := ntHeaderOffset + 4 + 20
  .failIf (slice.len < optionalHeaderOffset + 240) (.error (.error .invalidFormat))
  let magic ← readU16At slice optionalHeaderOffset
  .failIf (magic ≠ 0x20b) (.error (.error .invalidFormat))
  let imageBase ← readU64At slice (optionalHeaderOffset + 24)
  let addressOfEntryPoint ← readU32At slice (optionalHeaderOffset + 16)
  let entryPoint := imageBase + addressOfEntryPoint.setWidth 64
  let numSections ← readU16At slice (ntHeaderOffset + 4 + 2)
  let sizeOfOptionalHeader ← readU16At slice (ntHeaderOffset + 4 + 16)
  let sectionHeaderOffset := optionalHeaderOffset + sizeOfOptionalHeader.setWidth 64
  .failIf (slice.len < sectionHeaderOffset + numSections.setWidth 64 * 40)
    (.error (.error .invalidFormat))
  (List.range numSections.toNat).forM (checkedLoadHeader slice imageBase sectionHeaderOffset)
  checkedPatchImports slice optionalHeaderOffset imageBase stubsBase fuel
  pure ⟨entryPoint⟩

/-! ## The code with checks is the code -/

theorem checks_loadHeader (slice : Slice) (imageBase sectionHeaderOffset : U64) (i : Nat) :
    Traced.Checks (checkedLoadHeader (r := r) slice imageBase sectionHeaderOffset i)
      (loadHeader slice imageBase sectionHeaderOffset i) := by
  refine .of_reads fun σ => .checked_bind fun hsize => ?_
  have hshows := slice.shows_peek σ
  have hvirtualSize := Slice.readU32_eq hshows hsize
  dsimp only [PeSectionHeader.read]
  rw [hvirtualSize]
  refine .ite (.ret ()) ?_
  refine .checked_bind fun h₁ => .checked_bind fun h₂ => .checked_bind fun h₃ => ?_
  refine .checked_bind fun h₄ => ?_
  rw [Slice.readU32_eq hshows h₁, Slice.readU32_eq hshows h₂, Slice.readU32_eq hshows h₃,
    Slice.readU32_eq hshows h₄]
  exact checks_loadPages false slice _ _ True _

theorem checks_load (slice : Slice) (fuel : Nat) :
    Traced.Checks (checkedLoad (r := r) slice fuel) (load slice fuel) := by
  refine .bind (.lift _) fun stubsBase => .bind (.failIf _ _) fun _ => .of_reads fun σ => ?_
  have hshows := slice.shows_peek σ
  dsimp only [PeFileHeader.read, PeOptionalHeader64.read]
  refine .checked_bind fun hin => ?_
  rw [Slice.readU16_eq hshows hin]
  refine .bind (.failIf _ _) fun _ => .checked_bind fun hin => ?_
  rw [Slice.readU32_eq hshows hin]
  refine .bind (.failIf _ _) fun _ => .checked_bind fun hin => ?_
  rw [Slice.readU32_eq hshows hin]
  refine .bind (.failIf _ _) fun _ => .bind (.failIf _ _) fun _ => .checked_bind fun hin => ?_
  rw [Slice.readU16_eq hshows hin]
  refine .bind (.failIf _ _) fun _ => .checked_bind fun hin => ?_
  rw [Slice.readU64_eq hshows hin]
  refine .checked_bind fun hin => ?_
  rw [Slice.readU32_eq hshows hin]
  refine .checked_bind fun hin => ?_
  rw [Slice.readU16_eq hshows hin]
  refine .checked_bind fun hin => ?_
  rw [Slice.readU16_eq hshows hin]
  refine .bind (.failIf _ _) fun _ => ?_
  refine .bind (.forM fun i _ => checks_loadHeader slice _ _ i) fun _ => ?_
  refine .bind ?_ fun _ => .ret _
  refine .checked_bind fun hin => ?_
  rw [Slice.readU32_eq hshows hin]
  refine .ite (.ret ()) (.checked_bind fun hin => ?_)
  rw [Slice.readU32_eq hshows hin]
  exact .ite (.ret ()) (.lift _)

/-! ## No check fails -/

/-- A section is as large as 32 bits allow, so what is read of it does not wrap around. -/
theorem not_readsOutside (imageBase : U64) (sec : PeSectionHeader) (i : Nat) (slice : Slice) :
    ¬ (segment imageBase sec).ReadsOutside i slice := by
  rintro ⟨hcopy, hfile, hout⟩
  have hbounds := Segment.copy_bounds hcopy
  have hlen := Segment.toNat_copyLen hcopy
  have hoffset := Segment.toNat_fileOffset hcopy
  have hraw : (segment imageBase sec).offset.toNat < 2 ^ 32 := by
    rw [segment, BitVec.toNat_setWidth]
    omega
  have hsize : (segment imageBase sec).filesz.toNat < 2 ^ 32 := by
    rw [segment, BitVec.toNat_setWidth]
    omega
  rw [BitVec.le_def, BitVec.toNat_add, slice.toNat_len] at hfile
  unfold Slice.Holds at hout
  omega

theorem ends_loadHeader {imageBase sectionHeaderOffset : U64} {n i : Nat}
    (hheaders : slice.Holds sectionHeaderOffset (n * 40)) (hi : i < n) :
    Traced.Ends (checkedLoadHeader (r := r) slice imageBase sectionHeaderOffset i)
      (fun _ => True) (· ≠ .fault) := by
  have hheader : slice.Holds (sectionHeaderOffset + BitVec.ofNat 64 i * 40) 40 := by
    have hpart : slice.Holds (sectionHeaderOffset + BitVec.ofNat 64 (i * 40)) 40 :=
      hheaders.part (by omega)
    rwa [BitVec.ofNat_mul] at hpart
  have hfield : ∀ k, k + 4 ≤ 40 →
      slice.Holds (sectionHeaderOffset + BitVec.ofNat 64 i * 40 + BitVec.ofNat 64 k) 4 :=
    fun _ hk => hheader.part hk
  refine ends_readAt_bind (hfield 8 (by decide)) fun _ => .ite (fun _ => .ret trivial) fun _ => ?_
  refine ends_readAt_bind (hfield 12 (by decide)) fun _ => ?_
  refine ends_readAt_bind (hfield 16 (by decide)) fun _ => ?_
  refine ends_readAt_bind (hfield 20 (by decide)) fun _ => ?_
  refine ends_readAt_bind (hfield 36 (by decide)) fun _ => ?_
  refine ends_loadPages_wrapping.imp (fun _ _ => trivial) ?_
  rintro e (rfl | ⟨rfl, i, -, hout⟩)
  · exact nofun
  · exact absurd (hout trivial) (not_readsOutside _ _ i slice)

theorem ends_patchImports {optionalHeaderOffset imageBase stubsBase : U64} {fuel : Nat}
    (hheader : slice.Holds optionalHeaderOffset 240) :
    Traced.Ends (checkedPatchImports (r := r) slice optionalHeaderOffset imageBase stubsBase fuel)
      (fun _ => True) (· ≠ .fault) := by
  have hfield : ∀ k, k + 4 ≤ 240 → slice.Holds (optionalHeaderOffset + BitVec.ofNat 64 k) 4 :=
    fun _ hk => hheader.part hk
  refine ends_readAt_bind (hfield 108 (by decide)) fun _ => .ite (fun _ => .ret trivial) fun _ => ?_
  refine ends_readAt_bind (hfield 120 (by decide)) fun _ => .ite (fun _ => .ret trivial) fun _ => ?_
  exact .lift fun _ => ⟨fun _ _ => trivial, fun _ _ => nofun⟩

theorem ends_load (slice : Slice) (fuel : Nat) :
    Traced.Ends (checkedLoad (r := r) slice fuel) (fun _ => True) (· ≠ .fault) := by
  have hlength := slice.toNat_len
  refine .bind (.lift fun _ => ⟨fun _ _ => trivial, fun _ _ => nofun⟩) fun stubsBase _ => ?_
  refine .bind (.failIf fun _ => nofun) fun _ hdos => ?_
  have hdos : slice.Holds 0 64 := by
    unfold Slice.Holds
    bv_omega
  refine ends_readAt_bind (hdos.mono (by decide)) fun eMagic => ?_
  refine .bind (.failIf fun _ => nofun) fun _ _ => ?_
  refine ends_readAt_bind (hdos.part (k := 60) (by decide)) fun eLfanew => ?_
  have hlfanew : (eLfanew.setWidth 64 : U64).toNat < 2 ^ 32 := by
    rw [BitVec.toNat_setWidth]
    omega
  generalize (eLfanew.setWidth 64 : U64) = ntHeaderOffset at hlfanew ⊢
  refine .bind (.failIf fun _ => nofun) fun _ hnt => ?_
  have hnt : slice.Holds ntHeaderOffset (4 + 20) := by
    unfold Slice.Holds
    bv_omega
  refine ends_readAt_bind (hnt.mono (by decide)) fun signature => ?_
  refine .bind (.failIf fun _ => nofun) fun _ _ => .bind (.failIf fun _ => nofun) fun _ hopt => ?_
  have hopt : slice.Holds (ntHeaderOffset + 4 + 20) 240 := by
    unfold Slice.Holds
    bv_omega
  refine ends_readAt_bind (hopt.mono (by decide)) fun magic => ?_
  refine .bind (.failIf fun _ => nofun) fun _ _ => ?_
  refine ends_readAt_bind (hopt.part (k := 24) (by decide)) fun imageBase => ?_
  refine ends_readAt_bind (hopt.part (k := 16) (by decide)) fun addressOfEntryPoint => ?_
  have hfile : slice.Holds (ntHeaderOffset + 4) 20 := hnt.part (k := 4) (by decide)
  refine ends_readAt_bind (hfile.part (k := 2) (by decide)) fun numSections => ?_
  refine ends_readAt_bind (hfile.part (k := 16) (by decide)) fun sizeOfOptionalHeader => ?_
  refine .bind (.failIf fun _ => nofun) fun _ hsections => ?_
  have hsections : slice.Holds (ntHeaderOffset + 4 + 20 + sizeOfOptionalHeader.setWidth 64)
      (numSections.toNat * 40) := by
    have hnum := numSections.isLt
    have hsize := sizeOfOptionalHeader.isLt
    unfold Slice.Holds
    bv_omega
  refine .bind (.imp (.forM_range fun i hi => ends_loadHeader hsections hi) (fun _ _ => trivial) ?_)
    fun _ _ => .bind (ends_patchImports hopt) fun _ _ => .ret trivial
  rintro e ⟨i, -, -, he⟩
  exact he

/-- **Every byte of the file that is read is in the file**: the loader that checks each read does
the same as the one that does not, for any bytes. -/
theorem pe_safe (slice : Slice) (fuel : Nat) (σ : Machine) :
    Traced.Passes σ (checkedLoad (r := r) slice fuel) (load slice fuel) :=
  ((checks_load slice fuel).passes_iff σ).mpr fun h => (ends_load slice fuel σ).2 _ h rfl

end BeastOs.UniversalExec.PeLoader
