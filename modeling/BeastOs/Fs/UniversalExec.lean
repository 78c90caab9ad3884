import BeastOs.Lib.Traced
import BeastOs.Fs.RamFs
import BeastOs.Memory.AddressSpace
import BeastOs.Memory.PhysicalBytes

/-!
# Loading executables

`kernel/src/fs/universal_exec.rs` with the loaders behind it: `elf_loader.rs`, `pe_loader.rs` and
`pe_patcher.rs`, and `macho_loader.rs`. A loader reads headers from the bytes of the file, maps the
pages that these ask for, and fills them; the loader for PE also replaces addresses in the imported
image by those of its own stubs.

A load is a program that records what it does to the machine, so that one can speak of every step
of it. The start of a segment is recorded as well, although it changes nothing.

Arithmetic on addresses and offsets wraps around. Where a loader reads outside the bytes it was
given, it reads whatever the kernel has there.
-/

namespace BeastOs.UniversalExec

open Lib Paging Vmm

open Fs (Bytes)

/-! ## The file -/

/-- The bytes of a file, and what is around them in memory. -/
structure Slice where
  data : Bytes
  /-- the byte at an offset that is not in the file -/
  around : Machine → U64 → U8

/-- `data.len()` -/
def Slice.len (slice : Slice) : U64 := BitVec.ofNat 64 slice.data.data.length

/-- The byte at an offset from the start of the file. -/
def Slice.peek (slice : Slice) (σ : Machine) (offset : U64) : U8 :=
  (slice.data.data[offset.toNat]?).getD (slice.around σ offset)

/-! ## Steps of a load -/

/-- What is to be loaded from where to where. -/
structure Segment where
  (vaddr memsz filesz offset flags : U64)
  deriving DecidableEq, Repr

namespace Segment

def pageStart (segment : Segment) : U64 := segment.vaddr &&& ~~~(4096 - 1)

def pageEnd (segment : Segment) : U64 :=
  (segment.vaddr + segment.memsz + 4096 - 1) &&& ~~~(4096 - 1)

def pageCount (segment : Segment) : Nat := ((segment.pageEnd - segment.pageStart) / 4096).toNat

def page (segment : Segment) (i : Nat) : U64 := segment.pageStart + BitVec.ofNat 64 i * 4096

end Segment

inductive Action
  /-- a loader turns to this segment -/
  | loadSegment (segment : Segment)
  | allocPage
  | mapPageWithFlags (virt phys flags : U64)
  /-- `ptr::write_bytes` on a page -/
  | writeBytes (page : U64) (b : U8)
  /-- `ptr::copy_nonoverlapping` -/
  | copy (phys : U64) (bytes : List U8)
  /-- `ptr::write_unaligned` to an import address table -/
  | patch (phys value : U64)

def Action.run (r : U64) : Action → Machine → Machine
  | loadSegment _, σ => σ
  | allocPage, σ => after (Vmm.allocPage "" σ)
  | mapPageWithFlags virt phys flags, σ => after (Vmm.mapPageWithFlags r virt phys flags σ)
  | writeBytes page b, σ => withEntries σ page fun _ => Word.repeatByte b
  | copy phys bytes, σ => Vmm.writeBytes σ phys bytes
  | patch phys value, σ => Vmm.writeBytes σ phys (Word.toBytes value)

/-- Programs that load into the page table `r`. -/
abbrev Load (r : U64) (ε α : Type) := Traced (fun σ (a : Action) σ' => σ' = a.run r σ) ε α

variable {r : U64} {ε : Type}

/-- An operation on the machine of which only success matters. -/
def attempt {α : Type} (x : Vmm α) (e : ε) (σ : Machine) : Except ε α × Machine :=
  match x σ with
  | .ok a σ' => (.ok a, σ')
  | .error _ σ' => (.error e, σ')

theorem attempt_snd {α : Type} (x : Vmm α) (e : ε) (σ : Machine) :
    (attempt x e σ).2 = after (x σ) := by
  unfold attempt
  cases x σ with
  | ok a σ' => rfl
  | error m σ' => rfl

def allocPage (e : ε) : Load r ε U64 :=
  .step .allocPage (attempt (Vmm.allocPage "") e) fun σ => attempt_snd _ e σ

def mapPageWithFlags (virt phys flags : U64) (e : ε) : Load r ε Unit :=
  .step (.mapPageWithFlags virt phys flags)
    (attempt (Vmm.mapPageWithFlags r virt phys flags) e) fun σ => attempt_snd _ e σ

/-- A step that does not fail. -/
def act (a : Action) : Load r ε Unit := .step a (fun σ => (.ok (), a.run r σ)) fun _ => rfl

/-! ## Segments -/

def maxU64 (a b : U64) : U64 := if a ≤ b then b else a

def minU64 (a b : U64) : U64 := if a ≤ b then a else b

/-- One page of a segment. `short` is what happens when the file ends too early for it. -/
def loadPage (slice : Slice) (segment : Segment) (oom : ε) (short : Load r ε Unit) (i : Nat) :
    Load r ε Unit := do
  let pageVirt := segment.page i
  let phys ← allocPage oom
  mapPageWithFlags pageVirt phys segment.flags oom
  act (.writeBytes phys 0)
  let segStart := segment.vaddr
  let segEnd := segment.vaddr + segment.filesz
  let copyStart := maxU64 pageVirt segStart
  let copyEnd := minU64 (pageVirt + 4096) segEnd
  if copyStart < copyEnd then
    let len := copyEnd - copyStart
    let offsetInFile := segment.offset + (copyStart - segStart)
    let offsetInPage := copyStart - pageVirt
    if offsetInFile + len > slice.len then short
    else do
      let peek ← .reads slice.peek
      act (.copy (phys + offsetInPage) (readBytes peek offsetInFile len.toNat))
  else pure ()

def loadPages (slice : Slice) (segment : Segment) (oom : ε) (short : Load r ε Unit) :
    Load r ε Unit := do
  act (.loadSegment segment)
  (List.range segment.pageCount).forM (loadPage slice segment oom short)

/-- `WRITABLE` and `NO_EXECUTE` as the file has them. -/
def pageFlags (writable executable : Bool) : U64 :=
  Flags.present ||| Flags.user ||| (if writable then Flags.writable else 0) |||
    (if executable then 0 else Flags.noExecute)

/-! ## ELF -/

inductive ElfError
  | badMagic
  | not64Bit
  | wrongEndian
  | notExecutable
  | noProgramHeaders
  | readFailed
  | outOfMemory
  deriving DecidableEq, Repr

structure Elf64Ehdr where
  (magic : U32) (eClass eData : U8)
  eType : BitVec 16
  (eEntry ePhoff : U64)
  (ePhentsize ePhnum : BitVec 16)

def Elf64Ehdr.read (peek : U64 → U8) : Elf64Ehdr where
  magic := readU32 peek 0
  eClass := peek 4
  eData := peek 5
  eType := readU16 peek 16
  eEntry := readU64 peek 24
  ePhoff := readU64 peek 32
  ePhentsize := readU16 peek 54
  ePhnum := readU16 peek 56

structure Elf64Phdr where
  (pType pFlags : U32)
  (pOffset pVaddr pFilesz pMemsz : U64)

def Elf64Phdr.read (peek : U64 → U8) (offset : U64) : Elf64Phdr where
  pType := readU32 peek offset
  pFlags := readU32 peek (offset + 4)
  pOffset := readU64 peek (offset + 8)
  pVaddr := readU64 peek (offset + 16)
  pFilesz := readU64 peek (offset + 32)
  pMemsz := readU64 peek (offset + 40)

structure LoadedElf where
  (entry phdrAddr : U64)
  phdrNum : BitVec 16
  deriving DecidableEq, Repr

namespace LoadedElf

def segment (phdr : Elf64Phdr) : Segment where
  vaddr := phdr.pVaddr
  memsz := phdr.pMemsz
  filesz := phdr.pFilesz
  offset := phdr.pOffset
  flags := pageFlags (phdr.pFlags &&& 2 ≠ 0) (phdr.pFlags &&& 1 ≠ 0)

/-- A segment of a file that ends too early is an error. -/
def loadSegment (phdr : Elf64Phdr) (slice : Slice) : Load r ElfError Unit :=
  loadPages slice (segment phdr) .outOfMemory (.fail .readFailed)

def loadHeader (slice : Slice) (ehdr : Elf64Ehdr) (i : Nat) : Load r ElfError Unit := do
  let phdrOffset := ehdr.ePhoff + BitVec.ofNat 64 i * ehdr.ePhentsize.setWidth 64
  .failIf (phdrOffset + 56 > slice.len) .readFailed
  let peek ← .reads slice.peek
  let phdr := Elf64Phdr.read peek phdrOffset
  if phdr.pType = 1 then loadSegment phdr slice else pure ()

def load (slice : Slice) : Load r ElfError LoadedElf := do
  .failIf (slice.len < 64) .readFailed
  let peek ← .reads slice.peek
  let ehdr := Elf64Ehdr.read peek
  .failIf (ehdr.magic ≠ 0x464C457F) .badMagic
  .failIf (ehdr.eClass ≠ 2) .not64Bit
  .failIf (ehdr.eData ≠ 1) .wrongEndian
  .failIf (ehdr.eType ≠ 2 ∧ ehdr.eType ≠ 3) .notExecutable
  .failIf (ehdr.ePhnum = 0) .noProgramHeaders
  (List.range ehdr.ePhnum.toNat).forM (loadHeader slice ehdr)
  pure ⟨ehdr.eEntry, ehdr.ePhoff, ehdr.ePhnum⟩

end LoadedElf

/-! ## Outcomes -/

structure LoadedImage where
  entry : U64
  deriving DecidableEq, Repr

inductive LoaderError
  | fs (err : FsError)
  | invalidFormat
  | outOfMemory
  deriving DecidableEq, Repr

/-- Why a load has not returned an image. -/
inductive Stop
  | error (e : LoaderError)
  /-- a loop has not come to its end yet -/
  | outOfFuel
  deriving DecidableEq, Repr

/-! ## Mach-O -/

namespace MachOLoader

structure SegmentCommand64 where
  segname : List U8
  (vmaddr vmsize fileoff filesize : U64)
  initprot : U32

def SegmentCommand64.read (peek : U64 → U8) (offset : U64) : SegmentCommand64 where
  segname := readBytes peek (offset + 8) 16
  vmaddr := readU64 peek (offset + 24)
  vmsize := readU64 peek (offset + 32)
  fileoff := readU64 peek (offset + 40)
  filesize := readU64 peek (offset + 48)
  initprot := readU32 peek (offset + 60)

def segment (seg : SegmentCommand64) : Segment where
  vaddr := seg.vmaddr
  memsz := seg.vmsize
  filesz := seg.filesize
  offset := seg.fileoff
  flags := pageFlags (seg.initprot &&& 2 ≠ 0) (seg.initprot &&& 4 ≠ 0)

/-- The part of a segment that is missing from the file stays zero. -/
def loadSegment (seg : SegmentCommand64) (slice : Slice) : Load r Stop Unit :=
  if seg.vmsize = 0 then pure ()
  else loadPages slice (segment seg) (.error .outOfMemory) (pure ())

/-- `"__TEXT"` -/
def textName : List U8 := [0x5F, 0x5F, 0x54, 0x45, 0x58, 0x54]

/-- What the loader has learnt from the commands so far. -/
structure Progress where
  offset : U64
  entryPoint : Option U64
  textVmaddr : U64

/-- One load command. -/
def loadCommand (slice : Slice) (peek : U64 → U8) (p : Progress) : Load r Stop Progress :=
  let cmd := readU32 peek p.offset
  let next := p.offset + (readU32 peek (p.offset + 4)).setWidth 64
  if cmd = 0x19 then do
    let seg := SegmentCommand64.read peek p.offset
    let name := seg.segname.takeWhile (· ≠ 0)
    loadSegment seg slice
    pure ⟨next, p.entryPoint, if name = textName then seg.vmaddr else p.textVmaddr⟩
  else if cmd = 0x80000028 then
    pure ⟨next, some (p.textVmaddr + readU64 peek (p.offset + 8)), p.textVmaddr⟩
  else if cmd = 0x5 then
    let threadStateOffset := p.offset + 16
    if threadStateOffset + 144 ≤ slice.len then
      pure ⟨next, some (readU64 peek (threadStateOffset + 16 * 8)), p.textVmaddr⟩
    else pure { p with offset := next }
  else pure { p with offset := next }

def loadCommands (slice : Slice) : Nat → Progress → Load r Stop Progress
  | 0, p => pure p
  | n + 1, p =>
    if p.offset + 8 > slice.len then pure p
    else do
      let peek ← .reads slice.peek
      let p ← loadCommand slice peek p
      loadCommands slice n p

def load (slice : Slice) : Load r Stop LoadedImage := do
  .failIf (slice.len < 32) (.error .invalidFormat)
  let peek ← .reads slice.peek
  .failIf (readU32 peek 0 ≠ 0xfeedfacf) (.error .invalidFormat)
  let p ← loadCommands slice (readU32 peek 16).toNat ⟨32, none, 0⟩
  match p.entryPoint with
  | some entry => pure ⟨entry⟩
  | none => .fail (.error .invalidFormat)

end MachOLoader

/-! ## PE -/

namespace PePatcher

/-- where the stubs are in user space -/
def stubsVirt : U64 := 0x7FFF00000000

def writeStub : List U8 :=
  [0x48, 0x89, 0xCF, 0x48, 0x89, 0xD6, 0x4C, 0x89, 0xC2, 0x48, 0xC7, 0xC0, 0x01, 0x00, 0x00, 0x00,
    0x0F, 0x05, 0xC3]

def readStub : List U8 :=
  [0x48, 0x89, 0xCF, 0x48, 0x89, 0xD6, 0x4C, 0x89, 0xC2, 0x48, 0xC7, 0xC0, 0x00, 0x00, 0x00, 0x00,
    0x0F, 0x05, 0xC3]

def exitStub : List U8 :=
  [0x48, 0x89, 0xCF, 0x48, 0xC7, 0xC0, 0x3C, 0x00, 0x00, 0x00, 0x0F, 0x05, 0xC3]

/-- Every failure is one of memory. -/
def createStubs (oom : ε) : Load r ε U64 := do
  let phys ← allocPage oom
  mapPageWithFlags stubsVirt phys (Flags.user ||| Flags.present) oom
  act (.writeBytes phys 0xCC)
  act (.copy (phys + 0) writeStub)
  act (.copy (phys + 32) readStub)
  act (.copy (phys + 64) exitStub)
  pure stubsVirt

/-- The names are given by their bytes. -/
def getStubAddress (stubsBase : U64) (name : List U8) : Option U64 :=
  if name = "WriteFile".toUTF8.toList.map UInt8.toBitVec then some (stubsBase + 0)
  else if name = "ReadFile".toUTF8.toList.map UInt8.toBitVec then some (stubsBase + 32)
  else if name = "ExitProcess".toUTF8.toList.map UInt8.toBitVec then some (stubsBase + 64)
  else none

end PePatcher

namespace PeLoader

/-- The pointer is given by the physical address it stands for. `translate` has added the offset
within the page already. -/
def vaddrToKernelPtr (σ : Machine) (r vaddr : U64) : Option U64 :=
  (translate σ r vaddr).map (· + vaddr % 4096)

def rvaToKernelPtr (σ : Machine) (r : U64) (rva : U32) (imageBase : U64) : Option U64 :=
  vaddrToKernelPtr σ r (imageBase + rva.setWidth 64)

/-- The rest of a string from byte `len` on, for a buffer with room for `n` more bytes. -/
def readStringFrom (σ : Machine) (r vaddr : U64) (len : Nat) : Nat → Option (List U8)
  | 0 => some []
  | n + 1 => do
    let p ← vaddrToKernelPtr σ r (vaddr + BitVec.ofNat 64 len)
    let b := readByte σ p
    if b = 0 then some []
    else
      let bytes ← readStringFrom σ r vaddr (len + 1) n
      some (b :: bytes)

/-- The string that ends up in the buffer, up to its first zero. -/
def readStringToBuf (σ : Machine) (r vaddr : U64) : Option (List U8) :=
  readStringFrom σ r vaddr 0 127

/-- `core::str::from_utf8` succeeds. -/
def isUtf8 (bytes : List U8) : Bool :=
  ByteArray.validateUTF8 ⟨(bytes.map UInt8.ofBitVec).toArray⟩

def isOrdinal (thunk : U64) : Bool := thunk &&& 0x8000000000000000 ≠ 0

/-- One imported function: the address of its stub, if there is one, is written over its entry in
the import address table. -/
def patchThunk (imageBase stubsBase thunk : U64) (iatRva : U32) : Load r Stop Unit := do
  let σ ← .reads id
  if isOrdinal thunk then pure ()
  else
    let nameRva : U32 := thunk.setWidth 32 + 2
    match readStringToBuf σ r (imageBase + nameRva.setWidth 64) with
    | none => pure ()
    | some name =>
      if isUtf8 name then
        match PePatcher.getStubAddress stubsBase name with
        | none => pure ()
        | some stubAddr =>
          match vaddrToKernelPtr σ r (imageBase + iatRva.setWidth 64) with
          | none => .fail (.error .invalidFormat)
          | some iatPtr => act (.patch iatPtr stubAddr)
      else pure ()

def patchThunks (imageBase stubsBase : U64) : Nat → U32 → U32 → Load r Stop Unit
  | 0, _, _ => .fail .outOfFuel
  | fuel + 1, thunkRva, iatRva => do
    let σ ← .reads id
    match rvaToKernelPtr σ r thunkRva imageBase with
    | none => .fail (.error .invalidFormat)
    | some thunkPtr =>
      let thunk := readU64 (readByte σ) thunkPtr
      if thunk = 0 then pure ()
      else do
        patchThunk imageBase stubsBase thunk iatRva
        patchThunks imageBase stubsBase fuel (thunkRva + 8) (iatRva + 8)

/-- The functions imported from one library. -/
def patchDescriptor (imageBase stubsBase descriptorPtr : U64) (nameRva : U32) (fuel : Nat) :
    Load r Stop Unit := do
  let σ ← .reads id
  match readStringToBuf σ r (imageBase + nameRva.setWidth 64) with
  | none => pure ()
  | some dllName =>
    if isUtf8 dllName then
      let originalFirstThunk := readU32 (readByte σ) descriptorPtr
      let firstThunk := readU32 (readByte σ) (descriptorPtr + 16)
      let thunkRva := if originalFirstThunk ≠ 0 then originalFirstThunk else firstThunk
      patchThunks imageBase stubsBase fuel thunkRva firstThunk
    else pure ()

def patchDescriptors (imageBase stubsBase : U64) : Nat → U32 → Load r Stop Unit
  | 0, _ => .fail .outOfFuel
  | fuel + 1, descriptorRva => do
    let σ ← .reads id
    match rvaToKernelPtr σ r descriptorRva imageBase with
    | none => .fail (.error .invalidFormat)
    | some descriptorPtr =>
      let nameRva := readU32 (readByte σ) (descriptorPtr + 12)
      if nameRva = 0 then pure ()
      else do
        patchDescriptor imageBase stubsBase descriptorPtr nameRva fuel
        patchDescriptors imageBase stubsBase fuel (descriptorRva + 20)

structure PeFileHeader where
  (numberOfSections sizeOfOptionalHeader : BitVec 16)

def PeFileHeader.read (peek : U64 → U8) (offset : U64) : PeFileHeader where
  numberOfSections := readU16 peek (offset + 2)
  sizeOfOptionalHeader := readU16 peek (offset + 16)

structure PeOptionalHeader64 where
  magic : BitVec 16
  addressOfEntryPoint : U32
  imageBase : U64
  (numberOfRvaAndSizes importDirectory : U32)

def PeOptionalHeader64.read (peek : U64 → U8) (offset : U64) : PeOptionalHeader64 where
  magic := readU16 peek offset
  addressOfEntryPoint := readU32 peek (offset + 16)
  imageBase := readU64 peek (offset + 24)
  numberOfRvaAndSizes := readU32 peek (offset + 108)
  -- the directories start at 112, and the one of the imports is the second
  importDirectory := readU32 peek (offset + 120)

structure PeSectionHeader where
  (virtualSize virtualAddress sizeOfRawData pointerToRawData characteristics : U32)

def PeSectionHeader.read (peek : U64 → U8) (offset : U64) : PeSectionHeader where
  virtualSize := readU32 peek (offset + 8)
  virtualAddress := readU32 peek (offset + 12)
  sizeOfRawData := readU32 peek (offset + 16)
  pointerToRawData := readU32 peek (offset + 20)
  characteristics := readU32 peek (offset + 36)

def patchImports (header : PeOptionalHeader64) (stubsBase : U64) (fuel : Nat) : Load r Stop Unit :=
  if 1 ≥ header.numberOfRvaAndSizes then pure ()
  else if header.importDirectory = 0 then pure ()
  else patchDescriptors header.imageBase stubsBase fuel header.importDirectory

def segment (imageBase : U64) (sec : PeSectionHeader) : Segment where
  vaddr := imageBase + sec.virtualAddress.setWidth 64
  memsz := sec.virtualSize.setWidth 64
  filesz := sec.sizeOfRawData.setWidth 64
  offset := sec.pointerToRawData.setWidth 64
  flags := pageFlags (sec.characteristics &&& 0x80000000 ≠ 0)
    (sec.characteristics &&& 0x20000000 ≠ 0)

/-- The part of a section that is missing from the file stays zero. -/
def loadSection (sec : PeSectionHeader) (imageBase : U64) (slice : Slice) :
    Load r Stop Unit :=
  loadPages slice (segment imageBase sec) (.error .outOfMemory) (pure ())

def loadHeader (slice : Slice) (imageBase sectionHeaderOffset : U64) (i : Nat) :
    Load r Stop Unit := do
  let peek ← .reads slice.peek
  let sec := PeSectionHeader.read peek (sectionHeaderOffset + BitVec.ofNat 64 i * 40)
  if sec.virtualSize = 0 then pure () else loadSection sec imageBase slice

def load (slice : Slice) (fuel : Nat) : Load r Stop LoadedImage := do
  let stubsBase ← PePatcher.createStubs (.error .outOfMemory)
  .failIf (slice.len < 64) (.error .invalidFormat)
  let peek ← .reads slice.peek
  .failIf (readU16 peek 0 ≠ 0x5A4D) (.error .invalidFormat)
  let ntHeaderOffset : U64 := (readU32 peek 60).setWidth 64
  .failIf (slice.len < ntHeaderOffset + 4 + 20) (.error .invalidFormat)
  .failIf (readU32 peek ntHeaderOffset ≠ 0x00004550) (.error .invalidFormat)
  let fileHeader := PeFileHeader.read peek (ntHeaderOffset + 4)
  let optionalHeaderOffset := ntHeaderOffset + 4 + 20
  .failIf (slice.len < optionalHeaderOffset + 240) (.error .invalidFormat)
  let header := PeOptionalHeader64.read peek optionalHeaderOffset
  .failIf (header.magic ≠ 0x20b) (.error .invalidFormat)
  let entryPoint := header.imageBase + header.addressOfEntryPoint.setWidth 64
  let numSections := fileHeader.numberOfSections
  let sectionHeaderOffset := optionalHeaderOffset + fileHeader.sizeOfOptionalHeader.setWidth 64
  .failIf (slice.len < sectionHeaderOffset + numSections.setWidth 64 * 40) (.error .invalidFormat)
  (List.range numSections.toNat).forM (loadHeader slice header.imageBase sectionHeaderOffset)
  patchImports header stubsBase fuel
  pure ⟨entryPoint⟩

end PeLoader

/-! ## All formats -/

inductive ExecutableFormat
  | elf
  | pe
  | machO
  | unknown
  deriving DecidableEq, Repr

def detectFormat (data : Bytes) : ExecutableFormat :=
  match data.data with
  | b₀ :: b₁ :: b₂ :: b₃ :: _ =>
    if b₀ = 0x7F ∧ b₁ = 0x45 ∧ b₂ = 0x4C ∧ b₃ = 0x46 then .elf
    else if b₀ = 0x4D ∧ b₁ = 0x5A then .pe
    else if b₀ = 0xCF ∧ b₁ = 0xFA ∧ b₂ = 0xED ∧ b₃ = 0xFE then .machO
    else if b₀ = 0xFE ∧ b₁ = 0xED ∧ b₂ = 0xFA ∧ b₃ = 0xCF then .machO
    else .unknown
  | _ => .unknown

def load (slice : Slice) (fuel : Nat) : Load r Stop LoadedImage :=
  match detectFormat slice.data with
  | .machO => MachOLoader.load slice
  | .pe => PeLoader.load slice fuel
  | .elf =>
    Traced.mapError (fun _ => Stop.error .invalidFormat) do
      let elf ← LoadedElf.load slice
      pure ⟨elf.entry⟩
  | .unknown => .fail (.error .invalidFormat)

end BeastOs.UniversalExec
