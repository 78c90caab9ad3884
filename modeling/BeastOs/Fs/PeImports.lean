import BeastOs.Fs.LoadedPages

/-!
# Imports of a PE file

`patch_imports` of `pe_loader.rs` follows addresses of the process that is being loaded: those of
the descriptors of libraries, of their tables of functions, and of names. For each it computes a
pointer of the kernel from what `translate` returns, and adds the offset in the page, which
`translate` has added already. So a pointer is right for the first byte of a page only.

Here is the loop with every pointer checked, and what it should do in terms of the memory of the
process. `patchImports_iff` says when all pointers are right, and then the imports are patched as
they should be: the second descriptor is never at the start of a page if the first is, so there must
not be any import.
-/

namespace BeastOs.UniversalExec

open BitVec Lib Paging Vmm PePatcher

/-! ## Pages that start at an address -/

section

variable {σ : Machine} {r virt phys : U64} {k n : Nat}

section

variable (hvirt : virt.toNat % 4096 = 0) (hk : k < 4096)
include hvirt hk

/-- The addresses of the page that starts at `virt`. -/
theorem toNat_add_of_aligned : (virt + BitVec.ofNat 64 k).toNat = virt.toNat + k := by
  rw [toNat_add, toNat_ofNat]
  omega

/-- The offset in a page of `4096 * c` bytes. -/
theorem mod_add_of_aligned (c : Nat) :
    (virt.toNat + k) % (4096 * c) = virt.toNat % (4096 * c) + k := by
  have hdiv : (virt.toNat + k) / 4096 = virt.toNat / 4096 := by omega
  rw [Nat.mod_mul, Nat.mod_mul, hdiv]
  omega

theorem and_mask_add (hn : 12 ≤ n) (hn' : n < 64) :
    (virt + BitVec.ofNat 64 k) &&& BitVec.ofNat 64 (2 ^ n - 1) =
      (virt &&& BitVec.ofNat 64 (2 ^ n - 1)) + BitVec.ofNat 64 k := by
  have hmask : (BitVec.ofNat 64 (2 ^ n - 1)).toNat = 2 ^ n - 1 := by
    have hpow : 2 ^ n < 2 ^ 64 := Nat.pow_lt_pow_right (by decide) hn'
    rw [toNat_ofNat, Nat.mod_eq_of_lt (by omega)]
  have hpow : 2 ^ n = 4096 * 2 ^ (n - 12) := by
    rw [show (4096 : Nat) = 2 ^ 12 from rfl, ← pow_add, Nat.add_sub_cancel' hn]
  have hmod := mod_add_of_aligned hvirt hk (2 ^ (n - 12))
  have hle := Nat.mod_le virt.toNat (4096 * 2 ^ (n - 12))
  refine eq_of_toNat_eq ?_
  rw [toNat_and, toNat_add (virt &&& _), toNat_and, hmask,
    Nat.and_two_pow_sub_one_eq_mod, Nat.and_two_pow_sub_one_eq_mod, toNat_ofNat,
    toNat_add_of_aligned hvirt hk, hpow, hmod]
  omega

theorem index_add (hn : 12 ≤ n) :
    (((virt + BitVec.ofNat 64 k) >>> n) &&& 0x1FF).toNat = ((virt >>> n) &&& 0x1FF).toNat := by
  have hbase : pageBase virt = virt := by
    refine eq_of_toNat_eq ?_
    rw [toNat_pageBase]
    omega
  have hindex := index_pageBase_add virt hk hn
  rwa [hbase] at hindex

/-- **A page is contiguous in physical memory**, and so is each part of a huge page. -/
theorem translate_add : translate σ r (virt + BitVec.ofNat 64 k) =
      (translate σ r virt).map (· + BitVec.ofNat 64 k) := by
  have hpml4 : pml4Index (virt + BitVec.ofNat 64 k) = pml4Index virt :=
    index_add hvirt hk (by decide)
  have hpdpt : pdptIndex (virt + BitVec.ofNat 64 k) = pdptIndex virt :=
    index_add hvirt hk (by decide)
  have hpd : pdIndex (virt + BitVec.ofNat 64 k) = pdIndex virt := index_add hvirt hk (by decide)
  have hpt : ptIndex (virt + BitVec.ofNat 64 k) = ptIndex virt := index_add hvirt hk (by decide)
  have hmask₁ : (virt + BitVec.ofNat 64 k) &&& 0x3FFFFFFF =
      (virt &&& 0x3FFFFFFF) + BitVec.ofNat 64 k :=
    and_mask_add (n := 30) hvirt hk (by decide) (by decide)
  have hmask₂ : (virt + BitVec.ofNat 64 k) &&& 0x1FFFFF =
      (virt &&& 0x1FFFFF) + BitVec.ofNat 64 k :=
    and_mask_add (n := 21) hvirt hk (by decide) (by decide)
  have hmask₃ : (virt + BitVec.ofNat 64 k) &&& 0xFFF = (virt &&& 0xFFF) + BitVec.ofNat 64 k :=
    and_mask_add (n := 12) hvirt hk (by decide) (by decide)
  unfold Vmm.translate
  rw [hpml4, hpdpt, hpd, hpt, hmask₁, hmask₂, hmask₃]
  dsimp only
  split
  · rfl
  · split
    · rfl
    · split
      · rw [Option.map_some, BitVec.add_assoc]
      · split
        · rfl
        · split
          · rw [Option.map_some, BitVec.add_assoc]
          · split
            · rfl
            · rw [Option.map_some, BitVec.add_assoc]

end

end

namespace PeLoader

/-! ## Imports as the process sees them -/

section

variable (σ σ' : Machine) (r : U64) (header : PeOptionalHeader64)

def look (virt : U64) : U8 := (userByte σ r virt).getD 0

/-- There is a directory of imports. -/
def HasImports : Prop := 1 < header.numberOfRvaAndSizes ∧ header.importDirectory ≠ 0

instance : Decidable (HasImports header) := inferInstanceAs (Decidable (_ ∧ _))

def descriptorAt (j : Nat) : U64 :=
  header.imageBase + (header.importDirectory + BitVec.ofNat 32 (20 * j)).setWidth 64

/-- Where the name of a library is. -/
def libraryName (j : Nat) : U32 := readU32 (look σ r) (descriptorAt header j + 12)

/-- The list of descriptors ends with the first that has no name. -/
def IsDescriptor (j : Nat) : Prop := HasImports header ∧ ∀ i ≤ j, libraryName σ r header i ≠ 0

def firstThunk (j : Nat) : U32 := readU32 (look σ r) (descriptorAt header j + 16)

def originalFirstThunk (j : Nat) : U32 := readU32 (look σ r) (descriptorAt header j)

/-- Where the functions of a library are listed. -/
def thunkTable (j : Nat) : U32 :=
  if originalFirstThunk σ r header j ≠ 0 then originalFirstThunk σ r header j
  else firstThunk σ r header j

/-- An entry of a table of words. -/
def entryAt (table : U32) (k : Nat) : U64 :=
  header.imageBase + (table + BitVec.ofNat 32 (8 * k)).setWidth 64

def thunkOf (j k : Nat) : U64 :=
  readU64 (look σ r) (entryAt header (thunkTable σ r header j) k)

/-- The list of functions ends with the first zero. -/
def IsThunk (j k : Nat) : Prop :=
  IsDescriptor σ r header j ∧ ∀ i ≤ k, thunkOf σ r header j i ≠ 0

/-- Where the address of an imported function is to be found. -/
def slotAt (j k : Nat) : U64 := entryAt header (firstThunk σ r header j) k

def functionAt (j k : Nat) : U64 :=
  header.imageBase + ((thunkOf σ r header j k).setWidth 32 + 2 : U32).setWidth 64

def stringAt (virt : U64) : List U8 := (readBytes (look σ r) virt 127).takeWhile (· ≠ 0)

/-- The stub for a function that is imported by name. -/
def importedStub (stubsBase : U64) (j k : Nat) : Option U64 :=
  if isOrdinal (thunkOf σ r header j k) then none
  else getStubAddress stubsBase (stringAt σ r (functionAt σ r header j k))

def Mapped (virt : U64) (n : Nat) : Prop :=
  ∀ k < n, (translate σ r (virt + BitVec.ofNat 64 k)).isSome

/-- As much of a string is mapped as is needed to find its end. -/
def StringMapped (virt : U64) : Prop :=
  ∀ k < 127, (∀ i < k, look σ r (virt + BitVec.ofNat 64 i) ≠ 0) →
    (translate σ r (virt + BitVec.ofNat 64 k)).isSome

/-- Everything that has to do with imports is mapped. -/
structure ImportsMapped : Prop where
  descriptor : ∀ j, HasImports header → (∀ i < j, libraryName σ r header i ≠ 0) →
    Mapped σ r (descriptorAt header j) 20
  library : ∀ j, IsDescriptor σ r header j →
    StringMapped σ r (header.imageBase + (libraryName σ r header j).setWidth 64)
  thunk : ∀ j k, IsDescriptor σ r header j → (∀ i < k, thunkOf σ r header j i ≠ 0) →
    Mapped σ r (entryAt header (thunkTable σ r header j) k) 8
  function : ∀ j k, IsThunk σ r header j k → isOrdinal (thunkOf σ r header j k) = false →
    StringMapped σ r (functionAt σ r header j k)
  slot : ∀ j k, IsThunk σ r header j k → Mapped σ r (slotAt σ r header j k) 8

/-- From `σ` to `σ'`, the addresses of the functions that there are stubs for have been replaced by
those of the stubs, and nothing else has changed. -/
structure Patched (stubsBase : U64) : Prop where
  slots : ∀ j k, IsThunk σ r header j k →
    readU64 (look σ' r) (slotAt σ r header j k) =
      (importedStub σ r header stubsBase j k).getD
        (readU64 (look σ r) (slotAt σ r header j k))
  others : ∀ virt, (∀ j k, IsThunk σ r header j k →
      (importedStub σ r header stubsBase j k).isSome → ∀ o < 8,
        virt ≠ slotAt σ r header j k + BitVec.ofNat 64 o) →
    userByte σ' r virt = userByte σ r virt

/-- There is no directory of imports, or it starts on a page of its own and is empty. -/
def NoImports : Prop :=
  HasImports header → (descriptorAt header 0).toNat % 4096 = 0 ∧ libraryName σ r header 0 = 0

end

/-! ## The code with its pointers checked -/

section

variable {r : U64}

/-- A pointer should be where the address is mapped to. -/
def exactKernelPtr (σ : Machine) (vaddr : U64) : Load r (WithFault Stop) (Option U64) :=
  .checked (vaddrToKernelPtr σ r vaddr = translate σ r vaddr) (vaddrToKernelPtr σ r vaddr)

def exactStringFrom (σ : Machine) (vaddr : U64) (len : Nat) :
    Nat → Load r (WithFault Stop) (Option (List U8))
  | 0 => pure (some [])
  | n + 1 => do
    match ← exactKernelPtr σ (vaddr + BitVec.ofNat 64 len) with
    | none => pure none
    | some p =>
      if readByte σ p = 0 then pure (some [])
      else do
        let bytes ← exactStringFrom σ vaddr (len + 1) n
        pure (bytes.map (readByte σ p :: ·))

def exactPatchThunk (imageBase stubsBase thunk : U64) (iatRva : U32) :
    Load r (WithFault Stop) Unit := do
  let σ ← .reads id
  if isOrdinal thunk then pure ()
  else
    let nameRva : U32 := thunk.setWidth 32 + 2
    match ← exactStringFrom σ (imageBase + nameRva.setWidth 64) 0 127 with
    | none => pure ()
    | some name =>
      if isUtf8 name then
        match getStubAddress stubsBase name with
        | none => pure ()
        | some stubAddr => do
          match ← exactKernelPtr σ (imageBase + iatRva.setWidth 64) with
          | none => .fail (.error (.error .invalidFormat))
          | some iatPtr => .lift (act (.patch iatPtr stubAddr))
      else pure ()

def exactPatchThunks (imageBase stubsBase : U64) :
    Nat → U32 → U32 → Load r (WithFault Stop) Unit
  | 0, _, _ => .fail (.error .outOfFuel)
  | fuel + 1, thunkRva, iatRva => do
    let σ ← .reads id
    match ← exactKernelPtr σ (imageBase + thunkRva.setWidth 64) with
    | none => .fail (.error (.error .invalidFormat))
    | some thunkPtr =>
      let thunk := readU64 (readByte σ) thunkPtr
      if thunk = 0 then pure ()
      else do
        exactPatchThunk imageBase stubsBase thunk iatRva
        exactPatchThunks imageBase stubsBase fuel (thunkRva + 8) (iatRva + 8)

def exactPatchDescriptor (imageBase stubsBase descriptorPtr : U64) (nameRva : U32) (fuel : Nat) :
    Load r (WithFault Stop) Unit := do
  let σ ← .reads id
  match ← exactStringFrom σ (imageBase + nameRva.setWidth 64) 0 127 with
  | none => pure ()
  | some dllName =>
    if isUtf8 dllName then
      let originalFirstThunk := readU32 (readByte σ) descriptorPtr
      let firstThunk := readU32 (readByte σ) (descriptorPtr + 16)
      let thunkRva := if originalFirstThunk ≠ 0 then originalFirstThunk else firstThunk
      exactPatchThunks imageBase stubsBase fuel thunkRva firstThunk
    else pure ()

def exactPatchDescriptors (imageBase stubsBase : U64) :
    Nat → U32 → Load r (WithFault Stop) Unit
  | 0, _ => .fail (.error .outOfFuel)
  | fuel + 1, descriptorRva => do
    let σ ← .reads id
    match ← exactKernelPtr σ (imageBase + descriptorRva.setWidth 64) with
    | none => .fail (.error (.error .invalidFormat))
    | some descriptorPtr =>
      let nameRva := readU32 (readByte σ) (descriptorPtr + 12)
      if nameRva = 0 then pure ()
      else do
        exactPatchDescriptor imageBase stubsBase descriptorPtr nameRva fuel
        exactPatchDescriptors imageBase stubsBase fuel (descriptorRva + 20)

def exactPatchImports (header : PeOptionalHeader64) (stubsBase : U64) (fuel : Nat) :
    Load r (WithFault Stop) Unit :=
  if 1 ≥ header.numberOfRvaAndSizes then pure ()
  else if header.importDirectory = 0 then pure ()
  else exactPatchDescriptors header.imageBase stubsBase fuel header.importDirectory

theorem gives_kernelPtr (σ : Machine) (vaddr : U64) :
    Traced.Gives (exactKernelPtr (r := r) σ vaddr) (vaddrToKernelPtr σ r vaddr) :=
  .checked fun _ => rfl

theorem gives_stringFrom (σ : Machine) (vaddr : U64) (len n : Nat) :
    Traced.Gives (exactStringFrom (r := r) σ vaddr len n) (readStringFrom σ r vaddr len n) := by
  induction n generalizing len with
  | zero => exact .ret _
  | succ n ih =>
    unfold exactStringFrom readStringFrom
    refine .bind (gives_kernelPtr σ _) ?_
    cases vaddrToKernelPtr σ r (vaddr + BitVec.ofNat 64 len) with
    | none => exact .ret none
    | some p =>
      refine .ite (.ret _) (.bind (ih (len + 1)) ?_)
      cases readStringFrom σ r vaddr (len + 1) n with
      | none => exact .ret none
      | some bytes => exact .ret _

theorem gives_string (σ : Machine) (vaddr : U64) :
    Traced.Gives (exactStringFrom (r := r) σ vaddr 0 127) (readStringToBuf σ r vaddr) :=
  gives_stringFrom σ vaddr 0 127

theorem checks_exactPatchThunk (imageBase stubsBase thunk : U64) (iatRva : U32) :
    Traced.Checks (exactPatchThunk (r := r) imageBase stubsBase thunk iatRva)
      (patchThunk imageBase stubsBase thunk iatRva) := by
  refine .reads_bind fun σ => .ite (.ret ()) (Traced.Gives.checks_bind (gives_string _ _) ?_)
  dsimp only
  generalize readStringToBuf (id σ) r _ = string
  cases string with
  | none => exact .ret ()
  | some name =>
    refine .ite ?_ (.ret ())
    cases getStubAddress stubsBase name with
    | none => exact .ret ()
    | some stubAddr =>
      refine Traced.Gives.checks_bind (gives_kernelPtr _ _) ?_
      generalize vaddrToKernelPtr (id σ) r _ = pointer
      cases pointer with
      | none => exact .fail _
      | some iatPtr => exact .lift _

theorem checks_exactPatchThunks (imageBase stubsBase : U64) (fuel : Nat) (thunkRva iatRva : U32) :
    Traced.Checks (exactPatchThunks (r := r) imageBase stubsBase fuel thunkRva iatRva)
      (patchThunks imageBase stubsBase fuel thunkRva iatRva) := by
  induction fuel generalizing thunkRva iatRva with
  | zero => exact .fail _
  | succ fuel ih =>
    unfold exactPatchThunks patchThunks rvaToKernelPtr
    refine .reads_bind fun σ => Traced.Gives.checks_bind (gives_kernelPtr _ _) ?_
    generalize vaddrToKernelPtr (id σ) r _ = pointer
    cases pointer with
    | none => exact .fail _
    | some thunkPtr =>
      exact .ite (.ret ()) (.bind (checks_exactPatchThunk _ _ _ _) fun _ => ih _ _)

theorem checks_exactPatchDescriptor (imageBase stubsBase descriptorPtr : U64) (nameRva : U32)
    (fuel : Nat) :
    Traced.Checks (exactPatchDescriptor (r := r) imageBase stubsBase descriptorPtr nameRva fuel)
      (patchDescriptor imageBase stubsBase descriptorPtr nameRva fuel) := by
  refine .reads_bind fun σ => Traced.Gives.checks_bind (gives_string _ _) ?_
  generalize readStringToBuf (id σ) r _ = string
  cases string with
  | none => exact .ret ()
  | some dllName => exact .ite (checks_exactPatchThunks _ _ _ _ _) (.ret ())

theorem checks_exactPatchDescriptors (imageBase stubsBase : U64) (fuel : Nat)
    (descriptorRva : U32) :
    Traced.Checks (exactPatchDescriptors (r := r) imageBase stubsBase fuel descriptorRva)
      (patchDescriptors imageBase stubsBase fuel descriptorRva) := by
  induction fuel generalizing descriptorRva with
  | zero => exact .fail _
  | succ fuel ih =>
    unfold exactPatchDescriptors patchDescriptors rvaToKernelPtr
    refine .reads_bind fun σ => Traced.Gives.checks_bind (gives_kernelPtr _ _) ?_
    generalize vaddrToKernelPtr (id σ) r _ = pointer
    cases pointer with
    | none => exact .fail _
    | some descriptorPtr =>
      exact .ite (.ret ()) (.bind (checks_exactPatchDescriptor _ _ _ _ _) fun _ => ih _)

/-- **The code with checks is the code.** -/
theorem checks_exactPatchImports (header : PeOptionalHeader64) (stubsBase : U64) (fuel : Nat) :
    Traced.Checks (exactPatchImports (r := r) header stubsBase fuel)
      (patchImports header stubsBase fuel) :=
  .ite (.ret ()) (.ite (.ret ()) (checks_exactPatchDescriptors _ _ _ _))

end

/-! ## Pointers that are not right -/

section

variable {r p : U64} {σ : Machine} {vaddr : U64} {k : Nat} {header : PeOptionalHeader64}

/-- The program fails at a pointer, or it returns and has not done anything. -/
def Still (σ : Machine) {α : Type} (x : Load r (WithFault Stop) α) (Q : α → Prop) : Prop :=
  Traced.EndsAt σ x (fun a σ' => σ' = σ ∧ Q a) (· = .fault)

theorem kernelPtr_eq_iff : vaddrToKernelPtr σ r vaddr = translate σ r vaddr ↔
      ((translate σ r vaddr).isSome → vaddr.toNat % 4096 = 0) := by
  unfold vaddrToKernelPtr
  cases translate σ r vaddr with
  | none => simp
  | some p =>
    have hmod : (vaddr % 4096).toNat = vaddr.toNat % 4096 := toNat_umod
    rw [Option.map_some, Option.some_inj]
    refine ⟨fun h _ => ?_, fun h => ?_⟩
    · have hzero : vaddr % 4096 = 0 := by
        generalize vaddr % 4096 = offset at h
        bv_omega
      rw [← hmod, hzero]
      rfl
    · have hzero : vaddr % 4096 = 0 := eq_of_toNat_eq (hmod.trans (h rfl))
      rw [hzero]
      exact BitVec.add_zero p

theorem still_kernelPtr : Still σ (exactKernelPtr (r := r) σ vaddr)
    fun p => p = translate σ r vaddr ∧ (p.isSome → vaddr.toNat % 4096 = 0) := by
  refine .checked (fun _ => rfl) fun h => ⟨rfl, h, fun hp => kernelPtr_eq_iff.mp h ?_⟩
  rwa [h] at hp

/-- Only the start of a page has a pointer that is right. -/
theorem fails_of_unaligned {α : Type} {f : Option U64 → Load r (WithFault Stop) α}
    {Q : α → Machine → Prop} (hmapped : (translate σ r vaddr).isSome)
    (hne : vaddr.toNat % 4096 ≠ 0) :
    Traced.EndsAt σ (exactKernelPtr σ vaddr >>= f) Q (· = .fault) := by
  refine .bind still_kernelPtr ?_
  rintro p _ ⟨-, rfl, halign⟩
  exact absurd (halign hmapped) hne

/-- A string with a character has a second byte, which is not at the start of a page. -/
theorem still_string : Still σ (exactStringFrom (r := r) σ vaddr 0 127)
    fun string => string = none ∨ string = some [] := by
  have hfirst : exactStringFrom (r := r) σ vaddr 0 127 = (do
      match ← exactKernelPtr σ vaddr with
      | none => pure none
      | some p =>
        if readByte σ p = 0 then pure (some [])
        else do
          let bytes ← exactStringFrom σ vaddr 1 126
          pure (bytes.map (readByte σ p :: ·))) := by
    rw [exactStringFrom, BitVec.add_zero]
  rw [hfirst]
  refine .bind still_kernelPtr fun p σ' ⟨hσ, hp, halign⟩ => ?_
  subst hσ
  cases p with
  | none => exact .ret ⟨rfl, .inl rfl⟩
  | some p =>
    refine .ite (fun _ => .ret ⟨rfl, .inr rfl⟩) fun _ => ?_
    have halign := halign rfl
    have hsome : (translate σ' r (vaddr + BitVec.ofNat 64 1)).isSome := by
      rw [translate_add halign (by decide), ← hp]
      rfl
    have hne : (vaddr + BitVec.ofNat 64 1).toNat % 4096 ≠ 0 := by
      rw [toNat_add_of_aligned halign (by decide)]
      omega
    exact .bind (Q := fun _ _ => False) (fails_of_unaligned hsome hne) fun _ _ h => h.elim

theorem getStubAddress_nil (stubsBase : U64) : getStubAddress stubsBase [] = none := by
  have hnames : ([] : List U8) ≠ "WriteFile".toUTF8.toList.map UInt8.toBitVec ∧
      ([] : List U8) ≠ "ReadFile".toUTF8.toList.map UInt8.toBitVec ∧
      ([] : List U8) ≠ "ExitProcess".toUTF8.toList.map UInt8.toBitVec := by
    decide +kernel
  unfold getStubAddress
  rw [if_neg hnames.1, if_neg hnames.2.1, if_neg hnames.2.2]

theorem still_patchThunk (imageBase stubsBase thunk : U64) (iatRva : U32) :
    Still σ (exactPatchThunk (r := r) imageBase stubsBase thunk iatRva) fun _ => True := by
  refine .reads_bind (.ite (fun _ => .ret ⟨rfl, trivial⟩) fun _ => ?_)
  refine .bind still_string fun string σ' ⟨hσ, hstring⟩ => ?_
  subst hσ
  rcases hstring with rfl | rfl
  · exact .ret ⟨rfl, trivial⟩
  · refine .ite (fun _ => ?_) fun _ => .ret ⟨rfl, trivial⟩
    rw [getStubAddress_nil]
    exact .ret ⟨rfl, trivial⟩

section

variable (halign : vaddr.toNat % 4096 = 0) (hp : translate σ r vaddr = some p)
include halign hp

/-- Bytes of the page of an address that is at its start. -/
theorem readLe_look {n : Nat} (hk : k + n ≤ 4096) :
    readLe (look σ r) (vaddr + BitVec.ofNat 64 k) n =
      readLe (readByte σ) (p + BitVec.ofNat 64 k) n := by
  refine readLe_congr fun i hi => ?_
  rw [BitVec.add_assoc, BitVec.add_assoc, ← ofNat_add, look, userByte,
    translate_add halign (by omega), hp]
  rfl

theorem readU32_look (hk : k + 4 ≤ 4096) :
    readU32 (look σ r) (vaddr + BitVec.ofNat 64 k) = readU32 (readByte σ) (p + BitVec.ofNat 64 k) :=
  congrArg (BitVec.ofNat 32) (readLe_look halign hp hk)

theorem readU64_look : readU64 (look σ r) vaddr = readU64 (readByte σ) p := by
  have hread := readLe_look (k := 0) (n := 8) halign hp (by decide)
  simp only [BitVec.add_zero] at hread
  exact congrArg (BitVec.ofNat 64) hread

end

/-- Where in its page something is that is `d` behind the start of a page. -/
theorem mod_rva_add {base : U64} {rva : U32} (d : U32)
    (halign : (base + rva.setWidth 64).toNat % 4096 = 0) :
    (base + (rva + d).setWidth 64).toNat % 4096 = d.toNat % 4096 := by
  rw [toNat_add, toNat_setWidth_of_le (by decide)] at halign ⊢
  rw [toNat_add]
  omega

/-- The second entry of a table is not at the start of a page if the first is. -/
theorem still_patchThunks {imageBase : U64} {table : U32} (stubsBase : U64) (iatRva : U32)
    (hfirst : (translate σ r (imageBase + table.setWidth 64)).isSome)
    (hsecond : readU64 (look σ r) (imageBase + table.setWidth 64) ≠ 0 →
      (translate σ r (imageBase + (table + 8).setWidth 64)).isSome) :
    Still σ (exactPatchThunks (r := r) imageBase stubsBase 2 table iatRva) fun _ => True := by
  refine .reads_bind (.bind still_kernelPtr fun p σ' ⟨hσ, hp, halign⟩ => ?_)
  change σ' = σ at hσ
  subst hσ
  cases p with
  | none =>
    rw [← hp] at hfirst
    cases hfirst
  | some p =>
    have halign := halign rfl
    refine .ite (fun _ => .ret ⟨rfl, trivial⟩) fun hthunk => ?_
    refine .bind (still_patchThunk _ _ _ _) fun _ σ'' ⟨hσ, _⟩ => ?_
    subst hσ
    refine .reads_bind (fails_of_unaligned (hsecond ?_) ?_)
    · rw [readU64_look halign hp.symm]
      exact hthunk
    · rw [mod_rva_add 8 halign]
      decide

theorem descriptorAt_zero :
    descriptorAt header 0 = header.imageBase + header.importDirectory.setWidth 64 := by
  rw [descriptorAt, Nat.mul_zero, BitVec.add_zero]

theorem entryAt_zero (table : U32) :
    entryAt header table 0 = header.imageBase + table.setWidth 64 := by
  rw [entryAt, Nat.mul_zero, BitVec.add_zero]

theorem Mapped.isSome {n : Nat} (h : Mapped σ r vaddr n) (hn : 0 < n) :
    (translate σ r vaddr).isSome := by
  have hfirst := h 0 hn
  rwa [BitVec.add_zero] at hfirst

/-- The functions of a library whose descriptor is at the start of a page. -/
theorem still_patchDescriptor (hmapped : ImportsMapped σ r header)
    (hlibrary : IsDescriptor σ r header 0) (halign : (descriptorAt header 0).toNat % 4096 = 0)
    (hp : translate σ r (descriptorAt header 0) = some p) (stubsBase : U64) (nameRva : U32) :
    Still σ (exactPatchDescriptor (r := r) header.imageBase stubsBase p nameRva 2)
      fun _ => True := by
  have horiginal : originalFirstThunk σ r header 0 = readU32 (readByte σ) p := by
    have hread := readU32_look (k := 0) halign hp (by decide)
    rwa [BitVec.add_zero, BitVec.add_zero] at hread
  have hfirst : firstThunk σ r header 0 = readU32 (readByte σ) (p + 16) :=
    readU32_look (k := 16) halign hp (by decide)
  refine .reads_bind (.bind still_string fun string σ' ⟨hσ, hstring⟩ => ?_)
  change σ' = σ at hσ
  subst hσ
  rcases hstring with rfl | rfl
  · exact .ret ⟨rfl, trivial⟩
  · refine .ite (fun _ => ?_) fun _ => .ret ⟨rfl, trivial⟩
    show Still σ' (exactPatchThunks header.imageBase stubsBase 2
      (if readU32 (readByte σ') p ≠ 0 then readU32 (readByte σ') p
        else readU32 (readByte σ') (p + 16)) (readU32 (readByte σ') (p + 16))) _
    rw [← horiginal, ← hfirst]
    have hthunk := hmapped.thunk 0 0 hlibrary nofun
    have hnext := hmapped.thunk 0 1 hlibrary
    rw [entryAt_zero] at hthunk
    refine still_patchThunks stubsBase _ (hthunk.isSome (by decide)) fun hne => ?_
    refine (hnext fun i hi => ?_).isSome (by decide)
    rw [Nat.lt_one_iff.mp hi, thunkOf, entryAt_zero]
    exact hne

/-- The second descriptor is not at the start of a page if the first is. -/
theorem still_patchDescriptors (hmapped : ImportsMapped σ r header) (hhas : HasImports header)
    (stubsBase : U64) :
    Still σ (exactPatchDescriptors (r := r) header.imageBase stubsBase 3 header.importDirectory)
      fun _ => (descriptorAt header 0).toNat % 4096 = 0 ∧ libraryName σ r header 0 = 0 := by
  have hfirst := (hmapped.descriptor 0 hhas nofun).isSome (by decide)
  rw [exactPatchDescriptors, ← descriptorAt_zero]
  refine .reads_bind (.bind still_kernelPtr fun p σ' ⟨hσ, hp, halign⟩ => ?_)
  change σ' = σ at hσ
  subst hσ
  cases p with
  | none =>
    rw [← hp] at hfirst
    cases hfirst
  | some p =>
    have halign := halign rfl
    have hname : libraryName σ' r header 0 = readU32 (readByte σ') (p + 12) :=
      readU32_look (k := 12) halign hp.symm (by decide)
    refine .ite (fun hzero => .ret ⟨rfl, halign, hname.trans hzero⟩) fun hne => ?_
    have hlibrary : IsDescriptor σ' r header 0 := by
      refine ⟨hhas, fun i hi => ?_⟩
      rw [Nat.le_zero.mp hi, hname]
      exact hne
    refine .bind (still_patchDescriptor hmapped hlibrary halign hp.symm _ _) ?_
    rintro _ σ'' ⟨hσ, -⟩
    subst hσ
    have hsecond := hmapped.descriptor 1 hhas fun i hi => hlibrary.2 i (Nat.lt_succ_iff.mp hi)
    refine .reads_bind (fails_of_unaligned (hsecond.isSome (by decide)) ?_)
    rw [descriptorAt_zero] at halign
    rw [mod_rva_add 20 halign]
    decide

/-! ## When imports are patched -/

theorem exactPatchImports_eq (hhas : HasImports header) (stubsBase : U64) (fuel : Nat) :
    exactPatchImports (r := r) header stubsBase fuel =
      exactPatchDescriptors header.imageBase stubsBase fuel header.importDirectory := by
  unfold exactPatchImports
  rw [if_neg (BitVec.not_le.mpr hhas.1), if_neg hhas.2]

theorem exactPatchImports_of_not (hhas : ¬ HasImports header) (stubsBase : U64) (fuel : Nat) :
    exactPatchImports (r := r) header stubsBase fuel = pure () := by
  unfold exactPatchImports
  split
  · rfl
  · next hnum => rw [if_pos (not_not.mp fun hne => hhas ⟨BitVec.not_le.mp hnum, hne⟩)]

/-- Without imports there is nothing to do. -/
theorem ends_noImports (hmapped : ImportsMapped σ r header) (hno : NoImports σ r header)
    (stubsBase : U64) (fuel : Nat) :
    Traced.EndsAt σ (exactPatchImports (r := r) header stubsBase (fuel + 1))
      (fun _ σ' => σ' = σ) fun _ => False := by
  by_cases hhas : HasImports header
  · obtain ⟨halign, hname⟩ := hno hhas
    have hfirst := (hmapped.descriptor 0 hhas nofun).isSome (by decide)
    obtain ⟨p, hp⟩ := Option.isSome_iff_exists.mp hfirst
    have hptr : vaddrToKernelPtr σ r (descriptorAt header 0) =
        translate σ r (descriptorAt header 0) := kernelPtr_eq_iff.mpr fun _ => halign
    have hread : libraryName σ r header 0 = readU32 (readByte σ) (p + 12) :=
      readU32_look (k := 12) halign hp (by decide)
    rw [exactPatchImports_eq hhas, exactPatchDescriptors, ← descriptorAt_zero]
    refine .reads_bind (.bind (Q := fun q σ' => q = some p ∧ σ' = σ) ?_ ?_)
    · exact .checked (absurd hptr) fun _ => ⟨hptr.trans hp, rfl⟩
    · rintro _ _ ⟨rfl, rfl⟩
      exact .ite (fun _ => .ret rfl) fun hne => absurd (hread.symm.trans hname) hne
  · rw [exactPatchImports_of_not hhas]
    exact .ret rfl

/-- **Every pointer is right, and exactly the imports are patched**, if and only if there are no
imports. -/
theorem patchImports_iff (hmapped : ImportsMapped σ r header) (stubsBase : U64) :
    ((∀ fuel, Traced.Passes σ (exactPatchImports (r := r) header stubsBase fuel)
          (patchImports header stubsBase fuel)) ∧
        ∃ fuel, (patchImports (r := r) header stubsBase fuel σ).result = .ok () ∧
          Patched σ (patchImports (r := r) header stubsBase fuel σ).state r header stubsBase) ↔
      NoImports σ r header := by
  constructor
  · rintro ⟨hpasses, -⟩ hhas
    have hne := (hpasses 3).result_ne
    rw [exactPatchImports_eq hhas] at hne
    have hends := still_patchDescriptors hmapped hhas stubsBase
    cases hresult : (exactPatchDescriptors (r := r) header.imageBase stubsBase 3
        header.importDirectory σ).result with
    | ok u => exact (hends.1 u hresult).2
    | error e => exact absurd (hresult.trans (congrArg _ (hends.2 e hresult))) hne
  · intro hno
    have hpasses : ∀ fuel, Traced.Passes σ (exactPatchImports (r := r) header stubsBase fuel)
        (patchImports header stubsBase fuel) := by
      intro fuel
      rw [(checks_exactPatchImports header stubsBase fuel).passes_iff σ]
      cases fuel with
      | zero =>
        by_cases hhas : HasImports header
        · rw [exactPatchImports_eq hhas]
          exact nofun
        · rw [exactPatchImports_of_not hhas]
          exact nofun
      | succ fuel => exact fun hfault => (ends_noImports hmapped hno stubsBase fuel).2 _ hfault
    refine ⟨hpasses, 1, ?_⟩
    obtain ⟨hresult, -, hstate⟩ := hpasses 1
    have hends := ends_noImports hmapped hno stubsBase 0
    cases hload : (patchImports (r := r) header stubsBase 1 σ).result with
    | error e =>
      rw [hload] at hresult
      exact (hends.2 _ hresult).elim
    | ok u =>
      rw [hload] at hresult
      have hsame := hstate.symm.trans (hends.1 u hresult)
      refine ⟨rfl, ?_⟩
      rw [hsame]
      refine ⟨fun j k hthunk => ?_, fun _ _ => rfl⟩
      exact absurd (hno hthunk.1.1).2 (hthunk.1.2 0 (Nat.zero_le j))

/-- All that is on a page that is mapped. -/
theorem mapped_of_page {o n : Nat} (halign : vaddr.toNat % 4096 = 0)
    (hsome : (translate σ r vaddr).isSome) (hn : o + n ≤ 4096) :
    Mapped σ r (vaddr + BitVec.ofNat 64 o) n := by
  intro k hk
  rw [BitVec.add_assoc, ← ofNat_add, translate_add halign (by omega), Option.isSome_map]
  exact hsome

theorem Mapped.string (h : Mapped σ r vaddr 127) : StringMapped σ r vaddr :=
  fun k hk _ => h k hk

end

/-! ## A section with an import -/

/-- A directory at offset 16 with one library, which has the name at offset 80, and of which one
function is imported: the table of its functions is at offset 56, the table of their addresses at
offset 72, and the name of the function at offset 84. -/
def importSlice : Slice where
  data := ⟨List.replicate 16 0 ++ field 4 0x1038 ++ field 8 0 ++ field 4 0x1050 ++ field 4 0x1048 ++
    List.replicate 20 0 ++ field 8 0x1052 ++ field 8 0 ++ field 8 0x1052 ++ [0x6B, 0, 0, 0] ++
    "WriteFile".toUTF8.toList.map UInt8.toBitVec, by decide +kernel⟩
  around := fun _ _ => 0

def importSection : PeSectionHeader := ⟨0x1000, 0x1000, 93, 0, 0⟩

/-- The section is loaded into a page table of `smallSystem`. -/
def importLoad :
    Traced.Outcome (fun σ (a : Action) σ' => σ' = a.run 0x2000 σ) Stop Unit
      (smallSystem.create 0x2000).machine :=
  loadSection importSection 0x400000 importSlice (smallSystem.create 0x2000).machine

/-- A header with the directory at this address of the image. -/
def importHeader (importDirectory : U32) : PeOptionalHeader64 :=
  ⟨0x20b, 0, 0x400000, 16, importDirectory⟩

theorem importLoad_ok : importLoad.result = .ok () := by
  decide +kernel

theorem mapped_importLoad {o n : Nat} (hn : o + n ≤ 4096) :
    Mapped importLoad.state 0x2000 (0x401000 + BitVec.ofNat 64 o) n := by
  have hpage : (translate importLoad.state 0x2000 0x401000).isSome := by decide +kernel
  exact mapped_of_page (by decide) hpage hn

/-- At the start of the section there is nothing, which is an empty directory. -/
theorem patchImports_empty :
    NoImports importLoad.state 0x2000 (importHeader 0x1000) ∧
      ∃ fuel, (patchImports (r := 0x2000) (importHeader 0x1000) stubsVirt fuel
        importLoad.state).result = .ok () := by
  have hname : libraryName importLoad.state 0x2000 (importHeader 0x1000) 0 = 0 := by
    decide +kernel
  have hnot : ∀ j, ¬ IsDescriptor importLoad.state 0x2000 (importHeader 0x1000) j :=
    fun j h => h.2 0 (Nat.zero_le j) hname
  have hno : NoImports importLoad.state 0x2000 (importHeader 0x1000) :=
    fun _ => ⟨by decide, hname⟩
  have hmapped : ImportsMapped importLoad.state 0x2000 (importHeader 0x1000) := by
    refine ⟨fun j _ hj => ?_, fun j h => absurd h (hnot j), fun j _ h => absurd h (hnot j),
      fun j _ h => absurd h.1 (hnot j), fun j _ h => absurd h.1 (hnot j)⟩
    rcases Nat.eq_zero_or_pos j with rfl | hpos
    · exact mapped_importLoad (o := 0) (by decide)
    · exact absurd hname (hj 0 hpos)
  obtain ⟨-, fuel, hresult, -⟩ :=
    (patchImports_iff hmapped stubsVirt).mpr hno
  exact ⟨hno, fuel, hresult⟩

/-- What the loader reads of imports at offset 16 of their page. -/
theorem importLoad_reads : libraryName importLoad.state 0x2000 (importHeader 0x1010) 0 = 0x1050 ∧
    libraryName importLoad.state 0x2000 (importHeader 0x1010) 1 = 0 ∧
    thunkTable importLoad.state 0x2000 (importHeader 0x1010) 0 = 0x1038 ∧
    firstThunk importLoad.state 0x2000 (importHeader 0x1010) 0 = 0x1048 ∧
    thunkOf importLoad.state 0x2000 (importHeader 0x1010) 0 0 = 0x1052 ∧
    thunkOf importLoad.state 0x2000 (importHeader 0x1010) 0 1 = 0 ∧
    readU64 (look importLoad.state 0x2000) 0x401048 ≠ stubsVirt := by
  decide +kernel

theorem importsMapped_importLoad : ImportsMapped importLoad.state 0x2000 (importHeader 0x1010) := by
  obtain ⟨hlibrary, hlast, htable, hfirst, hthunk, hend, -⟩ := importLoad_reads
  have hzero : ∀ {j}, IsDescriptor importLoad.state 0x2000 (importHeader 0x1010) j → j = 0 := by
    intro j h
    by_contra hj
    exact h.2 1 (Nat.pos_of_ne_zero hj) hlast
  have hzero' : ∀ {j k}, IsThunk importLoad.state 0x2000 (importHeader 0x1010) j k →
      j = 0 ∧ k = 0 := by
    intro j k h
    have hj := hzero h.1
    subst hj
    refine ⟨rfl, ?_⟩
    by_contra hk
    exact h.2 1 (Nat.pos_of_ne_zero hk) hend
  constructor
  · intro j _ hj
    have hcases : j = 0 ∨ j = 1 := by
      by_contra hne
      exact hj 1 (by omega) hlast
    rcases hcases with rfl | rfl
    · exact mapped_importLoad (o := 16) (by decide)
    · exact mapped_importLoad (o := 36) (by decide)
  · intro j h
    rw [hzero h, hlibrary]
    exact Mapped.string (mapped_importLoad (o := 80) (by decide))
  · intro j k h hk
    rw [hzero h] at hk ⊢
    have hcases : k = 0 ∨ k = 1 := by
      by_contra hne
      exact hk 1 (by omega) hend
    rw [htable]
    rcases hcases with rfl | rfl
    · exact mapped_importLoad (o := 56) (by decide)
    · exact mapped_importLoad (o := 64) (by decide)
  · intro j k h _
    obtain ⟨rfl, rfl⟩ := hzero' h
    rw [functionAt, hthunk]
    exact Mapped.string (mapped_importLoad (o := 84) (by decide))
  · intro j k h
    obtain ⟨rfl, rfl⟩ := hzero' h
    rw [slotAt, hfirst]
    exact mapped_importLoad (o := 72) (by decide)

theorem isThunk_importLoad : IsThunk importLoad.state 0x2000 (importHeader 0x1010) 0 0 := by
  obtain ⟨hlibrary, -, -, -, hthunk, -⟩ := importLoad_reads
  refine ⟨⟨by decide, fun i hi => ?_⟩, fun i hi => ?_⟩
  · rw [Nat.le_zero.mp hi, hlibrary]
    decide
  · rw [Nat.le_zero.mp hi, hthunk]
    decide

theorem stringAt_importLoad : stringAt importLoad.state 0x2000 0x401054 =
    "WriteFile".toUTF8.toList.map UInt8.toBitVec := by
  decide +kernel

theorem importedStub_importLoad :
    importedStub importLoad.state 0x2000 (importHeader 0x1010) stubsVirt 0 0 =
      some stubsVirt := by
  obtain ⟨-, -, -, -, hthunk, -⟩ := importLoad_reads
  have hordinal : isOrdinal 0x1052 = false := by decide
  have haddress : (importHeader 0x1010).imageBase +
      ((0x1052 : U64).setWidth 32 + 2 : U32).setWidth 64 = 0x401054 := by
    decide
  rw [importedStub, functionAt, hthunk, hordinal, if_neg Bool.false_ne_true, haddress,
    stringAt_importLoad]
  decide +kernel

/-- The pointer to the directory is 16 bytes off. -/
theorem pointer_importLoad : translate importLoad.state 0x2000 0x401010 = some 0x3010 ∧
      vaddrToKernelPtr importLoad.state 0x2000 0x401010 = some 0x3020 ∧
      readU32 (readByte importLoad.state) (0x3020 + 12) = 0 := by
  decide +kernel

theorem ends_importLoad :
    Traced.EndsAt importLoad.state (patchImports (r := 0x2000) (importHeader 0x1010)
      stubsVirt 1) (fun _ σ' => σ' = importLoad.state) fun _ => False := by
  have haddress : (importHeader 0x1010).imageBase +
      (importHeader 0x1010).importDirectory.setWidth 64 = 0x401010 := by
    decide
  obtain ⟨-, hpointer, hzero⟩ := pointer_importLoad
  refine .reads_bind ?_
  rw [rvaToKernelPtr, haddress, id, hpointer]
  exact .ite (fun _ => .ret rfl) (absurd hzero)

/-- `WriteFile` is imported by name and everything is mapped. But no library is found, and the
address of the function stays as it is in the file. -/
theorem not_patched_unaligned :
    importLoad.result = .ok () ∧
    ImportsMapped importLoad.state 0x2000 (importHeader 0x1010) ∧
    IsThunk importLoad.state 0x2000 (importHeader 0x1010) 0 0 ∧
    importedStub importLoad.state 0x2000 (importHeader 0x1010) stubsVirt 0 0 =
      some stubsVirt ∧
    translate importLoad.state 0x2000 0x401010 = some 0x3010 ∧
    vaddrToKernelPtr importLoad.state 0x2000 0x401010 = some 0x3020 ∧
    (∃ u, (patchImports (r := 0x2000) (importHeader 0x1010) stubsVirt 1
      importLoad.state).result = .ok u) ∧
    ¬ Patched importLoad.state (patchImports (r := 0x2000) (importHeader 0x1010)
      stubsVirt 1 importLoad.state).state 0x2000 (importHeader 0x1010)
      stubsVirt := by
  obtain ⟨htranslate, hpointer, -⟩ := pointer_importLoad
  obtain ⟨-, -, -, hfirst, -, -, hkept⟩ := importLoad_reads
  refine ⟨importLoad_ok, importsMapped_importLoad, isThunk_importLoad, importedStub_importLoad,
    htranslate, hpointer, ?_⟩
  cases hresult : (patchImports (r := 0x2000) (importHeader 0x1010) stubsVirt 1
      importLoad.state).result with
  | error e => exact (ends_importLoad.2 e hresult).elim
  | ok u =>
    refine ⟨⟨u, rfl⟩, fun h => ?_⟩
    have hslot := h.slots 0 0 isThunk_importLoad
    rw [importedStub_importLoad, slotAt, hfirst, ends_importLoad.1 u hresult] at hslot
    exact hkept hslot

end PeLoader

end BeastOs.UniversalExec
