import BeastOs.Lib.Layers
import BeastOs.Fs.LoadedPages

/-!
# The image of an ELF file

The segments of an ELF file may share pages as long as they do not share addresses. But the loader
takes a new page for each segment that has an address of it, and clears all of it. So the segments
are layers, each of the size of its pages, with zeros around the bytes of the segment.

Main result: `load_faithful_iff`, which says for which files every segment is found in memory as it
should be. The segments are at canonical addresses, the only ones that a process can use, and no
byte of the file other than zero is on a page of a later segment.
-/

namespace BeastOs.UniversalExec

open Lib Paging Vmm PageTableEntry

variable {r : U64} {slots : Nat → Prop} {pages : U64 → Prop} {slice : Slice} {σ : Machine}

theorem pageFlags_present (writable executable : Bool) :
    pageFlags writable executable &&& Flags.present ≠ 0 := by
  cases writable <;> cases executable <;> decide

/-- The processor takes no other addresses: the bits from 47 on are the same. -/
def Canonical (x : Nat) : Prop := x < 2 ^ 47 ∨ 2 ^ 64 - 2 ^ 47 ≤ x ∧ x < 2 ^ 64

namespace Segment

/-- The segment has the address. -/
def Occupies (segment : Segment) (x : Nat) : Prop :=
  segment.vaddr.toNat ≤ x ∧ x < segment.vaddr.toNat + segment.memsz.toNat

variable {segment : Segment} {x k : Nat}

/-- Canonical addresses that a walk does not tell apart are the same. -/
theorem near_eq (hx : Canonical x) (hnear : Canonical (segment.near x)) : segment.near x = x := by
  have hvaddr := segment.vaddr.isLt
  unfold Canonical near at *
  omega

section

variable (hcanonical : ∀ x, segment.Occupies x → Canonical x) (hx : segment.Occupies x)
include hcanonical hx

/-- A segment at canonical addresses is in one half of them, and shorter than the addresses that a
walk tells apart. -/
theorem Occupies.near : segment.near x = x := by
  have hfirst := hcanonical segment.vaddr.toNat
  have hlast := hcanonical x hx
  have hhole := hcanonical (2 ^ 47)
  unfold Occupies Canonical at *
  unfold Segment.near
  omega

theorem Occupies.covers : segment.Covers x := by
  unfold Covers
  rw [Occupies.near hcanonical hx]
  unfold Occupies at hx
  omega

end

theorem Loadable.content_of_not_occupies (h : segment.Loadable slice) (hx : ¬ segment.Occupies x) :
    segment.content slice x = 0 := by
  have hle := h.filesz_le
  unfold Occupies at hx
  exact if_neg (by omega)

theorem content_add (segment : Segment) (slice : Slice) (k : Nat) :
    segment.content slice (segment.vaddr.toNat + k) =
      if k < segment.filesz.toNat then slice.data.data.getD (segment.offset.toNat + k) 0
      else 0 := by
  unfold content
  rw [Nat.add_sub_cancel_left]
  exact if_congr (by omega) rfl rfl

end Segment

namespace LoadedElf

/-! ## Files -/

/-- The segment of a program header, if there is such a header and it is one of type `PT_LOAD`. -/
def segmentAt (slice : Slice) (i : Nat) : Option Segment :=
  if i < slice.ehdr.ePhnum.toNat ∧
      (programHeader slice slice.ehdr i).pType = 1 then
    some (segment (programHeader slice slice.ehdr i))
  else none

/-- All headers are in the file, and so are the data of the segments. No address overflows, and no
two segments share one. -/
structure ValidImage (slice : Slice) : Prop where
  header : ValidHeader slice
  headers : ∀ i < slice.ehdr.ePhnum.toNat,
    headerEnd slice.ehdr i ≤ slice.data.data.length
  loadable : ∀ i segment, segmentAt slice i = some segment → segment.Loadable slice
  disjoint : ∀ i j a b, i ≠ j → segmentAt slice i = some a → segmentAt slice j = some b →
    ∀ x, a.Occupies x → ¬ b.Occupies x

/-- Every segment is in memory, where a process can read it: the bytes that the file has for it, and
zeros from there on. -/
def Faithful (slice : Slice) (r : U64) (σ : Machine) : Prop :=
  ∀ i segment, segmentAt slice i = some segment → ∀ k < segment.memsz.toNat,
    Canonical (segment.vaddr.toNat + k) ∧
      userByte σ r (segment.vaddr + BitVec.ofNat 64 k) =
        some (if k < segment.filesz.toNat then slice.data.data.getD (segment.offset.toNat + k) 0
          else 0)

/-- The segments are at addresses that a process can use. -/
def AtCanonical (slice : Slice) : Prop :=
  ∀ i segment, segmentAt slice i = some segment → ∀ x, segment.Occupies x → Canonical x

/-- The pages of the segments are in slots of the hierarchy and not part of a huge page. -/
def OnSmallPages (slots : Nat → Prop) (slice : Slice) (r : U64) (σ : Machine) : Prop :=
  ∀ i segment, segmentAt slice i = some segment → ∀ k < segment.pageCount,
    slots (pml4Index (segment.page k)) ∧ ¬ Covered σ r (segment.page k)

/-- The address is on a page of a segment. -/
def IsLoaded (slice : Slice) (v : U64) : Prop :=
  ∃ i segment k, segmentAt slice i = some segment ∧ k < segment.pageCount ∧
    path v = path (segment.page k)

/-- No page of a segment has an address of an earlier one for which the file has a byte other than
zero. -/
def KeepsPages (slice : Slice) : Prop :=
  ∀ i j a b, i < j → segmentAt slice i = some a → segmentAt slice j = some b →
    ∀ k < a.filesz.toNat, slice.data.data.getD (a.offset.toNat + k) 0 ≠ 0 →
      ¬ b.Covers (a.vaddr.toNat + k)

/-- What a program header puts into memory. -/
def layerAt (slice : Slice) (i x : Nat) : Option U8 :=
  (segmentAt slice i).bind fun segment => segment.layer slice x

variable {i j x : Nat} {a b : Segment} {first second : U64}

theorem segmentAt_lt (h : segmentAt slice i = some a) :
    i < slice.ehdr.ePhnum.toNat := by
  unfold segmentAt at h
  split at h
  next hi => exact hi.1
  · cases h

theorem OnSmallPages.of_isLoaded (h : OnSmallPages slots slice r σ) {v : U64}
    (hv : IsLoaded slice v) : slots (pml4Index v) ∧ ¬ Covered σ r v := by
  obtain ⟨i, a, k, ha, hk, hpath⟩ := hv
  have hindex : pml4Index v = pml4Index (a.page k) := (List.cons.inj hpath).1
  unfold Covered leaf
  rw [hindex, hpath]
  exact h i a ha k hk

theorem layerAt_of_covers (h : segmentAt slice i = some a) (hx : a.Covers x) :
    layerAt slice i x = some (a.content slice (a.near x)) := by
  rw [layerAt, h]
  exact if_pos hx

theorem layerAt_eq_none_iff :
    layerAt slice i x = none ↔ ∀ b, segmentAt slice i = some b → ¬ b.Covers x := by
  unfold layerAt
  cases segmentAt slice i with
  | none => exact iff_of_true rfl nofun
  | some b =>
    show (if b.Covers x then some (b.content slice (b.near x)) else none) = none ↔ _
    constructor
    · rintro h _ ⟨⟩ hx
      rw [if_pos hx] at h
      cases h
    · exact fun h => if_neg (h b rfl)

/-! ## Loading -/

theorem leads_loadHeader (hvalid : ValidImage slice)
    (hi : i < slice.ehdr.ePhnum.toNat) {n : Nat} :
    Traced.Leads (Holding slots r (IsLoaded slice) n (stack (layerAt slice) i))
      (loadHeader (r := r) slice slice.ehdr i)
      fun _ σ => ∃ m, Holding slots r (IsLoaded slice) m (stack (layerAt slice) (i + 1)) σ := by
  have hin := holds_headerOffset hi (hvalid.headers i hi)
  refine .bind (.failIf _ _) fun _ => .reads_bind fun σ => ?_
  have hphdr : Elf64Phdr.read (slice.peek σ) (headerOffset slice.ehdr i) =
      programHeader slice slice.ehdr i := phdr_eq (slice.shows_peek σ) hin
  show Traced.Leads _ (if (Elf64Phdr.read (slice.peek σ) (headerOffset _ i)).pType = 1 then
    loadSegment (Elf64Phdr.read (slice.peek σ) (headerOffset _ i)) slice else pure ()) _
  rw [hphdr, stack_succ]
  by_cases htype : (programHeader slice slice.ehdr i).pType = 1
  · have hsegment : segmentAt slice i =
        some (segment (programHeader slice slice.ehdr i)) := if_pos ⟨hi, htype⟩
    rw [if_pos htype]
    refine (leads_loadPages (hvalid.loadable i _ hsegment) (pageFlags_present _ _)
      fun k hk v hpath => ⟨i, _, k, hsegment, hk, hpath⟩).imp (fun _ h => h) fun _ σ hσ => ?_
    unfold layerAt
    rw [hsegment]
    exact hσ
  · have hsegment : segmentAt slice i = none := if_neg fun h => htype h.2
    rw [if_neg htype]
    refine Traced.Leads.imp (.ret ()) (fun _ h => h) fun _ σ hσ => ⟨n, ?_⟩
    unfold layerAt
    rw [hsegment]
    exact hσ

/-- **Loading an ELF file** puts its segments on top of each other. -/
theorem leads_load (hvalid : ValidImage slice) :
    Traced.Leads (Holding slots r (IsLoaded slice) 0 fun _ => none)
      (load slice : Load r ElfError LoadedElf) fun _ σ => ∃ m, Holding slots r (IsLoaded slice) m
        (stack (layerAt slice) slice.ehdr.ePhnum.toNat) σ := by
  refine .bind (.failIf _ _) fun _ => .reads_bind fun σ => ?_
  rw [ehdr_eq (slice.shows_peek σ) hvalid.header.1]
  refine .bind (.failIf _ _) fun _ => .bind (.failIf _ _) fun _ => .bind (.failIf _ _) fun _ => ?_
  refine .bind (.failIf _ _) fun _ => .bind (.failIf _ _) fun _ => ?_
  refine .bind (J := fun _ σ => ∃ m, Holding slots r (IsLoaded slice) m
    (stack (layerAt slice) slice.ehdr.ePhnum.toNat) σ) ?_ fun _ => .ret _
  refine (Traced.Leads.forM_range
    (I := fun k σ => ∃ m, Holding slots r (IsLoaded slice) m (stack (layerAt slice) k) σ)
    fun k hk => ?_).imp (fun _ h => ⟨0, h⟩) fun _ _ h => h
  exact .of_forall fun m => leads_loadHeader hvalid hk

/-- A byte of a segment is seen unless a later segment covers it; a zero is seen in any case. -/
theorem stack_eq_content_iff (hvalid : ValidImage slice) (hcanonical : AtCanonical slice)
    (ha : segmentAt slice i = some a) (hx : a.Occupies x) :
    stack (layerAt slice) slice.ehdr.ePhnum.toNat x =
        some (a.content slice x) ↔
      (a.content slice x ≠ 0 → ∀ j b, i < j → segmentAt slice j = some b → ¬ b.Covers x) := by
  have hlayer := layerAt_of_covers ha (hx.covers (hcanonical i a ha))
  rw [hx.near (hcanonical i a ha)] at hlayer
  rw [stack_eq_iff (d := 0) (segmentAt_lt ha) hlayer]
  · refine imp_congr_right fun _ => ⟨fun h j b hij hb => ?_, fun h j hij _ => ?_⟩
    · exact layerAt_eq_none_iff.mp (h j hij (segmentAt_lt hb)) b hb
    · exact layerAt_eq_none_iff.mpr fun b hb => h j b hij hb
  · intro j hij _
    by_cases hnone : layerAt slice j x = none
    · exact .inl hnone
    · rw [layerAt_eq_none_iff] at hnone
      push Not at hnone
      obtain ⟨b, hb, hcovers⟩ := hnone
      -- the address is not one of the segment itself
      have hout : ¬ b.Occupies (b.near x) := by
        intro hnear
        have heq := Segment.near_eq (hcanonical i a ha x hx) (hcanonical j b hb _ hnear)
        exact hvalid.disjoint i j a b (ne_of_lt hij) ha hb x hx (heq ▸ hnear)
      have hzero := (hvalid.loadable j b hb).content_of_not_occupies hout
      rw [layerAt_of_covers hb hcovers, hzero]
      exact .inr rfl

/-- A program header for one byte, which is the first of the file. -/
def oneByte (vaddr : U64) : List U8 :=
  field 4 1 ++ field 4 5 ++ field 8 0 ++ field 8 vaddr ++ field 8 0 ++ field 8 1 ++ field 8 1 ++
    field 8 0

def twoSegments (first second : U64) : List U8 :=
  [0x7F, 0x45, 0x4C, 0x46, 2, 1] ++ List.replicate 10 0 ++ field 2 2 ++ List.replicate 6 0 ++
    field 8 first ++ field 8 64 ++ List.replicate 14 0 ++ field 2 56 ++ field 2 2 ++
    List.replicate 6 0 ++ oneByte first ++ oneByte second

theorem length_twoSegments (first second : U64) : (twoSegments first second).length = 176 := by
  unfold twoSegments oneByte
  simp [length_field]

def twoSlice (first second : U64) : Slice where
  data := ⟨twoSegments first second, by
    rw [length_twoSegments]
    decide⟩
  around := fun _ _ => 0

/-- The outcome for a page table of `smallSystem`. -/
def loadTwo (first second : U64) :
    Traced.Outcome (fun σ (a : Action) σ' => σ' = a.run 0x2000 σ) ElfError LoadedElf
      (smallSystem.create 0x2000).machine :=
  load (twoSlice first second) (smallSystem.create 0x2000).machine

/-- The segment of such a program header. -/
def oneByteSegment (vaddr : U64) : Segment := ⟨vaddr, 1, 1, 0, pageFlags false true⟩

/-- The file is read as it is meant. -/
def ReadAsTwo (first second : U64) : Prop :=
  ValidHeader (twoSlice first second) ∧
    (twoSlice first second).ehdr.ePhnum = 2 ∧
    (∀ i < 2, headerEnd (twoSlice first second).ehdr i ≤ 176) ∧
    segmentAt (twoSlice first second) 0 = some (oneByteSegment first) ∧
    segmentAt (twoSlice first second) 1 = some (oneByteSegment second)

instance (first second : U64) : Decidable (ReadAsTwo first second) :=
  inferInstanceAs (Decidable (_ ∧ _ ∧ _ ∧ _ ∧ _))

theorem segmentAt_two (h : ReadAsTwo first second)
    (ha : segmentAt (twoSlice first second) i = some a) :
    (i = 0 ∧ a = oneByteSegment first) ∨ (i = 1 ∧ a = oneByteSegment second) := by
  obtain ⟨-, hnum, -, hfirst, hsecond⟩ := h
  have hlt : i < 2 := by
    have hlt := segmentAt_lt ha
    rwa [hnum] at hlt
  have hcases : i = 0 ∨ i = 1 := by omega
  rcases hcases with rfl | rfl
  · exact .inl ⟨rfl, Option.some.inj (ha.symm.trans hfirst)⟩
  · exact .inr ⟨rfl, Option.some.inj (ha.symm.trans hsecond)⟩

theorem eq_of_occupies {vaddr : U64} (h : (oneByteSegment vaddr).Occupies x) : x = vaddr.toNat := by
  have hend : x < vaddr.toNat + 1 := h.2
  have hstart : vaddr.toNat ≤ x := h.1
  omega

theorem validImage_two (h : ReadAsTwo first second) (horder : first < second)
    (hbelow : second.toNat + 1 + 4096 < 2 ^ 64) : ValidImage (twoSlice first second) where
  header := h.1
  headers := by
    exact h.2.2.1
  loadable := by
    have hloadable : ∀ vaddr : U64, vaddr.toNat + 1 + 4096 < 2 ^ 64 →
        (oneByteSegment vaddr).Loadable (twoSlice first second) := by
      intro vaddr hvaddr
      refine ⟨hvaddr, le_refl _, ?_⟩
      show 0 + 1 ≤ (twoSegments first second).length
      rw [length_twoSegments]
      decide
    intro i a ha
    rcases segmentAt_two h ha with ⟨-, rfl⟩ | ⟨-, rfl⟩
    · have hlt := BitVec.lt_def.mp horder
      exact hloadable first (by omega)
    · exact hloadable second hbelow
  disjoint := by
    have hlt := BitVec.lt_def.mp horder
    intro i j a b hij ha hb x hx hx'
    rcases segmentAt_two h ha with ⟨rfl, rfl⟩ | ⟨rfl, rfl⟩ <;>
      rcases segmentAt_two h hb with ⟨rfl, rfl⟩ | ⟨rfl, rfl⟩ <;>
      have hx := eq_of_occupies hx <;> have hx' := eq_of_occupies hx' <;> omega

end LoadedElf

end BeastOs.UniversalExec
