import BeastOs.Fs.ElfSafety
import BeastOs.Memory.SmallPages

/-!
# What a load leaves in memory

A page of a segment is allocated, mapped, cleared, and filled with what the file has for it. So the
addresses of a process that have been loaded so far form an image, a partial map from addresses to
bytes, and loading a page replaces the image on all of that page, whatever was there before. A walk
looks at the bits 12 to 47 of an address only, so that addresses which differ in the upper bits are
on one page.

`Holding` says that memory holds an image: for each page of it there is a page frame, and no two
pages have the same. The frames are neither free nor tables, and so neither the allocation nor the
mapping of another page changes what they hold.

Main result: `leads_loadPages`, for one segment.
-/

namespace BeastOs.UniversalExec

open BitVec Function Lib PageTableEntry Paging Vmm

variable {virt r u phys flags : U64} {n m x o : Nat} {σ σ' : Machine}

/-! ## Bytes of a page frame -/

/-- What is at an address depends on its page frame only. -/
theorem readByte_congr (hphys : pageBase phys = phys) (hmem : σ'.mem phys = σ.mem phys)
    (ho : o < 4096) :
    readByte σ' (phys + BitVec.ofNat 64 o) = readByte σ (phys + BitVec.ofNat 64 o) := by
  unfold readByte
  rw [pageBase_add hphys ho, hmem]

/-- A store to a part of a page frame. -/
theorem readByte_writeBytes {offset : U64} {bytes : List U8}
    (hlen : offset.toNat + bytes.length ≤ 4096) (ho : o < 4096) :
    readByte (Vmm.writeBytes σ (phys + offset) bytes) (phys + BitVec.ofNat 64 o) =
      if h : offset.toNat ≤ o ∧ o - offset.toNat < bytes.length then bytes[o - offset.toNat]
      else readByte σ (phys + BitVec.ofNat 64 o) := by
  have hat : At (phys + BitVec.ofNat 64 o) (pageBase (phys + BitVec.ofNat 64 o))
      (wordIndex (phys + BitVec.ofNat 64 o)) (byteIndex (phys + BitVec.ofNat 64 o)) :=
    ⟨rfl, rfl, rfl⟩
  by_cases h : offset.toNat ≤ o ∧ o - offset.toNat < bytes.length
  · rw [dif_pos h]
    refine byte_writeBytes (by omega) h.2 ?_
    rw [add_offset, Nat.add_sub_cancel' h.1]
    exact hat
  · rw [dif_neg h]
    refine byte_writeBytes_of_not (byteIndex_lt _) fun k hk hat' => ?_
    have heq := congrArg BitVec.toNat (hat.unique hat')
    have hlt := phys.isLt
    simp only [add_offset, toNat_add, toNat_ofNat] at heq
    omega

theorem readByte_cleared (hphys : pageBase phys = phys) (ho : o < 4096) :
    readByte (withEntries σ phys fun _ => Word.repeatByte 0) (phys + BitVec.ofNat 64 o) = 0 := by
  have hzero : ∀ k, Word.byte (Word.repeatByte 0) k = 0 := by
    intro k
    unfold Word.byte Word.repeatByte
    simp
  unfold readByte withEntries
  rw [pageBase_add hphys ho]
  dsimp only
  rw [update_self]
  exact hzero _

/-! ## Images -/

/-- The byte that a process finds at an address. -/
def userByte (σ : Machine) (r virt : U64) : Option U8 := (translate σ r virt).map (readByte σ)

/-- The page of an address. -/
def pathOf (x : Nat) : List Nat := path (BitVec.ofNat 64 x)

theorem pathOf_eq_iff (x : Nat) (virt : U64) :
    pathOf x = path virt ↔ x / 4096 % 2 ^ 36 = virt.toNat / 4096 % 2 ^ 36 := by
  rw [pathOf, path_eq_iff, toNat_ofNat]
  omega

section

variable (slots : Nat → Prop) (r : U64) (pages : U64 → Prop)

/-- The frames are mapped at their pages, and the pages that are still to come are in slots of the
hierarchy and not part of a huge page. -/
structure Backed (own : U64 → Option (U64 × List Nat)) (frames : List Nat → Option U64)
    (σ : Machine) : Prop where
  hierarchy : Hierarchy slots σ r own
  small : ∀ v, pages v → slots (pml4Index v) ∧ ¬ Covered σ r v
  aside : ∀ p u, frames p = some u → SetAside own σ u ∧ u &&& addressMask = u
  mapped : ∀ v u, frames (path v) = some u →
    pages v ∧ ∃ e, leaf σ r v = (0, e) ∧ isPresent e = true ∧ physicalAddress e = u
  distinct : ∀ p q u, frames p = some u → frames q = some u → p = q

/-- The frames hold the image. -/
def Shown (frames : List Nat → Option U64) (image : Nat → Option U8) (σ : Machine) : Prop :=
  ∀ x b, image x = some b →
    ∃ u, frames (pathOf x) = some u ∧ readByte σ (u + BitVec.ofNat 64 (x % 4096)) = b

/-- So many pages have been taken, at least. -/
def Spent (n : Nat) (σ : Machine) : Prop := σ.pmm.freeSet.card + n ≤ Pmm.maxPages

/-- Memory holds the image, after `n` pages have been loaded. -/
def Holding (n : Nat) (image : Nat → Option U8) (σ : Machine) : Prop :=
  ∃ own frames, Backed slots r pages own frames σ ∧ Shown frames image σ ∧ Spent n σ

/-- Besides, there is a page frame for one more page. -/
def Pending (n : Nat) (image : Nat → Option U8) (phys : U64) (σ : Machine) : Prop :=
  ∃ own frames, Backed slots r pages own frames σ ∧ Shown frames image σ ∧ Spent n σ ∧
    (SetAside own σ phys ∧ phys &&& addressMask = phys) ∧ ∀ p, frames p ≠ some phys

/-- The image with other contents of a page. -/
def onPage (p : List Nat) (c : Nat → Option U8) (image : Nat → Option U8) : Nat → Option U8 :=
  fun x => if pathOf x = p then c (x % 4096) else image x

/-- The image has been replaced on the page of `virt`, which has the frame `phys` now and holds
`c`. -/
def Filled (n : Nat) (image : Nat → Option U8) (virt phys : U64) (c : Nat → Option U8)
    (σ : Machine) : Prop :=
  ∃ own frames, Backed slots r pages own frames σ ∧ frames (path virt) = some phys ∧
    Shown frames (onPage (path virt) c image) σ ∧ Spent n σ

end

section

variable {slots : Nat → Prop} {pages : U64 → Prop} {own : U64 → Option (U64 × List Nat)}
  {image : Nat → Option U8} {c c' : Nat → Option U8} {b : U8}

theorem onPage_of_eq (h : pathOf x = path virt) : onPage (path virt) c image x = c (x % 4096) :=
  if_pos h

theorem onPage_of_ne (h : pathOf x ≠ path virt) : onPage (path virt) c image x = image x := if_neg h

/-- What is held is what the process finds. -/
theorem Holding.userByte_eq (h : Holding slots r pages n image σ) (himage : image x = some b) :
    userByte σ r (BitVec.ofNat 64 x) = some b := by
  obtain ⟨own, frames, hback, hshown, -⟩ := h
  obtain ⟨u, hu, hbyte⟩ := hshown x b himage
  obtain ⟨hpage, e, hleaf, he, rfl⟩ := hback.mapped _ u hu
  have hoffset : offset 0 (BitVec.ofNat 64 x) = BitVec.ofNat 64 (x % 4096) := by
    refine eq_of_toNat_eq ?_
    rw [toNat_offset 0 _ (by decide), toNat_ofNat, toNat_ofNat]
    omega
  rw [userByte, hback.hierarchy.translate_eq (hback.small _ hpage).1, hleaf, frameOf, if_pos he,
    hoffset, Option.map_some, hbyte]

theorem holding_empty (h : Hierarchy slots σ r own)
    (hsmall : ∀ v, pages v → slots (pml4Index v) ∧ ¬ Covered σ r v) :
    Holding slots r pages 0 (fun _ => none) σ := by
  have hfree : σ.pmm.freeSet.card ≤ Pmm.maxPages := by
    refine (Finset.card_le_card fun page hpage => ?_).trans (Finset.card_range _).le
    exact Finset.mem_range.mpr (Pmm.mem_freeSet.mp hpage).1
  exact ⟨own, fun _ => none, ⟨h, hsmall, nofun, nofun, nofun⟩, nofun,
    (Nat.add_zero _).le.trans hfree⟩

/-! ## Steps -/

theorem Holding.allocPage {pmm' : Pmm} (h : Holding slots r pages n image σ)
    (halloc : σ.pmm.allocPage = (some u, pmm')) :
    Pending slots r pages (n + 1) image u { σ with pmm := pmm' } := by
  obtain ⟨own, frames, hback, hshown, htaken⟩ := h
  obtain ⟨hfree, hmask, -⟩ := free_of_allocPage halloc
  obtain ⟨hhierarchy, hu, haside⟩ := hback.hierarchy.allocPage halloc
  refine ⟨own, frames, ⟨hhierarchy, hback.small, ?_, hback.mapped, hback.distinct⟩, hshown, ?_,
    ⟨hu, hmask⟩, fun p hp => (hback.aside p u hp).1.2 hfree⟩
  · exact fun p s hs => ⟨haside s (hback.aside p s hs).1, (hback.aside p s hs).2⟩
  · obtain ⟨page, hpage, -, rfl⟩ := Pmm.allocPage_eq_some halloc
    have hcard := Finset.card_erase_add_one hpage
    unfold Spent at htaken ⊢
    rw [Pmm.freeSet_take]
    omega

theorem Pending.mapEntry (h : Pending slots r pages n image phys σ)
    (hpages : ∀ v, path v = path virt → pages v) (hf : flags &&& Flags.present ≠ 0)
    (hok : Vmm.mapEntry r virt phys flags σ = .ok () σ') :
    Filled slots r pages n image virt phys (fun _ => none) σ' := by
  obtain ⟨own, frames, hback, hshown, htaken, ⟨hphys, hmask⟩, hnew⟩ := h
  obtain ⟨hv, hsmall⟩ := hback.small virt (hpages virt rfl)
  obtain ⟨own', hmaps⟩ := hback.hierarchy.maps hv hsmall hok
  have hkept : ∀ p u, frames p = some u →
      (SetAside own' σ' u ∧ u &&& addressMask = u) ∧ σ'.mem u = σ.mem u := by
    intro p u hu
    obtain ⟨haside, hmask⟩ := hback.aside p u hu
    obtain ⟨haside', hmem⟩ := hmaps.setAside haside
    exact ⟨⟨haside', hmask⟩, hmem⟩
  refine ⟨own', update frames (path virt) (some phys), ⟨hmaps.hierarchy, ?_, ?_, ?_, ?_⟩,
    update_self .., ?_, ?_⟩
  · intro v hpage
    obtain ⟨hv, hsmall⟩ := hback.small v hpage
    exact ⟨hv, hmaps.not_covered hv hsmall⟩
  · intro p u hu
    rcases update_eq_some hu with ⟨-, rfl⟩ | ⟨-, hu⟩
    · exact ⟨(hmaps.setAside hphys).1, hmask⟩
    · exact (hkept p u hu).1
  · intro v u hu
    rcases update_eq_some hu with ⟨hpath, rfl⟩ | ⟨hpath, hu⟩
    · have hpage := hpages v hpath
      obtain ⟨hv, hsmall⟩ := hback.small v hpage
      refine ⟨hpage, setAddress u flags, ?_, ?_, ?_⟩
      · rw [hmaps.leaf_eq v hv hsmall, if_pos hpath]
      · rw [isPresent_setAddress, decide_eq_true hf]
      · rw [physicalAddress_setAddress, hmask]
    · obtain ⟨hpage, e, hleaf, he⟩ := hback.mapped v u hu
      obtain ⟨hv, hsmall⟩ := hback.small v hpage
      refine ⟨hpage, e, ?_, he⟩
      rw [hmaps.leaf_eq v hv hsmall, if_neg hpath, hleaf]
  · intro p q u hp hq
    rcases update_eq_some hp with ⟨rfl, rfl⟩ | ⟨-, hp⟩ <;>
      rcases update_eq_some hq with ⟨hq', hu⟩ | ⟨-, hq⟩
    · exact hq'.symm
    · exact absurd hq (hnew q)
    · exact absurd (hu ▸ hp) (hnew p)
    · exact hback.distinct p q u hp hq
  · intro x b hb
    by_cases hx : pathOf x = path virt
    · rw [onPage_of_eq hx] at hb
      cases hb
    · rw [onPage_of_ne hx] at hb
      obtain ⟨u, hu, hbyte⟩ := hshown x b hb
      obtain ⟨⟨-, hmask⟩, hmem⟩ := hkept _ u hu
      refine ⟨u, by rw [update_of_ne hx, hu], ?_⟩
      rw [readByte_congr (pageBase_of_addressMask hmask) hmem (Nat.mod_lt _ (by decide)), hbyte]
  · exact (Nat.add_le_add_right (Finset.card_le_card hmaps.free_le) n).trans htaken

section

variable (h : Filled slots r pages n image virt phys c σ)
include h

/-- A write to the page that is being filled. -/
theorem Filled.write (hmem : ∀ t ≠ phys, σ'.mem t = σ.mem t) (hpmm : σ'.pmm = σ.pmm)
    (hc : ∀ o < 4096, ∀ b, c' o = some b → readByte σ' (phys + BitVec.ofNat 64 o) = b) :
    Filled slots r pages n image virt phys c' σ' := by
  obtain ⟨own, frames, hback, hn, hshown, htaken⟩ := h
  obtain ⟨⟨hown, -⟩, -⟩ := hback.aside _ phys hn
  have hhierarchy : Hierarchy slots σ' r own :=
    hback.hierarchy.congr (fun s n hs => hmem s (Forest.ne_of_own hs hown)) hpmm
  have hleaf : ∀ v, slots (pml4Index v) → leaf σ' r v = leaf σ r v := by
    intro v hv
    unfold leaf
    rw [reading_congr fun x hx => ?_]
    obtain ⟨p₁, p₂, -, hx⟩ := hback.hierarchy.of_mem_trail hv hx
    rw [hmem x.1 (Forest.ne_of_own hx hown)]
  refine ⟨own, frames, ⟨hhierarchy, ?_, ?_, ?_, hback.distinct⟩, hn, ?_, ?_⟩
  · intro v hpage
    obtain ⟨hv, hsmall⟩ := hback.small v hpage
    refine ⟨hv, ?_⟩
    unfold Covered
    rw [hleaf v hv]
    exact hsmall
  · unfold SetAside
    rw [hpmm]
    exact hback.aside
  · intro v u hu
    obtain ⟨hpage, hentry⟩ := hback.mapped v u hu
    rw [hleaf v (hback.small v hpage).1]
    exact ⟨hpage, hentry⟩
  · intro x b hb
    by_cases hx : pathOf x = path virt
    · rw [onPage_of_eq hx] at hb
      exact ⟨phys, by rw [hx, hn], hc _ (Nat.mod_lt _ (by decide)) b hb⟩
    · rw [onPage_of_ne hx] at hb
      obtain ⟨u, hu, hbyte⟩ := hshown x b (by rw [onPage_of_ne hx, hb])
      have hne : u ≠ phys := by
        rintro rfl
        exact hx (hback.distinct _ _ u hu hn)
      have hmask := (hback.aside _ u hu).2
      refine ⟨u, hu, ?_⟩
      rw [readByte_congr (pageBase_of_addressMask hmask) (hmem u hne) (Nat.mod_lt _ (by decide)),
        hbyte]
  · unfold Spent
    rw [hpmm]
    exact htaken

theorem Filled.aligned : pageBase phys = phys := by
  obtain ⟨own, frames, hback, hn, -⟩ := h
  exact pageBase_of_addressMask (hback.aside _ phys hn).2

/-- The contents of the page that has been filled. -/
theorem Filled.readByte_eq (ho : o < 4096) (hb : c o = some b) :
    readByte σ (phys + BitVec.ofNat 64 o) = b := by
  obtain ⟨own, frames, -, hn, hshown, -⟩ := h
  have hpage : pathOf (virt.toNat / 4096 * 4096 + o) = path virt := by
    rw [pathOf_eq_iff]
    omega
  have hoffset : (virt.toNat / 4096 * 4096 + o) % 4096 = o := by omega
  obtain ⟨u, hu, hbyte⟩ := hshown (virt.toNat / 4096 * 4096 + o) b
    (by rw [onPage_of_eq hpage, hoffset, hb])
  rw [hpage, hn] at hu
  cases hu
  rwa [hoffset] at hbyte

theorem Filled.holding (content : Nat → U8) (hc : ∀ o < 4096, c o = some (content o)) :
    Holding slots r pages n
      (fun x => if pathOf x = path virt then some (content (x % 4096)) else image x) σ := by
  obtain ⟨own, frames, hback, -, hshown, htaken⟩ := h
  have himage : onPage (path virt) c image = fun x =>
      if pathOf x = path virt then some (content (x % 4096)) else image x := by
    funext x
    unfold onPage
    rw [hc _ (Nat.mod_lt _ (by decide))]
  exact ⟨own, frames, hback, himage ▸ hshown, htaken⟩

end

end

/-! ## What a segment should be -/

theorem getD_readBytes (peek : U64 → U8) (address : U64) (n k : Nat) :
    (readBytes peek address n).getD k 0 =
      if k < n then peek (address + BitVec.ofNat 64 k) else 0 := by
  unfold readBytes
  rw [List.getD_eq_getElem?_getD, List.getElem?_map]
  by_cases hk : k < n
  · rw [if_pos hk, List.getElem?_range hk]
    rfl
  · have hlen : (List.range n).length ≤ k := by
      rw [List.length_range]
      exact not_lt.mp hk
    rw [if_neg hk, List.getElem?_eq_none hlen]
    rfl

namespace Segment

variable (segment : Segment) (slice : Slice) {i : Nat}

/-- The byte of the segment at an address: what the file has for it, and zero around that. -/
def content (x : Nat) : U8 :=
  if segment.vaddr.toNat ≤ x ∧ x < segment.vaddr.toNat + segment.filesz.toNat then
    slice.data.data.getD (segment.offset.toNat + (x - segment.vaddr.toNat)) 0
  else 0

/-- The address on the pages of the segment, from the first of them on, that a walk does not tell
from `x`. -/
def near (x : Nat) : Nat :=
  segment.vaddr.toNat / 4096 * 4096 +
    (x + (2 ^ 48 - segment.vaddr.toNat / 4096 * 4096 % 2 ^ 48)) % 2 ^ 48

/-- One of the pages of the segment has the address. -/
def Covers (x : Nat) : Prop :=
  segment.near x / 4096 < (segment.vaddr.toNat + segment.memsz.toNat + 4095) / 4096

instance (x : Nat) : Decidable (segment.Covers x) := inferInstanceAs (Decidable (_ < _))

/-- What the segment puts into memory. -/
def layer (x : Nat) : Option U8 :=
  if segment.Covers x then some (segment.content slice (segment.near x)) else none

/-- No address of the segment or its pages overflows, and its data are in the file. -/
structure Loadable : Prop where
  fits : segment.Fits
  filesz_le : segment.filesz.toNat ≤ segment.memsz.toNat
  inFile : segment.offset.toNat + segment.filesz.toNat ≤ slice.data.data.length

variable {segment slice}

section

variable (h : segment.Loadable slice)
include h

section

variable (hi : i < segment.pageCount)
include hi

theorem Loadable.toNat_page : (segment.page i).toNat = (segment.vaddr.toNat / 4096 + i) * 4096 :=
  (toNat_page_of_fits h.fits hi).1

/-- What is copied to a page, in numbers. -/
theorem Loadable.copy_span : (segment.copyStart i).toNat = segment.spanStart i ∧
      (segment.copyEnd i).toNat = segment.spanEnd i := by
  have hfile : segment.vaddr.toNat + segment.filesz.toNat < 2 ^ 64 := by
    have hle := h.filesz_le
    have hfits := h.fits
    unfold Fits at hfits
    omega
  exact ⟨toNat_copyStart h.fits hi, toNat_copyEnd h.fits hi hfile⟩

/-- Nothing is copied to a page that the data of the segment do not reach. -/
theorem Loadable.content_of_not_copied (hcopy : ¬ segment.copyStart i < segment.copyEnd i)
    (hx : x / 4096 = segment.vaddr.toNat / 4096 + i) : segment.content slice x = 0 := by
  rw [lt_def, (h.copy_span hi).1, (h.copy_span hi).2, spanStart, spanEnd] at hcopy
  refine if_neg fun hin => ?_
  omega

/-- What is copied is in the file. -/
theorem Loadable.toNat_fileOffset (hcopy : segment.copyStart i < segment.copyEnd i) :
    (segment.fileOffset i).toNat =
        segment.offset.toNat + (segment.spanStart i - segment.vaddr.toNat) ∧
      (segment.copyLen i).toNat = segment.spanEnd i - segment.spanStart i ∧
      slice.Holds (segment.fileOffset i) (segment.copyLen i).toNat := by
  have hlen := toNat_copyLen hcopy
  have hoffset := Segment.toNat_fileOffset hcopy
  obtain ⟨hstart, hlt, hend⟩ := copy_bounds hcopy
  have hin := h.inFile
  have hlength := slice.length_lt
  rw [(h.copy_span hi).1, (h.copy_span hi).2] at hlen
  rw [(h.copy_span hi).1] at hoffset hstart hlt
  rw [(h.copy_span hi).2] at hlt hend
  rw [Nat.mod_eq_of_lt (by omega)] at hoffset
  refine ⟨hoffset, hlen, ?_⟩
  unfold Slice.Holds
  omega

end

end

/-- The addresses of a page that are copied to are those of the data of the segment. -/
theorem mem_span_iff (hx : x / 4096 = segment.vaddr.toNat / 4096 + i) :
    (segment.spanStart i ≤ x ∧ x < segment.spanEnd i) ↔
      segment.vaddr.toNat ≤ x ∧ x < segment.vaddr.toNat + segment.filesz.toNat := by
  have hpage : (segment.vaddr.toNat / 4096 + i) * 4096 ≤ x := by omega
  have hnext : x < (segment.vaddr.toNat / 4096 + i) * 4096 + 4096 := by omega
  unfold spanStart spanEnd
  rw [Nat.max_le, Nat.lt_min]
  exact ⟨fun h => ⟨h.1.2, h.2.2⟩, fun h => ⟨⟨hpage, h.1⟩, hnext, h.2⟩⟩

/-- The bytes that are copied to a page are those of the segment. -/
theorem Loadable.content_of_copied (h : segment.Loadable slice) (hi : i < segment.pageCount)
    (hcopy : segment.copyStart i < segment.copyEnd i)
    (hx : x / 4096 = segment.vaddr.toNat / 4096 + i) : segment.content slice x =
      if (segment.copyStart i - segment.page i).toNat ≤ x % 4096 then
        (readBytes slice.byte (segment.fileOffset i) (segment.copyLen i).toNat).getD
          (x % 4096 - (segment.copyStart i - segment.page i).toNat) 0 else 0 := by
  obtain ⟨hoffset, hlen, hin⟩ := h.toNat_fileOffset hi hcopy
  have hpage := h.toNat_page hi
  have hfirst : (segment.vaddr.toNat / 4096 + i) * 4096 ≤ segment.spanStart i :=
    le_max_left _ _
  have hvaddr : segment.vaddr.toNat ≤ segment.spanStart i := le_max_right _ _
  have hstart : (segment.copyStart i - segment.page i).toNat =
      segment.spanStart i - (segment.vaddr.toNat / 4096 + i) * 4096 := by
    rw [toNat_sub_of_le, (h.copy_span hi).1, hpage]
    rwa [le_def, (h.copy_span hi).1, hpage]
  have hlength := slice.length_lt
  have hspan := mem_span_iff hx
  unfold Slice.Holds at hin
  rw [hstart, hlen, getD_readBytes, content]
  by_cases hx' : segment.spanStart i ≤ x ∧ x < segment.spanEnd i
  · have hindex : (segment.fileOffset i + BitVec.ofNat 64 (x % 4096 - (segment.spanStart i -
        (segment.vaddr.toNat / 4096 + i) * 4096))).toNat =
          segment.offset.toNat + (x - segment.vaddr.toNat) := by
      rw [toNat_add, toNat_ofNat]
      omega
    rw [if_pos (hspan.mp hx'), if_pos (by omega), if_pos (by omega), Slice.byte, hindex]
  · rw [if_neg fun h => hx' (hspan.mpr h)]
    split
    · rw [if_neg (by omega)]
    · rfl

end Segment

/-! ## Loading a segment -/

section

variable {slots : Nat → Prop} {pages : U64 → Prop} {image : Nat → Option U8} {slice : Slice}
  {segment : Segment} {ε : Type} {oom : ε} {short : Load r ε Unit} {i : Nat}

theorem loadPage_eq : loadPage slice segment oom short i = (do
    let phys ← allocPage oom
    mapPageWithFlags (segment.page i) phys segment.flags oom
    act (.writeBytes phys 0)
    if segment.copyStart i < segment.copyEnd i then
      if segment.fileOffset i + segment.copyLen i > slice.len then short
      else do
        let peek ← .reads slice.peek
        act (.copy (phys + (segment.copyStart i - segment.page i))
          (readBytes peek (segment.fileOffset i) (segment.copyLen i).toNat))
    else pure ()) := rfl

theorem leads_allocPage : Traced.Leads (Holding slots r pages n image)
    (allocPage oom : Load r ε U64) (Pending slots r pages (n + 1) image) := by
  refine .step fun σ phys hσ hresult => ?_
  unfold attempt at hresult ⊢
  rcases allocPage_cases "" σ with ⟨-, herr⟩ | ⟨phys', pmm', halloc, hok⟩
  · rw [herr] at hresult
    cases hresult
  · rw [hok] at hresult ⊢
    cases hresult
    exact hσ.allocPage halloc

theorem leads_mapPageWithFlags (hpages : ∀ v, path v = path virt → pages v)
    (hf : flags &&& Flags.present ≠ 0) : Traced.Leads (Pending slots r pages n image phys)
      (mapPageWithFlags virt phys flags oom : Load r ε Unit)
      fun _ => Filled slots r pages n image virt phys fun _ => none := by
  refine .step fun σ _ hσ hresult => ?_
  unfold attempt at hresult ⊢
  cases hmap : Vmm.mapPageWithFlags r virt phys flags σ with
  | ok _ σ' => exact hσ.mapEntry hpages hf hmap
  | error m σ' =>
    rw [hmap] at hresult
    cases hresult

theorem leads_clear {c : Nat → Option U8} :
    Traced.Leads (Filled slots r pages n image virt phys c)
      (act (.writeBytes phys 0) : Load r ε Unit)
      fun _ => Filled slots r pages n image virt phys fun _ => some 0 := by
  refine .step fun σ _ hσ _ => ?_
  refine hσ.write (fun t ht => update_of_ne ht _ _) rfl fun o ho b hb => ?_
  cases hb
  exact readByte_cleared hσ.aligned ho

/-- A part of a page that was all zero is written. -/
theorem leads_copy {offset : U64} {bytes : List U8} (hlen : offset.toNat + bytes.length ≤ 4096) :
    Traced.Leads (Filled slots r pages n image virt phys fun _ => some 0)
      (act (.copy (phys + offset) bytes) : Load r ε Unit)
      fun _ => Filled slots r pages n image virt phys fun o =>
        some (if offset.toNat ≤ o then bytes.getD (o - offset.toNat) 0 else 0) := by
  refine .step fun σ _ hσ _ => ?_
  refine hσ.write (fun t ht => ?_) writeBytes_pmm fun o ho b hb => ?_
  · refine writeBytes_of_ne fun k hk => ?_
    rw [add_offset, pageBase_add hσ.aligned (by omega)]
    exact ht.symm
  · have hzero := hσ.readByte_eq ho rfl
    cases hb
    show readByte (Vmm.writeBytes σ (phys + offset) bytes) (phys + BitVec.ofNat 64 o) = _
    rw [readByte_writeBytes hlen ho, hzero, List.getD_eq_getElem?_getD]
    by_cases hle : offset.toNat ≤ o
    · by_cases hlt : o - offset.toNat < bytes.length
      · rw [dif_pos ⟨hle, hlt⟩, if_pos hle, List.getElem?_eq_getElem hlt]
        rfl
      · rw [dif_neg fun h => hlt h.2, if_pos hle, List.getElem?_eq_none (not_lt.mp hlt)]
        rfl
    · rw [dif_neg fun h => hle h.1, if_neg hle]

/-- **One page of a segment** replaces the image on that page. -/
theorem leads_loadPage (h : segment.Loadable slice) (hf : segment.flags &&& Flags.present ≠ 0)
    (hi : i < segment.pageCount) (hpages : ∀ v, path v = path (segment.page i) → pages v) :
    Traced.Leads (Holding slots r pages n image) (loadPage slice segment oom short i)
      fun _ => Holding slots r pages (n + 1) fun x =>
        if pathOf x = path (segment.page i) then
          some (segment.content slice ((segment.vaddr.toNat / 4096 + i) * 4096 + x % 4096))
        else image x := by
  -- an address of the page, by its offset
  have hat : ∀ o < 4096,
      ((segment.vaddr.toNat / 4096 + i) * 4096 + o) / 4096 = segment.vaddr.toNat / 4096 + i ∧
        ((segment.vaddr.toNat / 4096 + i) * 4096 + o) % 4096 = o := by
    intro o ho
    omega
  rw [loadPage_eq]
  refine .bind leads_allocPage fun phys => ?_
  refine .bind (leads_mapPageWithFlags hpages hf) fun _ => ?_
  refine .bind leads_clear fun _ => ?_
  by_cases hcopy : segment.copyStart i < segment.copyEnd i
  · obtain ⟨-, -, hin⟩ := h.toNat_fileOffset hi hcopy
    have hshort : ¬ segment.fileOffset i + segment.copyLen i > slice.len := by
      have hlength := slice.length_lt
      unfold Slice.Holds at hin
      rw [gt_iff_lt, lt_def, slice.toNat_len, toNat_add]
      omega
    have hlen : (segment.copyStart i - segment.page i).toNat +
        (readBytes slice.byte (segment.fileOffset i) (segment.copyLen i).toNat).length ≤ 4096 := by
      have hpart := copy_in_page hcopy
      unfold readBytes
      rw [List.length_map, List.length_range]
      exact hpart
    rw [if_pos hcopy, if_neg hshort]
    refine .reads_bind fun σ => ?_
    have hread := Slice.readBytes_eq (slice.shows_peek σ) hin
    rw [hread]
    refine (leads_copy hlen).imp (fun _ h => h) fun _ _ hσ => ?_
    refine hσ.holding (fun o => segment.content slice
      ((segment.vaddr.toNat / 4096 + i) * 4096 + o)) fun o ho => congrArg some ?_
    rw [h.content_of_copied hi hcopy (hat o ho).1, (hat o ho).2]
  · rw [if_neg hcopy]
    refine Traced.Agree.imp (.ret ()) (fun _ h => h) fun _ _ hσ => ?_
    exact hσ.holding (fun o => segment.content slice
      ((segment.vaddr.toNat / 4096 + i) * 4096 + o)) fun o ho =>
        congrArg some (h.content_of_not_copied hi hcopy (hat o ho).1).symm

/-- The image after the first `k` pages of a segment. -/
def Segment.loaded (segment : Segment) (slice : Slice) (image : Nat → Option U8) (k x : Nat) :
    Option U8 :=
  if segment.near x / 4096 < segment.vaddr.toNat / 4096 + k then
    some (segment.content slice (segment.near x))
  else image x

theorem Segment.loaded_zero : segment.loaded slice image 0 = image := by
  funext x
  refine if_neg ?_
  unfold near
  omega

/-- The pages of a segment are different as long as there are not more than a walk can tell
apart. -/
theorem Segment.loaded_succ (h : segment.Loadable slice) {k : Nat} (hk : k < segment.pageCount)
    (hfew : k < 2 ^ 36) : (fun x => if pathOf x = path (segment.page k) then
        some (segment.content slice ((segment.vaddr.toNat / 4096 + k) * 4096 + x % 4096))
      else segment.loaded slice image k x) = segment.loaded slice image (k + 1) := by
  funext x
  have hpath : pathOf x = path (segment.page k) ↔
      x / 4096 % 2 ^ 36 = (segment.vaddr.toNat / 4096 + k) % 2 ^ 36 := by
    rw [pathOf_eq_iff, h.toNat_page hk, Nat.mul_div_cancel _ (by decide)]
  unfold loaded
  by_cases hx : pathOf x = path (segment.page k)
  · have hnear : segment.near x = (segment.vaddr.toNat / 4096 + k) * 4096 + x % 4096 := by
      rw [hpath] at hx
      unfold near
      omega
    rw [if_pos hx, hnear, if_pos (by omega)]
  · rw [if_neg hx]
    refine if_congr ?_ rfl rfl
    rw [hpath] at hx
    unfold near
    omega

theorem Segment.loaded_pageCount (hfits : segment.Fits) :
    segment.loaded slice image segment.pageCount = fun x =>
      (segment.layer slice x).or (image x) := by
  funext x
  have hcovers : segment.Covers x ↔
      segment.near x / 4096 < segment.vaddr.toNat / 4096 + segment.pageCount := by
    rw [pageCount_eq hfits]
    unfold Covers near
    omega
  unfold loaded layer
  by_cases hx : segment.Covers x
  · rw [if_pos hx, if_pos (hcovers.mp hx)]
    rfl
  · rw [if_neg hx, if_neg fun h => hx (hcovers.mpr h)]
    rfl

/-- **A segment** replaces the image on all of its pages. -/
theorem leads_loadPages (h : segment.Loadable slice) (hf : segment.flags &&& Flags.present ≠ 0)
    (hpages : ∀ k < segment.pageCount, ∀ v, path v = path (segment.page k) → pages v) :
    Traced.Leads (Holding slots r pages n image) (loadPages slice segment oom short)
      fun _ σ => ∃ m,
        Holding slots r pages m (fun x => (segment.layer slice x).or (image x)) σ := by
  have hloop : Traced.Leads (Holding slots r pages (n + 0) (segment.loaded slice image 0))
      ((List.range segment.pageCount).forM (loadPage slice segment oom short))
      fun _ => Holding slots r pages (n + segment.pageCount)
        (segment.loaded slice image segment.pageCount) := by
    refine .forM_range
      (I := fun k => Holding slots r pages (n + k) (segment.loaded slice image k)) ?_
    intro k hk
    refine (leads_loadPage h hf hk (hpages k hk)).imp (fun _ h => h) fun _ σ hσ => ?_
    have hfew : k < 2 ^ 36 := by
      obtain ⟨-, -, -, -, htaken⟩ := hσ
      unfold Spent Pmm.maxPages at htaken
      omega
    rwa [Segment.loaded_succ h hk hfew] at hσ
  rw [Segment.loaded_zero, Segment.loaded_pageCount h.fits] at hloop
  exact .bind (.step fun _ _ hσ _ => hσ) fun _ => hloop.imp (fun _ h => h) fun _ _ hσ => ⟨_, hσ⟩

end

end BeastOs.UniversalExec
