import BeastOs.Lib.Faults
import BeastOs.Fs.UserSpace

/-!
# Loaders with checks

What the loaders do with the bytes of a file, with every read checked: it fails with a fault if it
is not inside of the file. If `strict` is set, additions and differences of addresses and offsets
are checked as well.

Here are the parts that all loaders share. `checks_loadPages` says that the loop over the pages of a
segment is the one of the loaders with checks added.
-/

namespace BeastOs.UniversalExec

open BitVec Lib Paging Vmm

variable {r : U64} {ε : Type}

/-! ## Reading a file -/

namespace Slice

variable {slice : Slice} {peek : U64 → U8} {offset : U64} {n : Nat}

/-- The byte at an offset in the file. -/
def byte (slice : Slice) (offset : U64) : U8 := slice.data.data.getD offset.toNat 0

/-- The file has `n` bytes from an offset on. -/
def Holds (slice : Slice) (offset : U64) (n : Nat) : Prop :=
  offset.toNat + n ≤ slice.data.data.length

instance (slice : Slice) (offset : U64) (n : Nat) : Decidable (slice.Holds offset n) :=
  inferInstanceAs (Decidable (_ ≤ _))

theorem toNat_len (slice : Slice) : slice.len.toNat = slice.data.data.length := by
  have hlength := slice.data.length_le
  unfold Fs.isizeMax at hlength
  rw [len, toNat_ofNat]
  omega

theorem length_lt (slice : Slice) : slice.data.data.length < 2 ^ 63 := by
  have hlength := slice.data.length_le
  unfold Fs.isizeMax at hlength
  omega

/-- A view of memory in which the file is where it should be. -/
def Shows (slice : Slice) (peek : U64 → U8) : Prop :=
  ∀ offset, slice.Holds offset 1 → peek offset = slice.byte offset

theorem shows_peek (slice : Slice) (σ : Machine) : slice.Shows (slice.peek σ) := by
  intro offset hin
  rw [peek, byte, List.getD_eq_getElem?_getD, List.getElem?_eq_getElem hin]
  rfl

theorem Holds.mono (h : slice.Holds offset n) {m : Nat} (hm : m ≤ n) : slice.Holds offset m :=
  Nat.le_trans (Nat.add_le_add_left hm _) h

/-- A part of what is in the file. -/
theorem Holds.part (h : slice.Holds offset n) {k m : Nat} (hm : k + m ≤ n) :
    slice.Holds (offset + BitVec.ofNat 64 k) m := by
  have hlt := slice.length_lt
  unfold Holds at *
  rw [toNat_add, toNat_ofNat]
  omega

/-- Offsets in the file are far from the end of the address space. -/
theorem holds_add (h : slice.Holds offset 0) {k : Nat} (hk : k < 2 ^ 63) (n : Nat) :
    slice.Holds (offset + BitVec.ofNat 64 k) n ↔ slice.Holds offset (k + n) := by
  have hlt := slice.length_lt
  unfold Holds at *
  rw [toNat_add, toNat_ofNat]
  omega

section

variable (hshows : slice.Shows peek)
include hshows

theorem readLe_eq (h : slice.Holds offset n) : readLe peek offset n = readLe slice.byte offset n :=
  readLe_congr fun _ hk => hshows _ (h.part (Nat.succ_le_of_lt hk))

theorem readU16_eq (h : slice.Holds offset 2) : readU16 peek offset = readU16 slice.byte offset :=
  congrArg (BitVec.ofNat 16) (readLe_eq hshows h)

theorem readU32_eq (h : slice.Holds offset 4) : readU32 peek offset = readU32 slice.byte offset :=
  congrArg (BitVec.ofNat 32) (readLe_eq hshows h)

theorem readU64_eq (h : slice.Holds offset 8) : readU64 peek offset = readU64 slice.byte offset :=
  congrArg (BitVec.ofNat 64) (readLe_eq hshows h)

theorem readBytes_eq (h : slice.Holds offset n) :
    readBytes peek offset n = readBytes slice.byte offset n :=
  List.map_congr_left fun _ hk =>
    hshows _ (h.part (Nat.succ_le_of_lt (List.mem_range.mp hk)))

end

end Slice

/-! ## Operations -/

/-- A sum of addresses or offsets. -/
def add (strict : Bool) (a b : U64) : Load r (WithFault ε) U64 :=
  .checked (strict → a.toNat + b.toNat < 2 ^ 64) (a + b)

def sub (strict : Bool) (a b : U64) : Load r (WithFault ε) U64 :=
  .checked (strict → b.toNat ≤ a.toNat) (a - b)

def mul (strict : Bool) (a b : U64) : Load r (WithFault ε) U64 :=
  .checked (strict → a.toNat * b.toNat < 2 ^ 64) (a * b)

/-- Something that is read from `n` bytes of the file. -/
def readAt {α : Type} (slice : Slice) (offset : U64) (n : Nat) (read : (U64 → U8) → α) :
    Load r (WithFault ε) α :=
  .checked (slice.Holds offset n) (read slice.byte)

/-- A read whose result is known already. -/
def need (slice : Slice) (offset : U64) (n : Nat) : Load r (WithFault ε) Unit :=
  .checked (slice.Holds offset n) ()

def readU16At (slice : Slice) (offset : U64) : Load r (WithFault ε) (BitVec 16) :=
  readAt slice offset 2 fun peek => readU16 peek offset

def readU32At (slice : Slice) (offset : U64) : Load r (WithFault ε) U32 :=
  readAt slice offset 4 fun peek => readU32 peek offset

def readU64At (slice : Slice) (offset : U64) : Load r (WithFault ε) U64 :=
  readAt slice offset 8 fun peek => readU64 peek offset

/-! ## Segments -/

/-- The part of a page that comes from the file. -/
def checkedCopy (strict : Bool) (slice : Slice) (segment : Segment) (short : Load r ε Unit)
    (phys pageVirt copyStart copyEnd : U64) : Load r (WithFault ε) Unit := do
  let len ← sub strict copyEnd copyStart
  let distance ← sub strict copyStart segment.vaddr
  let offsetInFile ← add strict segment.offset distance
  let offsetInPage ← sub strict copyStart pageVirt
  let stop ← add strict offsetInFile len
  if stop > slice.len then .lift short
  else do
    let bytes ← readAt slice offsetInFile len.toNat fun peek =>
      readBytes peek offsetInFile len.toNat
    .lift (act (.copy (phys + offsetInPage) bytes))

/-- One page of a segment. `readable` is what has to hold for the header of the segment to be read
again once there is a page for it. -/
def checkedLoadPage (strict : Bool) (slice : Slice) (segment : Segment) (oom : ε) (readable : Prop)
    [Decidable readable] (short : Load r ε Unit) (i : Nat) : Load r (WithFault ε) Unit := do
  let distance ← mul strict (BitVec.ofNat 64 i) 4096
  let pageVirt ← add strict segment.pageStart distance
  let phys ← .lift (allocPage oom)
  .checked readable ()
  .lift (mapPageWithFlags pageVirt phys segment.flags oom)
  .lift (act (.writeBytes phys 0))
  let segEnd ← add strict segment.vaddr segment.filesz
  let copyStart := maxU64 pageVirt segment.vaddr
  let pageEnd ← add strict pageVirt 4096
  let copyEnd := minU64 pageEnd segEnd
  if copyStart < copyEnd then checkedCopy strict slice segment short phys pageVirt copyStart copyEnd
  else pure ()

def checkedLoadPages (strict : Bool) (slice : Slice) (segment : Segment) (oom : ε) (readable : Prop)
    [Decidable readable] (short : Load r ε Unit) : Load r (WithFault ε) Unit := do
  .lift (act (.loadSegment segment))
  let segEnd ← add strict segment.vaddr segment.memsz
  let beyond ← add strict segEnd 4096
  let last ← sub strict beyond 1
  let size ← sub strict (last &&& ~~~(4096 - 1)) segment.pageStart
  (List.range (size / 4096).toNat).forM
    (checkedLoadPage strict slice segment oom readable short)

section Checks

variable (strict : Bool) (slice : Slice) (segment : Segment) (oom : ε) (readable : Prop)
  [Decidable readable] (short : Load r ε Unit)

theorem checks_act {a a' : Action} (h : a' = a) :
    Traced.Checks (.lift (act a) : Load r (WithFault ε) Unit) (act a') := by
  rw [h]
  exact .lift _

theorem checks_loadPage (i : Nat) :
    Traced.Checks (checkedLoadPage strict slice segment oom readable short i)
      (loadPage slice segment oom short i) := by
  refine .checked_bind fun _ => .checked_bind fun _ => .bind (.lift _) fun phys => ?_
  refine .checked_bind fun _ => .bind (.lift _) fun _ => .bind (.lift _) fun _ => ?_
  refine .checked_bind fun _ => .checked_bind fun _ => .ite ?_ (.ret ())
  refine .checked_bind fun _ => .checked_bind fun _ => .checked_bind fun _ => ?_
  refine .checked_bind fun _ => .checked_bind fun _ => .ite (.lift _) ?_
  refine .checked_bind fun hin => .of_reads fun σ => ?_
  exact checks_act (congrArg _ (Slice.readBytes_eq (slice.shows_peek σ) hin))

/-- **The pages of a segment are loaded with checks.** -/
theorem checks_loadPages : Traced.Checks (checkedLoadPages strict slice segment oom readable short)
      (loadPages slice segment oom short) := by
  refine .bind (.lift _) fun _ => .checked_bind fun _ => .checked_bind fun _ => ?_
  refine .checked_bind fun _ => .checked_bind fun _ => .forM fun i _ => ?_
  exact checks_loadPage strict slice segment oom readable short i

end Checks

/-! ## What is read for a page -/

namespace Segment

variable (segment : Segment) (i : Nat)

/-- The addresses in a page whose bytes are in the file. -/
def copyStart : U64 := maxU64 (segment.page i) segment.vaddr

def copyEnd : U64 := minU64 (segment.page i + 4096) (segment.vaddr + segment.filesz)

def fileOffset : U64 := segment.offset + (segment.copyStart i - segment.vaddr)

def copyLen : U64 := segment.copyEnd i - segment.copyStart i

/-- The comparison with the length of the file lets a read pass that is not inside of it, since the
end of what is read has wrapped around. -/
def ReadsOutside (slice : Slice) : Prop :=
  segment.copyStart i < segment.copyEnd i ∧
    segment.fileOffset i + segment.copyLen i ≤ slice.len ∧
    ¬ slice.Holds (segment.fileOffset i) (segment.copyLen i).toNat

/-- The end of what is read for a page wraps around and is in the file again. -/
def WrapsAround (slice : Slice) : Prop :=
  segment.copyStart i < segment.copyEnd i ∧
    2 ^ 64 ≤ (segment.fileOffset i).toNat + (segment.copyLen i).toNat ∧
    (segment.fileOffset i).toNat + (segment.copyLen i).toNat ≤ 2 ^ 64 + slice.data.data.length

variable {segment i}

theorem toNat_maxU64 (a b : U64) : (maxU64 a b).toNat = max a.toNat b.toNat := by
  unfold maxU64
  split <;> bv_omega

theorem toNat_minU64 (a b : U64) : (minU64 a b).toNat = min a.toNat b.toNat := by
  unfold minU64
  split <;> bv_omega

variable (h : segment.copyStart i < segment.copyEnd i)

include h in
/-- What is copied belongs to the segment; if the end of the segment wraps around, there is nothing
to copy. -/
theorem copy_bounds :
    segment.vaddr.toNat ≤ (segment.copyStart i).toNat ∧
      (segment.copyStart i).toNat < (segment.copyEnd i).toNat ∧
      (segment.copyEnd i).toNat ≤ segment.vaddr.toNat + segment.filesz.toNat := by
  have hstart : segment.vaddr.toNat ≤ (segment.copyStart i).toNat := by
    rw [copyStart, toNat_maxU64]
    exact le_max_right _ _
  have hend : (segment.copyEnd i).toNat ≤ (segment.vaddr + segment.filesz).toNat := by
    rw [copyEnd, toNat_minU64]
    exact min_le_right _ _
  exact ⟨hstart, lt_def.mp h, hend.trans (Nat.mod_le _ _)⟩

include h in
theorem toNat_copyLen :
    (segment.copyLen i).toNat = (segment.copyEnd i).toNat - (segment.copyStart i).toNat :=
  toNat_sub_of_le (BitVec.le_of_lt h)

include h in
theorem toNat_fileOffset :
    (segment.fileOffset i).toNat =
      (segment.offset.toNat + ((segment.copyStart i).toNat - segment.vaddr.toNat)) % 2 ^ 64 := by
  have hle : segment.vaddr ≤ segment.copyStart i := le_def.mpr (copy_bounds h).1
  rw [fileOffset, toNat_add, toNat_sub_of_le hle]

theorem readsOutside_iff (slice : Slice) :
    segment.ReadsOutside i slice ↔ segment.WrapsAround i slice := by
  have hlt := slice.length_lt
  have hoffset := (segment.fileOffset i).isLt
  have hlen := (segment.copyLen i).isLt
  unfold ReadsOutside WrapsAround Slice.Holds
  rw [le_def, toNat_add, slice.toNat_len]
  refine and_congr_right fun _ => ?_
  omega

end Segment

/-! ## How the loading of a segment ends -/

section Ends

variable {slice : Slice} {segment : Segment} {oom : ε} {readable : Prop} [Decidable readable]
  {E : WithFault ε → Prop} {α β : Type} {f : α → Load r (WithFault ε) β}

theorem attempt_eq_error {x : Vmm α} {σ : Machine} {e : ε} (h : (attempt x oom σ).1 = .error e) :
    e = oom := by
  unfold attempt at h
  cases hx : x σ with
  | ok a σ' =>
    rw [hx] at h
    cases h
  | error m σ' =>
    rw [hx] at h
    cases h
    rfl

theorem ends_allocPage (hoom : E (.error oom)) :
    Traced.Ends (.lift (allocPage oom) : Load r (WithFault ε) U64) (fun _ => True) E :=
  .lift (.step fun _ _ h => attempt_eq_error h ▸ hoom)

theorem ends_mapPageWithFlags (hoom : E (.error oom)) (virt phys flags : U64) :
    Traced.Ends (.lift (mapPageWithFlags virt phys flags oom) : Load r (WithFault ε) Unit)
      (fun _ => True) E :=
  .lift (.step fun _ _ h => attempt_eq_error h ▸ hoom)

theorem ends_act (a : Action) :
    Traced.Ends (.lift (act a) : Load r (WithFault ε) Unit) (fun _ => True) E :=
  .lift (.step fun _ _ h => (by cases h))

/-- Sums and differences that may wrap around. -/
theorem ends_wrapping_bind {P : Prop} [Decidable (false = true → P)] {a : α}
    {Q : β → Prop} (h : Traced.Ends (f a) Q E) :
    Traced.Ends (.checked (false = true → P) a >>= f) Q E :=
  .checked_bind (fun hne => absurd nofun hne) fun _ => h

/-- A read inside of the file, whatever it returns. -/
theorem ends_readAt_bind {offset : U64} {n : Nat} {read : (U64 → U8) → α}
    {Q : β → Prop} (hin : slice.Holds offset n)
    (h : ∀ a, Traced.Ends (f a) Q E) : Traced.Ends (readAt slice offset n read >>= f) Q E :=
  .checked_bind (absurd hin) fun _ => h _

/-- A page for which only reads are checked. -/
theorem ends_loadPage_wrapping (i : Nat) :
    Traced.Ends (checkedLoadPage (r := r) false slice segment oom readable (pure ()) i)
      (fun _ => readable ∧ ¬ segment.ReadsOutside i slice)
      fun e => e = .error oom ∨ (e = .fault ∧ (readable → segment.ReadsOutside i slice)) := by
  refine ends_wrapping_bind (ends_wrapping_bind ?_)
  refine .bind (ends_allocPage (.inl rfl)) fun phys _ => ?_
  refine .checked_bind (fun hne => .inr ⟨rfl, fun h => absurd h hne⟩) fun hreadable => ?_
  refine .bind (ends_mapPageWithFlags (.inl rfl) _ _ _) fun _ _ => .bind (ends_act _) fun _ _ => ?_
  refine ends_wrapping_bind (ends_wrapping_bind (.ite (fun hcopy => ?_) fun hnone => ?_))
  · refine ends_wrapping_bind (ends_wrapping_bind (ends_wrapping_bind ?_))
    refine ends_wrapping_bind (ends_wrapping_bind (.ite (fun hlong => ?_) fun hfits => ?_))
    · exact .ret ⟨hreadable, fun h => absurd h.2.1 (BitVec.not_le.mpr hlong)⟩
    · refine .checked_bind (fun hout => ?_) fun hin => ?_
      · exact .inr ⟨rfl, fun _ => ⟨hcopy, BitVec.not_lt.mp hfits, hout⟩⟩
      · exact (ends_act _).imp (fun _ _ => ⟨hreadable, fun h => h.2.2 hin⟩) fun _ h => h
  · exact .ret ⟨hreadable, fun h => hnone h.1⟩

/-- A segment for which only reads are checked. -/
theorem ends_loadPages_wrapping :
    Traced.Ends (checkedLoadPages (r := r) false slice segment oom readable (pure ()))
      (fun _ => ∀ i < segment.pageCount, readable ∧ ¬ segment.ReadsOutside i slice)
      fun e => e = .error oom ∨
        (e = .fault ∧ ∃ i < segment.pageCount, readable → segment.ReadsOutside i slice) := by
  refine .bind (ends_act _) fun _ _ => ends_wrapping_bind (ends_wrapping_bind ?_)
  refine ends_wrapping_bind (ends_wrapping_bind ?_)
  refine (Traced.Ends.forM_range fun i _ => ends_loadPage_wrapping i).imp (fun _ h => h) ?_
  rintro e ⟨i, hi, -, hoom | ⟨hfault, hout⟩⟩
  · exact .inl hoom
  · exact .inr ⟨hfault, i, hi, hout⟩

end Ends

end BeastOs.UniversalExec
