import BeastOs.Fs.LoaderChecks

/-!
# Reading any bytes as a Mach-O file

The loader of `macho_loader.rs` with every read of the file checked. Before it looks at a command it
makes sure that the eight bytes at its start are in the file, but a command for a segment has 72
bytes and one for the entry point has 24: the rest is read without a check. And the contents of a
segment can be at an offset so large that their end wraps around.

`machO_safe_iff` says for which files no read is outside of the file.
-/

namespace BeastOs.UniversalExec.MachOLoader

open Lib Paging Vmm

variable {r : U64} {slice : Slice} {peek : U64 → U8}

/-! ## The code -/

/-- The name of a segment, up to its first zero. -/
def checkedName (slice : Slice) (address : U64) : Nat → Load r (WithFault Stop) (List U8)
  | 0 => pure []
  | n + 1 => do
    let b ← readAt slice address 1 fun peek => peek address
    if b = 0 then pure []
    else do
      let rest ← checkedName slice (address + 1) n
      pure (b :: rest)

/-- The file offset, the file size and the protection are only read once there is a page. -/
def checkedLoadSegment (slice : Slice) (peek : U64 → U8) (offset : U64) :
    Load r (WithFault Stop) Unit := do
  let vmsize ← readU64At slice (offset + 32)
  if vmsize = 0 then pure ()
  else do
    need slice (offset + 24) 8
    checkedLoadPages false slice (segment (SegmentCommand64.read peek offset))
      (.error .outOfMemory) (slice.Holds (offset + 40) 24) (pure ())

def checkedLoadCommand (slice : Slice) (peek : U64 → U8) (p : Progress) :
    Load r (WithFault Stop) Progress := do
  let cmd ← readU32At slice p.offset
  let cmdsize ← readU32At slice (p.offset + 4)
  let next := p.offset + cmdsize.setWidth 64
  if cmd = 0x19 then do
    let name ← checkedName slice (p.offset + 8) 16
    let textVmaddr ←
      (if name = textName then readU64At slice (p.offset + 24) else pure p.textVmaddr)
    checkedLoadSegment slice peek p.offset
    pure ⟨next, p.entryPoint, textVmaddr⟩
  else if cmd = 0x80000028 then do
    let entryoff ← readU64At slice (p.offset + 8)
    pure ⟨next, some (p.textVmaddr + entryoff), p.textVmaddr⟩
  else if cmd = 0x5 then
    let threadStateOffset := p.offset + 16
    if threadStateOffset + 144 ≤ slice.len then do
      let rip ← readU64At slice (threadStateOffset + 16 * 8)
      pure ⟨next, some rip, p.textVmaddr⟩
    else pure { p with offset := next }
  else pure { p with offset := next }

def checkedLoadCommands (slice : Slice) : Nat → Progress → Load r (WithFault Stop) Progress
  | 0, p => pure p
  | n + 1, p =>
    if p.offset + 8 > slice.len then pure p
    else do
      let peek ← .reads slice.peek
      let p ← checkedLoadCommand slice peek p
      checkedLoadCommands slice n p

def checkedLoad (slice : Slice) : Load r (WithFault Stop) LoadedImage := do
  .failIf (slice.len < 32) (.error (.error .invalidFormat))
  let magic ← readU32At slice 0
  .failIf (magic ≠ 0xfeedfacf) (.error (.error .invalidFormat))
  let ncmds ← readU32At slice 16
  let p ← checkedLoadCommands slice ncmds.toNat ⟨32, none, 0⟩
  match p.entryPoint with
  | some entry => pure ⟨entry⟩
  | none => .fail (.error (.error .invalidFormat))

/-! ## The code with checks is the code -/

theorem readBytes_succ (peek : U64 → U8) (address : U64) (n : Nat) :
    readBytes peek address (n + 1) = peek address :: readBytes peek (address + 1) n := by
  unfold readBytes
  rw [List.range_succ_eq_map, List.map_cons, List.map_map, BitVec.add_zero]
  refine congrArg (peek address :: ·) (List.map_congr_left fun k _ => congrArg peek ?_)
  show address + BitVec.ofNat 64 (k + 1) = _
  rw [BitVec.ofNat_add, BitVec.add_assoc, BitVec.add_comm (BitVec.ofNat 64 k)]
  rfl

variable (hshows : slice.Shows peek)

include hshows in
theorem gives_name (address : U64) (n : Nat) : Traced.Gives (checkedName (r := r) slice address n)
      ((readBytes peek address n).takeWhile (· ≠ 0)) := by
  induction n generalizing address with
  | zero => exact .ret []
  | succ n ih =>
    rw [checkedName, readBytes_succ, List.takeWhile_cons]
    refine .bind (.checked fun hin => (hshows address hin).symm) ?_
    by_cases hzero : peek address = 0
    · rw [if_pos hzero, if_neg (by simpa using hzero)]
      exact .ret []
    · rw [if_neg hzero, if_pos (decide_eq_true hzero)]
      exact .bind (ih (address + 1)) (.ret _)

include hshows in
theorem checks_loadSegment (offset : U64) :
    Traced.Checks (checkedLoadSegment (r := r) slice peek offset)
      (loadSegment (SegmentCommand64.read peek offset) slice) := by
  unfold checkedLoadSegment loadSegment
  refine .checked_bind fun hsize => ?_
  have hvmsize : (SegmentCommand64.read peek offset).vmsize = readU64 slice.byte (offset + 32) :=
    Slice.readU64_eq hshows hsize
  rw [hvmsize]
  refine .ite (.ret ()) (.checked_bind fun _ => ?_)
  exact checks_loadPages false slice _ _ _ _

include hshows in
theorem checks_loadCommand (p : Progress) :
    Traced.Checks (checkedLoadCommand (r := r) slice peek p) (loadCommand slice peek p) := by
  unfold checkedLoadCommand loadCommand
  refine .checked_bind fun hcmd => .checked_bind fun hcmdsize => ?_
  rw [Slice.readU32_eq hshows hcmd, Slice.readU32_eq hshows hcmdsize]
  refine .ite ?_ (.ite ?_ (.ite (.ite ?_ (.ret _)) (.ret _)))
  · refine (gives_name hshows _ _).checks_bind ?_
    have hvmaddr : Traced.Gives (readU64At (r := r) (ε := Stop) slice (p.offset + 24))
        (SegmentCommand64.read peek p.offset).vmaddr :=
      .checked fun hin => (Slice.readU64_eq hshows hin).symm
    refine Traced.Gives.checks_bind (.ite hvmaddr (.ret _)) ?_
    exact .bind (checks_loadSegment hshows p.offset) fun _ => .ret _
  all_goals
    refine .checked_bind fun hin => ?_
    rw [Slice.readU64_eq hshows hin]
    exact .ret _

theorem checks_loadCommands (slice : Slice) (n : Nat) (p : Progress) :
    Traced.Checks (checkedLoadCommands (r := r) slice n p) (loadCommands slice n p) := by
  induction n generalizing p with
  | zero => exact .ret p
  | succ n ih =>
    refine .ite (.ret p) (.reads_bind fun σ => ?_)
    exact .bind (checks_loadCommand (slice.shows_peek σ) p) ih

theorem checks_load (slice : Slice) : Traced.Checks (checkedLoad (r := r) slice) (load slice) := by
  refine .bind (.failIf _ _) fun _ => .of_reads fun σ => .checked_bind fun hin => ?_
  have hshows := slice.shows_peek σ
  rw [Slice.readU32_eq hshows hin]
  refine .bind (.failIf _ _) fun _ => .checked_bind fun hin => ?_
  rw [Slice.readU32_eq hshows hin]
  refine .bind (checks_loadCommands slice _ _) fun p => ?_
  cases p.entryPoint with
  | none => exact .fail _
  | some entry => exact .ret _

/-! ## Which files are safe -/

/-- The command at an offset for a segment: the fields up to its size have to be there, and if there
are pages to load, so do the others. -/
def SegmentInside (slice : Slice) (offset : U64) : Prop :=
  slice.Holds offset 40 ∧
    ((SegmentCommand64.read slice.byte offset).vmsize ≠ 0 →
      ∀ i < (segment (SegmentCommand64.read slice.byte offset)).pageCount,
        slice.Holds offset 64 ∧
          ¬ (segment (SegmentCommand64.read slice.byte offset)).WrapsAround i slice)

/-- What a command needs is in the file. -/
def CommandInside (slice : Slice) (offset : U64) : Prop :=
  (readU32 slice.byte offset = 0x19 → SegmentInside slice offset) ∧
    (readU32 slice.byte offset = 0x80000028 → slice.Holds offset 16)

/-- The offsets of the commands that start in the file, `n` at most. -/
def commands (slice : Slice) : Nat → U64 → List U64
  | 0, _ => []
  | n + 1, offset =>
    if slice.Holds offset 8 then
      offset :: commands slice n
        (offset + (readU32 slice.byte (offset + 4)).setWidth 64)
    else []

/-- No command of the file asks for something that is not there. -/
def AllInside (slice : Slice) : Prop :=
  slice.Holds 0 32 → readU32 slice.byte 0 = 0xfeedfacf →
    ∀ offset ∈ commands slice (readU32 slice.byte 16).toNat 32, CommandInside slice offset

/-- There was no page for a segment. -/
def outOfMemory : WithFault Stop := .error (.error .outOfMemory)

theorem ends_name (slice : Slice) (address : U64) (n : Nat) :
    Traced.Ends (checkedName (r := r) slice address n) (fun _ => True)
      fun e => e = .fault ∧ ¬ slice.Holds address n := by
  induction n generalizing address with
  | zero => exact .ret trivial
  | succ n ih =>
    refine .checked_bind (fun hout => ⟨rfl, fun h => hout (h.mono (by omega))⟩) fun _ => ?_
    have hrest := (ih (address + 1)).imp (fun _ h => h) fun e he =>
      (⟨he.1, fun h => he.2 (h.part (k := 1) (by omega))⟩ :
        e = .fault ∧ ¬ slice.Holds address (n + 1))
    exact .ite (fun _ => .ret trivial) fun _ => .bind hrest fun _ _ => .ret trivial

include hshows in
/-- A segment command that is all in the file is read as it stands there, whatever lies behind the
file. -/
theorem segment_eq {offset : U64} (hall : slice.Holds offset 64) :
    segment (SegmentCommand64.read peek offset) =
      segment (SegmentCommand64.read slice.byte offset) := by
  have hfield : ∀ a : U64, a.toNat + 8 ≤ 64 →
      readU64 peek (offset + a) = readU64 slice.byte (offset + a) := by
    intro a ha
    simpa using Slice.readU64_eq hshows (hall.part ha)
  have hinitprot : readU32 peek (offset + 60) = readU32 slice.byte (offset + 60) :=
    Slice.readU32_eq hshows (hall.part (k := 60) (by decide))
  unfold segment SegmentCommand64.read
  rw [hfield 24 (by decide), hfield 32 (by decide), hfield 40 (by decide), hfield 48 (by decide),
    hinitprot]

include hshows in
theorem ends_loadSegment {offset : U64} (hin : slice.Holds offset 0) :
    Traced.Ends (checkedLoadSegment (r := r) slice peek offset)
      (fun _ => SegmentInside slice offset)
      fun e => e = outOfMemory ∨ (e = .fault ∧ ¬ SegmentInside slice offset) := by
  have hadd : ∀ {k}, k < 2 ^ 63 → ∀ n, slice.Holds (offset + BitVec.ofNat 64 k) n ↔
      slice.Holds offset (k + n) := fun hk n => Slice.holds_add hin hk n
  refine .checked_bind (fun hout => .inr ⟨rfl, fun h => ?_⟩) fun hsize => .ite (fun hzero => ?_) ?_
  · exact hout ((hadd (k := 32) (by decide) 8).mpr h.1)
  · exact .ret ⟨(hadd (k := 32) (by decide) 8).mp hsize, fun h => absurd hzero h⟩
  intro hpos
  have hstart : slice.Holds offset 40 := (hadd (k := 32) (by decide) 8).mp hsize
  refine .checked_bind (absurd ((hadd (k := 24) (by decide) 8).mpr (hstart.mono (by decide)))) ?_
  intro _
  -- the address and the size of the segment are in the file, so its pages are known
  have hvmaddr : (segment (SegmentCommand64.read peek offset)).vaddr =
      (segment (SegmentCommand64.read slice.byte offset)).vaddr :=
    Slice.readU64_eq hshows ((hadd (k := 24) (by decide) 8).mpr (hstart.mono (by decide)))
  have hvmsize : (segment (SegmentCommand64.read peek offset)).memsz =
      (segment (SegmentCommand64.read slice.byte offset)).memsz :=
    Slice.readU64_eq hshows hsize
  have hcount : (segment (SegmentCommand64.read peek offset)).pageCount =
      (segment (SegmentCommand64.read slice.byte offset)).pageCount := by
    unfold Segment.pageCount Segment.pageEnd Segment.pageStart
    rw [hvmaddr, hvmsize]
  -- with the rest of the command in the file it is the same segment
  have hsame : slice.Holds (offset + 40) 24 → segment (SegmentCommand64.read peek offset) =
      segment (SegmentCommand64.read slice.byte offset) := fun hrest =>
    segment_eq hshows ((hadd (k := 40) (by decide) 24).mp hrest)
  refine ends_loadPages_wrapping.imp ?_ ?_
  · intro _ hpages
    refine ⟨hstart, fun _ i hi => ?_⟩
    obtain ⟨hrest, hinside⟩ := hpages i (hi.trans_eq hcount.symm)
    rw [hsame hrest, Segment.readsOutside_iff] at hinside
    exact ⟨(hadd (k := 40) (by decide) 24).mp hrest, hinside⟩
  · rintro e (rfl | ⟨rfl, i, hi, hout⟩)
    · exact .inl rfl
    · refine .inr ⟨rfl, fun h => ?_⟩
      obtain ⟨hall, hinside⟩ := h.2 hpos i (hi.trans_eq hcount)
      have hrest : slice.Holds (offset + 40) 24 := (hadd (k := 40) (by decide) 24).mpr hall
      have houtside := hout hrest
      rw [hsame hrest, Segment.readsOutside_iff] at houtside
      exact hinside houtside

include hshows in
theorem ends_loadCommand {p : Progress} (hin : slice.Holds p.offset 8) :
    Traced.Ends (checkedLoadCommand (r := r) slice peek p)
      (fun p' => CommandInside slice p.offset ∧
        p'.offset = p.offset + (readU32 slice.byte (p.offset + 4)).setWidth 64)
      fun e => e = outOfMemory ∨ (e = .fault ∧ ¬ CommandInside slice p.offset) := by
  have hin' : slice.Holds p.offset 0 := hin.mono (by decide)
  have hadd : ∀ {k}, k < 2 ^ 63 → ∀ n, slice.Holds (p.offset + BitVec.ofNat 64 k) n ↔
      slice.Holds p.offset (k + n) := fun hk n => Slice.holds_add hin' hk n
  refine .checked_bind (absurd (hin.mono (by decide))) fun _ => ?_
  refine .checked_bind (absurd (hin.part (k := 4) (by decide))) fun _ => ?_
  refine .ite (fun hsegment => ?_) fun hsegment => .ite (fun hmain => ?_) fun hmain => ?_
  · have hmain : readU32 slice.byte p.offset ≠ 0x80000028 := by
      rw [show readU32 slice.byte p.offset = 0x19 from hsegment]
      decide
    have hinside : CommandInside slice p.offset ↔ SegmentInside slice p.offset :=
      ⟨fun h => h.1 hsegment, fun h => ⟨fun _ => h, fun h' => absurd h' hmain⟩⟩
    rw [hinside]
    have hname := (ends_name (r := r) slice (p.offset + 8) 16).imp (fun _ h => h)
      fun e he => (.inr ⟨he.1, fun h => he.2 (h.1.part (k := 8) (by decide))⟩ :
        e = outOfMemory ∨ (e = .fault ∧ ¬ SegmentInside slice p.offset))
    have htext : ∀ name, Traced.Ends
        (if name = textName then readU64At slice (p.offset + 24) else pure p.textVmaddr :
          Load r (WithFault Stop) U64) (fun _ => True)
        fun e => e = outOfMemory ∨ (e = .fault ∧ ¬ SegmentInside slice p.offset) := by
      refine fun name => .ite (fun _ => ?_) fun _ => .ret trivial
      refine (Traced.Ends.checked _ fun hout => .inr ⟨rfl, fun h => ?_⟩).imp (fun _ _ => trivial)
        fun _ he => he
      exact hout (h.1.part (k := 24) (by decide))
    refine .bind hname fun name _ => .bind (htext name) fun textVmaddr _ => ?_
    exact .bind (ends_loadSegment hshows hin') fun _ h => .ret ⟨h, rfl⟩
  · have hinside : CommandInside slice p.offset ↔ slice.Holds p.offset 16 :=
      ⟨fun h => h.2 hmain, fun h => ⟨fun h' => absurd h' hsegment, fun _ => h⟩⟩
    rw [hinside, ← hadd (k := 8) (by decide) 8]
    exact .checked_bind (fun hout => .inr ⟨rfl, hout⟩) fun hentry => .ret ⟨hentry, rfl⟩
  · have hinside : CommandInside slice p.offset := ⟨(absurd · hsegment), (absurd · hmain)⟩
    refine .ite (fun _ => .ite (fun hthread => ?_) fun _ => ?_) fun _ => ?_
    · have hrip : slice.Holds (p.offset + 16 + 16 * 8) 8 := by
        have hlength := slice.toNat_len
        have hlt := slice.length_lt
        unfold Slice.Holds at hin ⊢
        bv_omega
      exact .checked_bind (absurd hrip) fun _ => .ret ⟨hinside, rfl⟩
    · exact .ret ⟨hinside, rfl⟩
    · exact .ret ⟨hinside, rfl⟩

theorem ends_loadCommands (slice : Slice) (n : Nat) {p : Progress}
    (hoffset : p.offset.toNat < 2 ^ 63 + 2 ^ 32) :
    Traced.Ends (checkedLoadCommands (r := r) slice n p)
      (fun _ => ∀ offset ∈ commands slice n p.offset, CommandInside slice offset)
      fun e => e = outOfMemory ∨
        (e = .fault ∧ ¬ ∀ offset ∈ commands slice n p.offset, CommandInside slice offset) := by
  have hlength := slice.toNat_len
  have hlt := slice.length_lt
  induction n generalizing p with
  | zero => exact .ret nofun
  | succ n ih =>
    rw [checkedLoadCommands, commands]
    have hstart : p.offset + 8 > slice.len ↔ ¬ slice.Holds p.offset 8 := by
      unfold Slice.Holds
      bv_omega
    refine .ite (fun hend => ?_) fun hcommand => ?_
    · rw [if_neg (hstart.mp hend)]
      exact .ret nofun
    · have hin : slice.Holds p.offset 8 := not_not.mp fun h => hcommand (hstart.mpr h)
      rw [if_pos hin, List.forall_mem_cons]
      refine .reads_bind fun σ => .bind ((ends_loadCommand (slice.shows_peek σ) hin).imp
        (fun _ h => h) fun e he => ?_) fun p' hp' => ?_
      · exact he.imp_right fun h => ⟨h.1, fun hall => h.2 hall.1⟩
      · obtain ⟨hinside, hnext⟩ := hp'
        rw [← hnext]
        refine (ih ?_).imp (fun _ h => ⟨hinside, h⟩) fun e he =>
          he.imp_right fun h => ⟨h.1, fun hall => h.2 hall.2⟩
        rw [hnext, BitVec.toNat_add, BitVec.toNat_setWidth]
        have hsize := (readU32 slice.byte (p.offset + 4)).isLt
        unfold Slice.Holds at hin
        omega

theorem ends_load (slice : Slice) :
    Traced.Ends (checkedLoad (r := r) slice) (fun _ => AllInside slice)
      fun e => e = outOfMemory ∨ (e = .fault ∧ ¬ AllInside slice) ∨
        (e ≠ .fault ∧ AllInside slice) := by
  have hlength := slice.toNat_len
  refine .bind (.failIf fun hshort => .inr (.inr ⟨nofun, fun hin => ?_⟩)) fun _ hheader => ?_
  · unfold Slice.Holds at hin
    bv_omega
  have hin : slice.Holds 0 32 := by
    unfold Slice.Holds
    bv_omega
  refine .checked_bind (absurd (hin.mono (by decide))) fun _ => ?_
  refine .bind (.failIf fun hbad => .inr (.inr ⟨nofun, fun _ h => absurd h hbad⟩)) ?_
  intro _ hmagic
  refine .checked_bind (absurd (hin.part (k := 16) (by decide))) fun _ => ?_
  -- the header is in order, so it is about the commands
  have hall : AllInside slice ↔
      ∀ offset ∈ commands slice (readU32 slice.byte 16).toNat 32, CommandInside slice offset :=
    ⟨fun h => h hin (not_not.mp hmagic), fun h _ _ => h⟩
  rw [hall]
  refine .bind ((ends_loadCommands slice _ (by decide)).imp (fun _ h => h) fun e he => ?_) ?_
  · exact he.imp_right .inl
  · intro p hinside
    cases p.entryPoint with
    | none => exact .fail (.inr (.inr ⟨nofun, hinside⟩))
    | some entry => exact .ret hinside

/-- **No read is outside of the file** if and only if everything that its commands ask for is in the
file, unless there is not enough memory to get to the first one that asks for more. -/
theorem machO_safe_iff (slice : Slice) (σ : Machine) :
    Traced.Passes σ (checkedLoad (r := r) slice) (load slice) ↔
      ((checkedLoad (r := r) slice σ).result ≠ .error outOfMemory → AllInside slice) := by
  rw [(checks_load slice).passes_iff σ]
  exact (ends_load slice).ne_fault_iff σ

/-- A header and the first eight bytes of a command for a segment. -/
def cutSlice : Slice where
  data := ⟨field 4 0xfeedfacf ++ List.replicate 12 0 ++ field 4 1 ++ List.replicate 12 0 ++
    field 4 0x19 ++ field 4 72, by decide⟩
  around := fun _ _ => 0

/-- The name of the segment is read although the file ends before it. -/
theorem not_machO_safe_cut :
    ¬ Traced.Passes (smallSystem.create 0x2000).machine (checkedLoad (r := 0x2000) cutSlice)
      (load cutSlice) := by
  have hfault : (checkedLoad (r := 0x2000) cutSlice (smallSystem.create 0x2000).machine).result =
      .error .fault := by
    decide +kernel
  exact fun h => h.result_ne hfault

end BeastOs.UniversalExec.MachOLoader
