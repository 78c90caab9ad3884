import BeastOs.IoUring.Submit
import BeastOs.Memory.Pmm

/-!
# The pages of the rings

`IoUring::new` takes one page for each ring, behind a header of 32 bytes. At most 128 entries are
granted: their completions of 24 bytes fit a page, but their submissions of 40 bytes do not.

Main result: `staysInPages_iff`. Every access stays in its page, whatever indices the user program
stores, exactly when at most 101 entries were asked for.
-/

namespace BeastOs.IoUring

open List BitVec Lib

variable {W : Type} {r r' : IoUring} {k : Services W} {s s' : Progress W} {prio : U8}
  {tail idx : U32} {fuel : Nat}

def ioringMaxEntries : Nat := 128

/-! ## Setting up -/

/-- `entries.min(IOURING_MAX_ENTRIES).max(1)` -/
def clampEntries (entries : U32) : U32 :=
  BitVec.ofNat 32 (max (min entries.toNat ioringMaxEntries) 1)

/-- Two pages of zeros, with the number of entries in the header of the first. -/
def blankPages (sqKvirt cqKvirt : U64) (entries : U32) (mem : U64 → U64) (addr : U64) : U64 :=
  -- `*sq.add(2)` and `*sq.add(5)`
  if addr = sqKvirt + 8 then (0 : U32) ++ entries
  else if addr = sqKvirt + 16 then entries ++ (0 : U32)
  else if (addr - sqKvirt).toNat < 4096 ∨ (addr - cqKvirt).toNat < 4096 then 0
  else mem addr

/-- `IoUring::new`. The flag it also takes is only kept for the poller. -/
def new (entries : U32) (pageTable hhdmOffset : U64) (mem : U64 → U64) (pmm : Pmm) :
    Option IoUring × Pmm :=
  match pmm.allocPage with
  | (none, pmm) => (none, pmm)
  | (some sqPhys, pmm) =>
    match pmm.allocPage with
    -- the first page is not given back
    | (none, pmm) => (none, pmm)
    | (some cqPhys, pmm) =>
      let sqKvirt := sqPhys + hhdmOffset
      let cqKvirt := cqPhys + hhdmOffset
      let entries := clampEntries entries
      (some { sqPhys, cqPhys, sqKvirt, cqKvirt, entries, pageTable,
              bufs := fun _ => ⟨0, 0, 0, false⟩, fixedFiles := [], counters := ⟨0, 0, 0, 0, 0⟩,
              chainResult := 0, mem := blankPages sqKvirt cqKvirt entries mem }, pmm)

/-! ## Staying inside -/

/-- The bytes of an entry, from the first to the last, are in the page of its ring. -/
def InPage (r : IoUring) : RingAccess → Prop
  | .sqe addr => (addr - r.sqKvirt).toNat + sqeSize.toNat ≤ Pmm.pageSize
  | .cqe addr => (addr - r.cqKvirt).toNat + cqeSize.toNat ≤ Pmm.pageSize

/-- Neither a submission nor a completion by itself leaves the pages. -/
structure StaysInPages (r : IoUring) : Prop where
  submit : ∀ {W : Type} (k : Services W) (w : W) (s : Progress W), submitSqes k r w = some s →
    ∀ a ∈ s.accesses, r.InPage a
  push : ∀ a ∈ r.pushAccesses, r.InPage a

theorem toNat_clampEntries (entries : U32) :
    (clampEntries entries).toNat = max (min entries.toNat 128) 1 := by
  unfold clampEntries ioringMaxEntries
  rw [toNat_ofNat, Nat.mod_eq_of_lt (by omega)]

theorem sqeAddr_inPage_iff (r : IoUring) (idx : U32) :
    r.InPage (.sqe (r.sqeAddr idx)) ↔ idx.toNat % r.entries.toNat ≤ 100 := by
  have hsize : sqeSize.toNat = 40 := rfl
  unfold InPage Pmm.pageSize
  dsimp only
  rw [sqeAddr_offset, hsize]
  omega

/-- The completions of 128 entries fit their page. -/
theorem cqeAddr_inPage (hpos : 0 < r.entries.toNat) (hentries : r.entries.toNat ≤ 128) (idx : U32) :
    r.InPage (.cqe (r.cqeAddr idx)) := by
  have hsize : cqeSize.toNat = 24 := rfl
  have hlt : r.cqSlot idx < r.entries.toNat := Nat.mod_lt _ hpos
  unfold InPage Pmm.pageSize
  dsimp only
  rw [cqeAddr_offset, hsize]
  omega

theorem pushAccesses_inPage (hpos : 0 < r.entries.toNat) (hentries : r.entries.toNat ≤ 128) :
    ∀ a ∈ r.pushAccesses, r.InPage a := by
  unfold pushAccesses
  split
  · exact forall_mem_nil _
  · exact forall_mem_singleton.mpr (cqeAddr_inPage hpos hentries _)

/-! ### A call -/

section

variable {P : Progress W → Prop} (hread : ∀ s idx, P s → P (s.readsSqe idx))
  (hone : ∀ s idx, P s → P (submitOne k idx s))
include hread hone

/-- What every step of a pass keeps, the pass keeps. -/
theorem submitPass_keeps (h : P s) (hpass : submitPass k prio tail fuel idx s = some s') :
    P s' := by
  induction fuel generalizing idx s with
  | zero => cases hpass
  | succ fuel ih =>
    unfold submitPass at hpass
    dsimp only at hpass
    split at hpass
    · split at hpass
      · exact ih (hread s idx h) hpass
      · split at hpass
        · exact ih (hone _ idx (hread s idx h)) hpass
        · cases hpass
          exact hone _ idx (hread s idx h)
    · cases hpass
      exact h

theorem submitPasses_keep {head : U32} {prios : List U8} (h : P s)
    (hpasses : prios.foldlM (fun s prio => submitPass k prio tail maxRounds head s) s = some s') :
    P s' := by
  induction prios generalizing s with
  | nil =>
    cases hpasses
    exact h
  | cons prio prios ih =>
    rw [foldlM_cons] at hpasses
    obtain ⟨s₁, hpass, hpasses⟩ := Option.bind_eq_some_iff.mp hpasses
    exact ih (submitPass_keeps hread hone h hpass) hpasses

end

/-- The rings are where they were, and what has been accessed is inside. -/
structure Inside (r : IoUring) (s : Progress W) : Prop where
  sqKvirt : s.ring.sqKvirt = r.sqKvirt
  cqKvirt : s.ring.cqKvirt = r.cqKvirt
  entries : s.ring.entries = r.entries
  inPage : ∀ a ∈ s.accesses, r.InPage a

theorem inPage_congr (hsq : r'.sqKvirt = r.sqKvirt) (hcq : r'.cqKvirt = r.cqKvirt) :
    r'.InPage = r.InPage := by
  funext a
  cases a with
  | sqe addr => rw [InPage, InPage, hsq]
  | cqe addr => rw [InPage, InPage, hcq]

section

variable (hpos : 0 < r.entries.toNat) (hentries : r.entries.toNat ≤ 101)
include hpos hentries

theorem Inside.readsSqe (h : Inside r s) (idx : U32) : Inside r (s.readsSqe idx) := by
  refine ⟨h.sqKvirt, h.cqKvirt, h.entries, forall_mem_append.mpr ⟨h.inPage, ?_⟩⟩
  rw [forall_mem_singleton, ← inPage_congr h.sqKvirt h.cqKvirt, sqeAddr_inPage_iff, h.entries]
  exact Nat.le_of_lt_succ ((Nat.mod_lt _ hpos).trans_le hentries)

theorem Inside.submitOne (h : Inside r s) (idx : U32) : Inside r (submitOne k idx s) := by
  have hone := submits k idx s
  generalize IoUring.submitOne k idx s = s' at hone ⊢
  cases hone with
  | chained => exact ⟨h.sqKvirt, h.cqKvirt, h.entries, h.inPage⟩
  | @posted counters chainResult result world ring hchain hring =>
    have hplace :
        ring.sqKvirt = r.sqKvirt ∧ ring.cqKvirt = r.cqKvirt ∧ ring.entries = r.entries := by
      subst hring
      exact ⟨h.sqKvirt, h.cqKvirt, h.entries⟩
    obtain ⟨hsq, hcq, heq⟩ := hplace
    have hsame := pushCqe_same ring ⟨(s.ring.sqe idx).userData, result, 0⟩
    refine ⟨hsame.sqKvirt.trans hsq, hsame.cqKvirt.trans hcq, hsame.entries.trans heq,
      forall_mem_append.mpr ⟨h.inPage, ?_⟩⟩
    rw [← inPage_congr hsq hcq]
    exact pushAccesses_inPage (heq ▸ hpos) (heq ▸ hentries.trans (by decide))

theorem staysInPages : StaysInPages r := by
  refine ⟨fun k w s hs => ?_, pushAccesses_inPage hpos (hentries.trans (by decide))⟩
  have hstart : Inside r ⟨r, w, 0, [], []⟩ := ⟨rfl, rfl, rfl, forall_mem_nil _⟩
  unfold submitSqes at hs
  dsimp only at hs
  split at hs
  · cases hs
    exact hstart.inPage
  · obtain ⟨s₁, hpasses, hs⟩ := Option.bind_eq_some_iff.mp hs
    cases hs
    exact (submitPasses_keep (fun _ idx h => h.readsSqe hpos hentries idx)
      (fun _ idx h => h.submitOne hpos hentries idx) hstart hpasses).inPage

end

/-- The first entry that a call reads is the one of the head. -/
theorem sqe_head_mem_accesses (hpos : 0 < r.entries.toNat) (hne : r.sqHead ≠ r.sqTail) {w : W}
    (hs : submitSqes k r w = some s) : RingAccess.sqe (r.sqeAddr r.sqHead) ∈ s.accesses := by
  have hread : ∀ (s : Progress W) idx, RingAccess.sqe (r.sqeAddr r.sqHead) ∈ s.accesses →
      RingAccess.sqe (r.sqeAddr r.sqHead) ∈ (s.readsSqe idx).accesses :=
    fun s idx h => mem_append_left _ h
  have hone : ∀ (s : Progress W) idx, RingAccess.sqe (r.sqeAddr r.sqHead) ∈ s.accesses →
      RingAccess.sqe (r.sqeAddr r.sqHead) ∈ (submitOne k idx s).accesses := by
    intro s idx h
    have hone := submits k idx s
    generalize submitOne k idx s = s' at hone ⊢
    cases hone with
    | chained => exact h
    | posted => exact mem_append_left _ h
  have hfirst : RingAccess.sqe (r.sqeAddr r.sqHead) ∈
      ((⟨r, w, 0, [], []⟩ : Progress W).readsSqe r.sqHead).accesses := mem_singleton_self _
  have hguard : r.sqHead ≠ r.sqTail ∧ (0 : U32) < r.entries := ⟨hne, hpos⟩
  obtain ⟨fuel, hfuel⟩ : ∃ fuel, maxRounds = fuel + 1 := ⟨2 ^ 32 - 1, rfl⟩
  unfold submitSqes at hs
  dsimp only at hs
  rw [if_neg hne, priorities, foldlM_cons] at hs
  obtain ⟨s₂, hpasses, hs⟩ := Option.bind_eq_some_iff.mp hs
  obtain ⟨s₁, hpass, hpasses⟩ := Option.bind_eq_some_iff.mp hpasses
  cases hs
  show RingAccess.sqe (r.sqeAddr r.sqHead) ∈ s₂.accesses
  refine submitPasses_keep hread hone ?_ hpasses
  rw [hfuel, submitPass, if_pos hguard] at hpass
  dsimp only at hpass
  split at hpass
  · exact submitPass_keeps hread hone hfirst hpass
  · split at hpass
    · exact submitPass_keeps hread hone (hone _ _ hfirst) hpass
    · cases hpass
      exact hone _ _ hfirst

/-! ### The bound -/

/-- A ring has the number of entries it was created with, within bounds. -/
theorem entries_of_new {entries : U32} {pageTable hhdmOffset : U64} {mem : U64 → U64}
    {pmm pmm' : Pmm} (h : new entries pageTable hhdmOffset mem pmm = (some r, pmm')) :
    r.entries = clampEntries entries := by
  unfold new at h
  split at h
  · cases h
  split at h
  · cases h
  · cases h
    rfl

/-- The free pages are 1 and 2. -/
def twoPages : Pmm := ⟨fun i => if i = 0 then 0x6 else 0, 2, 2⟩

theorem exists_new (entries : U32) (pageTable hhdmOffset : U64) (mem : U64 → U64) :
    ∃ r pmm', new entries pageTable hhdmOffset mem twoPages = (some r, pmm') := by
  have hpages : twoPages.allocPage.1.isSome = true ∧
      twoPages.allocPage.2.allocPage.1.isSome = true := by decide +kernel
  unfold new
  generalize twoPages.allocPage = out at hpages ⊢
  obtain ⟨sqPhys | sqPhys, pmm⟩ := out
  · exact absurd hpages.1 Bool.false_ne_true
  dsimp only at hpages ⊢
  generalize pmm.allocPage = out at hpages ⊢
  obtain ⟨cqPhys | cqPhys, pmm'⟩ := out
  · exact absurd hpages.2 Bool.false_ne_true
  · exact ⟨_, _, rfl⟩

/-- The entry of index 101 has been submitted. -/
def lastSubmitted (r : IoUring) : IoUring := r.store r.sqKvirt ((102 : U32) ++ (101 : U32))

theorem head_lastSubmitted (r : IoUring) :
    r.lastSubmitted.sqHead = 101 ∧ r.lastSubmitted.sqTail = 102 :=
  ⟨(congrArg low (store_self ..)).trans (low_append ..),
    (congrArg high (store_self ..)).trans (high_append ..)⟩

/-- With more than 101 entries, the entry of index 101 reaches beyond the page. -/
theorem lastSubmitted_leaves (hlow : 101 < r.entries.toNat) :
    ∃ s, submitSqes idleServices r.lastSubmitted () = some s ∧
      RingAccess.sqe (r.sqeAddr 101) ∈ s.accesses ∧ ¬ r.InPage (.sqe (r.sqeAddr 101)) := by
  obtain ⟨hhead, htail⟩ := head_lastSubmitted r
  obtain ⟨s, hs⟩ := Option.isSome_iff_exists.mp (isSome_submitSqes idleServices r.lastSubmitted ())
  have hne : r.lastSubmitted.sqHead ≠ r.lastSubmitted.sqTail := by
    rw [hhead, htail]
    decide
  have hread := sqe_head_mem_accesses (r := r.lastSubmitted) (Nat.zero_lt_of_lt hlow) hne hs
  rw [hhead] at hread
  refine ⟨s, hs, hread, fun hinside => ?_⟩
  have hslot : (101 : U32).toNat % r.entries.toNat = 101 := Nat.mod_eq_of_lt hlow
  exact absurd (hslot ▸ (sqeAddr_inPage_iff r 101).mp hinside : 101 ≤ 100) (by decide)

/-- **How many entries a page holds.** -/
theorem staysInPages_iff (entries : U32) :
    (∀ (pageTable hhdmOffset : U64) (mem : U64 → U64) (pmm pmm' : Pmm) (ring : IoUring),
      new entries pageTable hhdmOffset mem pmm = (some ring, pmm') →
      ∀ r : IoUring, r.sqKvirt = ring.sqKvirt → r.cqKvirt = ring.cqKvirt →
        r.entries = ring.entries → StaysInPages r) ↔ entries ≤ 101 := by
  have hclamp := toNat_clampEntries entries
  have hle : entries ≤ 101 ↔ entries.toNat ≤ 101 := Iff.rfl
  rw [hle]
  constructor
  · intro hstays
    by_contra hmore
    obtain ⟨ring, pmm', hnew⟩ := exists_new entries 0 0 fun _ => 0
    obtain ⟨s, hs, hread, hleaves⟩ := lastSubmitted_leaves (r := ring)
      (by rw [entries_of_new hnew]; omega)
    exact hleaves ((hstays 0 0 _ _ _ _ hnew ring.lastSubmitted rfl rfl rfl).submit _ _ s hs _ hread)
  · intro hfew pageTable hhdmOffset mem pmm pmm' ring hnew r _ _ hentries
    have hgranted : r.entries = clampEntries entries := hentries.trans (entries_of_new hnew)
    exact staysInPages (by rw [hgranted]; omega) (by rw [hgranted]; omega)

/-- Of 128 entries, the one of index 101 starts inside the page and ends outside. -/
theorem submitSqes_leaves_page : ∃ r pmm' s,
    new 128 0 0xFFFF800000000000 (fun _ => 0) twoPages = (some r, pmm') ∧
    submitSqes idleServices r.lastSubmitted () = some s ∧
    RingAccess.sqe (r.sqKvirt + 4072) ∈ s.accesses ∧ ¬ r.InPage (.sqe (r.sqKvirt + 4072)) := by
  obtain ⟨r, pmm', hnew⟩ := exists_new 128 0 0xFFFF800000000000 fun _ => 0
  have hentries : r.entries = 128 := entries_of_new hnew
  obtain ⟨s, hs, hread, hleaves⟩ := lastSubmitted_leaves (r := r) (by rw [hentries]; decide)
  have haddr : r.sqeAddr 101 = r.sqKvirt + 4072 := by
    have hoffset : ringHeaderSize +
        ((101 : U32).setWidth 64 % (128 : U32).setWidth 64) * sqeSize = 4072 := by decide
    unfold sqeAddr
    rw [hentries, add_assoc]
    exact congrArg _ hoffset
  rw [haddr] at hread hleaves
  exact ⟨r, pmm', s, hnew, hs, hread, hleaves⟩

end BeastOs.IoUring
