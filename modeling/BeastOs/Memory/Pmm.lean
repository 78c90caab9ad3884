import BeastOs.Lib.Bitmap
import BeastOs.Lib.Runs
import BeastOs.Word

/-!
# The physical memory manager

`kernel/src/memory/pmm.rs`: one bit per 4 KiB page, set when the page is free, and a counter of the
free pages that is kept apart from the bitmap. The invariant of the module is that the counter is
right (`Counted`); every operation is described by which pages it takes from or gives back to the
set of free pages.

What this says about runs of calls is in `BeastOs.Memory.PageOwnership`.
-/

namespace BeastOs

open List Lib

namespace Pmm

def pageSize : Nat := 4096

def maxPages : Nat := 1024 * 1024

def bitmapWords : Nat := maxPages / 64

/-- An entry of the boot loader's memory map. -/
structure MemmapEntry where
  base : U64
  length : U64
  type : U64
  deriving DecidableEq, Repr

def memmapUsable : U64 := 0

end Pmm

/-- The statics of the module: 1 = free, 0 = used or reserved. -/
structure Pmm where
  bitmap : Bitmap 64
  totalPages : U64
  freePages : U64

namespace Pmm

/-! ## The code -/

/-- The pages of the Rust range `first..last`. -/
def pageRange (first last : Nat) : List Nat := List.range' first (last - first)

def MemmapEntry.startPage (e : MemmapEntry) : Nat := (e.base + 4095#64).toNat / pageSize

def MemmapEntry.endPage (e : MemmapEntry) : Nat := (e.base + e.length).toNat / pageSize

/-- The body of the loop over a usable entry's pages; the counter is the local `free_count`. -/
def markFree (p : Bitmap 64 × U64) (page : Nat) : Bitmap 64 × U64 :=
  if page < maxPages then (p.1.setBit page, p.2 + 1) else p

def markEntry (p : Bitmap 64 × U64) (e : MemmapEntry) : Bitmap 64 × U64 :=
  if e.type = memmapUsable then (pageRange e.startPage e.endPage).foldl markFree p else p

/-- `clear_bit` and `FREE_PAGES.fetch_sub(1)`. -/
def take (s : Pmm) (page : Nat) : Pmm :=
  { s with bitmap := s.bitmap.clearBit page, freePages := s.freePages - 1 }

/-- The body of the two loops of `init` that reserve pages. -/
def reserve (s : Pmm) (page : Nat) : Pmm :=
  if page < maxPages ∧ s.bitmap.testBit page then s.take page else s

def init (entries : List MemmapEntry) (kernelStart kernelEnd : U64) : Pmm :=
  let (bitmap, freeCount) := entries.foldl markEntry (Bitmap.zero, 0)
  let s : Pmm := ⟨bitmap, freeCount, freeCount⟩
  -- the kernel and the modules
  let s := (pageRange (kernelStart.toNat / pageSize)
    ((kernelEnd + 4095#64).toNat / pageSize)).foldl reserve s
  -- page 0 and the first MiB
  (pageRange 0 (1024 * 1024 / pageSize)).foldl reserve s

/-- Allocate a single physical page. -/
def allocPage (s : Pmm) : Option U64 × Pmm :=
  match s.bitmap.firstOne bitmapWords with
  | none => (none, s)
  | some page => (some (BitVec.ofNat 64 (page * pageSize)), s.take page)

/-- Free a physical page by its address. -/
def freePage (s : Pmm) (physAddr : U64) : Pmm :=
  let page := physAddr.toNat / pageSize
  if page ≥ maxPages then s
  else if s.bitmap.testBit page then s
  else { s with bitmap := s.bitmap.setBit page, freePages := s.freePages + 1 }

/-- The scan of `alloc_contiguous` over the remaining pages. -/
def findRun (bitmap : Bitmap 64) (count : Nat) : List Nat → Nat → Nat → Option Nat
  | [], _, _ => none
  | page :: pages, runStart, runLen =>
    if bitmap.testBit page then
      let runStart := if runLen = 0 then page else runStart
      if runLen + 1 = count then some runStart
      else findRun bitmap count pages runStart (runLen + 1)
    else findRun bitmap count pages runStart 0

/-- Allocate `count` contiguous physical pages. -/
def allocContiguous (s : Pmm) (count : Nat) : Option U64 × Pmm :=
  if count = 0 then (none, s)
  else
    match findRun s.bitmap count (List.range maxPages) 0 0 with
    | none => (none, s)
    | some runStart =>
      (some (BitVec.ofNat 64 (runStart * pageSize)),
        (pageRange runStart (runStart + count)).foldl take s)

/-! ## Free pages and their number -/

def isFree (s : Pmm) (page : Nat) : Bool := s.bitmap.testBit page

/-- The free pages. -/
def freeSet (s : Pmm) : Finset Nat := s.bitmap.ones maxPages

/-- The counter counts the free pages. -/
def Counted (s : Pmm) : Prop := s.freePages = BitVec.ofNat 64 s.freeSet.card

variable {s s' : Pmm} {page j count : Nat} {pages : List Nat} {p : Bitmap 64 × U64}
  {kernelStart kernelEnd addr : U64}

theorem mem_freeSet : page ∈ s.freeSet ↔ page < maxPages ∧ s.isFree page = true :=
  Bitmap.mem_ones

theorem freeSet_subset (s : Pmm) : s.freeSet ⊆ Finset.range maxPages :=
  Finset.filter_subset _ _

theorem Counted.toNat_eq (h : Counted s) : s.freePages.toNat = s.freeSet.card := by
  have hle : s.freeSet.card ≤ maxPages := by
    have hcard := Finset.card_le_card s.freeSet_subset
    rwa [Finset.card_range] at hcard
  rw [h, BitVec.toNat_ofNat, Nat.mod_eq_of_lt]
  exact lt_of_le_of_lt hle (by decide)

theorem isFree_take (s : Pmm) (page j : Nat) :
    (s.take page).isFree j = (!decide (j = page) && s.isFree j) :=
  Bitmap.testBit_clearBit (by decide) _ _ _

theorem freeSet_take (s : Pmm) (page : Nat) : (s.take page).freeSet = s.freeSet.erase page :=
  Bitmap.ones_clearBit (by decide)

theorem Counted.take (h : Counted s) (hfree : page ∈ s.freeSet) : Counted (s.take page) := by
  obtain ⟨n, hn⟩ := Nat.exists_eq_succ_of_ne_zero (Finset.card_ne_zero_of_mem hfree)
  unfold Counted at h ⊢
  rw [freeSet_take, Finset.card_erase_of_mem hfree, hn, Nat.succ_sub_one]
  show s.freePages - 1#64 = _
  rw [h, hn, Nat.succ_eq_add_one, BitVec.ofNat_add, BitVec.add_sub_cancel]

theorem isFree_take_foldl (pages : List Nat) (s : Pmm) (j : Nat) :
    (pages.foldl take s).isFree j = (!decide (j ∈ pages) && s.isFree j) := by
  induction pages generalizing s with
  | nil => simp
  | cons page pages ih =>
    rw [foldl_cons, ih, isFree_take]
    by_cases hj : j = page
    · simp [hj]
    · simp [hj]

/-- Taking several free pages. -/
theorem Counted.take_foldl (hnodup : pages.Nodup) (h : Counted s)
    (hfree : ∀ page ∈ pages, page ∈ s.freeSet) : Counted (pages.foldl Pmm.take s) := by
  induction pages generalizing s with
  | nil => exact h
  | cons page pages ih =>
    obtain ⟨hnot, hnodup⟩ := nodup_cons.mp hnodup
    refine ih hnodup (h.take (hfree page mem_cons_self)) ?_
    intro j hj
    rw [freeSet_take, Finset.mem_erase]
    exact ⟨fun heq => hnot (heq ▸ hj), hfree j (mem_cons_of_mem _ hj)⟩

/-! ## `init` -/

theorem isFree_reserve (s : Pmm) (page j : Nat) (hj : j < maxPages) :
    (s.reserve page).isFree j = (!decide (j = page) && s.isFree j) := by
  unfold reserve
  split
  · exact isFree_take s page j
  · next hnot =>
      by_cases heq : j = page
      · subst heq
        have hfalse : s.isFree j = false := by
          by_contra htrue
          exact hnot ⟨hj, Bool.not_eq_false _ ▸ htrue⟩
        simp [hfalse]
      · simp [heq]

theorem Counted.reserve (h : Counted s) (page : Nat) : Counted (s.reserve page) := by
  unfold Pmm.reserve
  split
  · next hfree => exact h.take (mem_freeSet.mpr hfree)
  · exact h

theorem reserve_foldl (pages : List Nat) (s : Pmm) :
    (Counted s → Counted (pages.foldl Pmm.reserve s)) ∧
      ∀ j < maxPages,
        (pages.foldl Pmm.reserve s).isFree j = (!decide (j ∈ pages) && s.isFree j) := by
  induction pages generalizing s with
  | nil => exact ⟨id, fun j _ => by simp⟩
  | cons page pages ih =>
    obtain ⟨hcounted, hbits⟩ := ih (s.reserve page)
    refine ⟨fun h => hcounted (h.reserve page), fun j hj => ?_⟩
    rw [foldl_cons, hbits j hj, isFree_reserve s page j hj]
    by_cases heq : j = page
    · simp [heq]
    · simp [heq]

/-- The local counter of `init` counts the bits set so far. -/
def CountedBits (p : Bitmap 64 × U64) : Prop := p.2 = BitVec.ofNat 64 (p.1.ones maxPages).card

theorem testBit_markFree (p : Bitmap 64 × U64) (page j : Nat) (hj : j < maxPages) :
    (markFree p page).1.testBit j = (decide (j = page) || p.1.testBit j) := by
  unfold markFree
  split
  · exact Bitmap.testBit_setBit (by decide) _ _ _
  · next hnot =>
      have hne : j ≠ page := fun heq => hnot (heq ▸ hj)
      simp [hne]

theorem CountedBits.markFree (h : CountedBits p) (hnew : p.1.testBit page = false) :
    CountedBits (markFree p page) := by
  unfold Pmm.markFree
  split
  · next hlt =>
      have hnot : page ∉ p.1.ones maxPages := by
        rw [Bitmap.mem_ones, hnew]
        simp
      unfold CountedBits
      rw [Bitmap.ones_setBit (by decide) hlt, Finset.card_insert_of_notMem hnot, h,
        BitVec.ofNat_add]
      rfl
  · exact h

theorem testBit_markFree_foldl (pages : List Nat) (p : Bitmap 64 × U64) (j : Nat)
    (hj : j < maxPages) :
    (pages.foldl markFree p).1.testBit j = (decide (j ∈ pages) || p.1.testBit j) := by
  induction pages generalizing p with
  | nil => simp
  | cons page pages ih =>
    rw [foldl_cons, ih, testBit_markFree p page j hj]
    by_cases heq : j = page
    · simp [heq]
    · simp [heq]

theorem CountedBits.markFree_foldl (h : CountedBits p) (hnodup : pages.Nodup)
    (hnew : ∀ page ∈ pages, page < maxPages → p.1.testBit page = false) :
    CountedBits (pages.foldl Pmm.markFree p) := by
  induction pages generalizing p with
  | nil => exact h
  | cons page pages ih =>
    obtain ⟨hnot, hnodup⟩ := nodup_cons.mp hnodup
    have hmark : CountedBits (Pmm.markFree p page) := by
      by_cases hlt : page < maxPages
      · exact h.markFree (hnew page mem_cons_self hlt)
      · have hskip : Pmm.markFree p page = p := if_neg hlt
        rw [hskip]
        exact h
    refine ih hmark hnodup ?_
    intro j hj hlt
    have hne : j ≠ page := fun heq => hnot (heq ▸ hj)
    rw [testBit_markFree p page j hlt, hnew j (mem_cons_of_mem _ hj) hlt]
    simp [hne]

theorem mem_pageRange {first last : Nat} :
    page ∈ pageRange first last ↔ first ≤ page ∧ page < last := by
  unfold pageRange
  rw [mem_range'_1]
  omega

theorem nodup_pageRange (first last : Nat) : (pageRange first last).Nodup := nodup_range'

/-- The pages an entry gives. -/
def MemmapEntry.Gives (e : MemmapEntry) (page : Nat) : Prop :=
  e.type = memmapUsable ∧ e.startPage ≤ page ∧ page < e.endPage

instance (e : MemmapEntry) (page : Nat) : Decidable (e.Gives page) :=
  inferInstanceAs (Decidable (_ ∧ _))

theorem testBit_markEntry (p : Bitmap 64 × U64) (e : MemmapEntry) (j : Nat) (hj : j < maxPages) :
    (markEntry p e).1.testBit j = (decide (e.Gives j) || p.1.testBit j) := by
  unfold markEntry MemmapEntry.Gives
  split
  · next husable =>
      rw [testBit_markFree_foldl _ _ _ hj]
      simp [husable, mem_pageRange]
  · next hnot => simp [hnot]

theorem testBit_markEntry_foldl (entries : List MemmapEntry) (p : Bitmap 64 × U64) (j : Nat)
    (hj : j < maxPages) : (entries.foldl markEntry p).1.testBit j = true ↔
      (∃ e ∈ entries, e.Gives j) ∨ p.1.testBit j = true := by
  induction entries generalizing p with
  | nil => simp
  | cons e entries ih =>
    rw [foldl_cons, ih, testBit_markEntry p e j hj]
    simp only [Bool.or_eq_true, decide_eq_true_eq, mem_cons, exists_eq_or_imp]
    rw [or_left_comm, or_assoc]

variable {entries : List MemmapEntry}

/-- When no page is given twice, none is counted twice. -/
theorem CountedBits.markEntry_foldl (h : CountedBits p)
    (hdisj : entries.Pairwise fun e e' => ∀ page, ¬ (e.Gives page ∧ e'.Gives page))
    (hnew : ∀ e ∈ entries, ∀ page < maxPages, e.Gives page → p.1.testBit page = false) :
    CountedBits (entries.foldl Pmm.markEntry p) := by
  induction entries generalizing p with
  | nil => exact h
  | cons e entries ih =>
    obtain ⟨hhead, hdisj⟩ := pairwise_cons.mp hdisj
    have hmark : CountedBits (Pmm.markEntry p e) := by
      unfold Pmm.markEntry
      split
      · next husable =>
          refine h.markFree_foldl (nodup_pageRange _ _) ?_
          intro page hpage hlt
          exact hnew e mem_cons_self page hlt ⟨husable, mem_pageRange.mp hpage⟩
      · exact h
    refine ih hmark hdisj ?_
    intro e' he' page hlt hgives
    rw [testBit_markEntry p e page hlt, hnew e' (mem_cons_of_mem _ he') page hlt hgives]
    have hnot : ¬ e.Gives page := fun hboth => hhead e' he' page ⟨hboth, hgives⟩
    simp [hnot]

theorem isFree_init (hlt : page < maxPages) :
    (init entries kernelStart kernelEnd).isFree page = true ↔
      (∃ e ∈ entries, e.Gives page) ∧
      ¬ (kernelStart.toNat / pageSize ≤ page ∧ page < (kernelEnd + 4095#64).toNat / pageSize) ∧
      1024 * 1024 / pageSize ≤ page := by
  unfold init
  simp only [(reserve_foldl _ _).2 page hlt]
  have hmarked := testBit_markEntry_foldl entries (Bitmap.zero, 0) page hlt
  simp only [Bitmap.testBit_zero, Bool.false_eq_true, or_false] at hmarked
  unfold isFree
  simp only [Bool.and_eq_true, Bool.not_eq_true', decide_eq_false_iff_not, hmarked, mem_pageRange]
  constructor
  · rintro ⟨hlow, hkernel, hgiven⟩
    exact ⟨hgiven, hkernel, by omega⟩
  · rintro ⟨hgiven, hkernel, hlow⟩
    exact ⟨by omega, hkernel, hgiven⟩

theorem testBit_markFree_of_ge (hj : maxPages ≤ j) (p : Bitmap 64 × U64) (page : Nat) :
    (markFree p page).1.testBit j = p.1.testBit j := by
  unfold markFree
  split
  · next hlt =>
      have hne : j ≠ page := by omega
      rw [Bitmap.testBit_setBit (by decide)]
      simp [hne]
  · rfl

/-- Only pages below the bound are ever marked. -/
theorem testBit_markEntry_foldl_of_ge (hj : maxPages ≤ j) (entries : List MemmapEntry)
    (p : Bitmap 64 × U64) : (entries.foldl markEntry p).1.testBit j = p.1.testBit j := by
  refine foldlRecOn (motive := fun q : Bitmap 64 × U64 => q.1.testBit j = p.1.testBit j)
    entries _ rfl ?_
  intro p₁ h₁ e _
  unfold markEntry
  split
  · refine foldlRecOn (motive := fun q : Bitmap 64 × U64 => q.1.testBit j = p.1.testBit j)
      _ _ h₁ ?_
    intro p₂ h₂ page _
    rw [testBit_markFree_of_ge hj, h₂]
  · exact h₁

theorem isFree_of_reserve_foldl (h : (pages.foldl Pmm.reserve s).isFree j = true) :
    s.isFree j = true := by
  induction pages generalizing s with
  | nil => exact h
  | cons page pages ih =>
    have hfree := ih h
    unfold Pmm.reserve at hfree
    split at hfree
    · rw [isFree_take, Bool.and_eq_true] at hfree
      exact hfree.2
    · exact hfree

theorem lt_of_isFree_init (h : (init entries kernelStart kernelEnd).isFree page = true) :
    page < maxPages := by
  have hmarked : (entries.foldl markEntry (Bitmap.zero, 0)).1.testBit page = true :=
    isFree_of_reserve_foldl (isFree_of_reserve_foldl h)
  by_contra hge
  rw [testBit_markEntry_foldl_of_ge (not_lt.mp hge), Bitmap.testBit_zero] at hmarked
  cases hmarked

theorem counted_init
    (hdisj : entries.Pairwise fun e e' => ∀ page, ¬ (e.Gives page ∧ e'.Gives page)) :
    Counted (init entries kernelStart kernelEnd) := by
  have hempty : CountedBits (Bitmap.zero, 0) := by
    unfold CountedBits
    rw [Bitmap.ones_zero]
    rfl
  have hmarked := hempty.markEntry_foldl hdisj
    (fun _ _ page _ _ => Bitmap.testBit_zero page)
  exact (reserve_foldl _ _).1 ((reserve_foldl _ _).1 hmarked)

/-! ## Allocating and freeing -/

/-- The page an address lies in. -/
def pageOf (addr : U64) : Nat := addr.toNat / pageSize

theorem pageOf_ofNat (hlt : page < maxPages) :
    pageOf (BitVec.ofNat 64 (page * pageSize)) = page := by
  have hsmall : page * pageSize < 2 ^ 64 :=
    lt_of_lt_of_le (Nat.mul_lt_mul_of_pos_right hlt (by decide)) (by decide)
  unfold pageOf
  rw [BitVec.toNat_ofNat, Nat.mod_eq_of_lt hsmall, Nat.mul_div_cancel _ (by decide)]

theorem maxPages_eq : maxPages = bitmapWords * 64 := by decide

theorem allocPage_eq_some (h : s.allocPage = (some addr, s')) :
    ∃ page ∈ s.freeSet, addr = BitVec.ofNat 64 (page * pageSize) ∧ s' = s.take page := by
  unfold allocPage at h
  split at h
  · cases h
  · next page hpage =>
      cases h
      obtain ⟨hlt, hfree⟩ := Bitmap.firstOne_eq_some (by decide) hpage
      exact ⟨page, mem_freeSet.mpr ⟨by rw [maxPages_eq]; exact hlt, hfree⟩, rfl, rfl⟩

/-- The lowest free page is taken. -/
theorem allocPage_lt (h : s.allocPage = (some addr, s')) :
    ∀ page ∈ s'.freeSet, pageOf addr < page := by
  obtain ⟨first, hfirst, rfl, rfl⟩ := allocPage_eq_some h
  intro page hpage
  rw [freeSet_take, Finset.mem_erase] at hpage
  rw [pageOf_ofNat (mem_freeSet.mp hfirst).1]
  have hle : first ≤ page := by
    unfold allocPage at h
    split at h
    · cases h
    · next first' hfirst' =>
        have hle := Bitmap.firstOne_le (by decide) hfirst' (mem_freeSet.mp hpage.2).2
        have haddr : BitVec.ofNat 64 (first' * pageSize) = BitVec.ofNat 64 (first * pageSize) :=
          Option.some.inj (congrArg Prod.fst h)
        have hlt' : first' < maxPages := by
          exact (Bitmap.firstOne_eq_some (by decide) hfirst').1
        have hpages := congrArg pageOf haddr
        rw [pageOf_ofNat hlt', pageOf_ofNat (mem_freeSet.mp hfirst).1] at hpages
        omega
  exact lt_of_le_of_ne hle hpage.1.symm

theorem allocPage_eq_none (h : s.allocPage = (none, s')) : s.freeSet = ∅ ∧ s' = s := by
  unfold allocPage at h
  split at h
  · next hnone =>
      cases h
      refine ⟨Finset.eq_empty_of_forall_notMem ?_, rfl⟩
      intro page hpage
      obtain ⟨hlt, hfree⟩ := mem_freeSet.mp hpage
      have hfalse : s.isFree page = false := Bitmap.firstOne_eq_none (by decide) hnone hlt
      rw [hfalse] at hfree
      cases hfree
  · cases h

/-- What the scan for `count` free pages knows before it looks at page `p`: the last `runLen` pages
are free and start at `runStart`, the page before them is not, and no run has been missed. -/
structure Scanned (bitmap : Bitmap 64) (count p runStart runLen : Nat) : Prop where
  start_eq : 0 < runLen → runStart + runLen = p
  short : runLen < count
  free : ∀ q < p, p ≤ q + runLen → bitmap.testBit q = true
  longest : ∀ a, (∀ q, a ≤ q → q < p → bitmap.testBit q = true) → p ≤ a + runLen
  missed : ∀ a, a + count ≤ p → ¬ ∀ q, a ≤ q → q < a + count → bitmap.testBit q = true

section Scanned

variable {bitmap : Bitmap 64} {count p runStart runLen : Nat}

theorem scanned_zero (hcount : 0 < count) : Scanned bitmap count 0 0 0 where
  start_eq := fun h => absurd h (Nat.lt_irrefl 0)
  short := hcount
  free := fun q hq => absurd hq (Nat.not_lt_zero q)
  longest := fun a _ => Nat.zero_le _
  missed := fun a ha => by omega

section

variable (h : Scanned bitmap count p runStart runLen)
include h

theorem Scanned.start_eq_succ : (if runLen = 0 then p else runStart) + (runLen + 1) = p + 1 := by
  have hstart := h.start_eq
  split <;> omega

theorem Scanned.free_succ (hp : bitmap.testBit p = true) :
    ∀ q < p + 1, p + 1 ≤ q + (runLen + 1) → bitmap.testBit q = true := by
  intro q hq hle
  rcases Nat.lt_succ_iff_lt_or_eq.mp hq with hlt | rfl
  · exact h.free q hlt (by omega)
  · exact hp

/-- A free page that does not complete a run. -/
theorem Scanned.grow (hp : bitmap.testBit p = true) (hshort : runLen + 1 ≠ count) :
    Scanned bitmap count (p + 1) (if runLen = 0 then p else runStart) (runLen + 1) := by
  have hlt : runLen + 1 < count := lt_of_le_of_ne h.short hshort
  have hlongest : ∀ a, (∀ q, a ≤ q → q < p + 1 → bitmap.testBit q = true) →
      p + 1 ≤ a + (runLen + 1) := by
    intro a ha
    have hle := h.longest a fun q hq hqp => ha q hq (by omega)
    omega
  refine ⟨fun _ => h.start_eq_succ, hlt, h.free_succ hp, hlongest, ?_⟩
  intro a ha hrun
  rcases Nat.lt_or_eq_of_le ha with hbefore | hends
  · exact h.missed a (by omega) hrun
  · -- a run that ends here would be longer than the longest one that does
    have hle := hlongest a fun q hq hqp => hrun q hq (by omega)
    omega

/-- A page in use ends the run of free pages. -/
theorem Scanned.reset (hp : ¬ bitmap.testBit p = true) :
    Scanned bitmap count (p + 1) runStart 0 := by
  refine ⟨fun h0 => absurd h0 (Nat.lt_irrefl 0), Nat.lt_of_le_of_lt (Nat.zero_le _) h.short,
    fun q hq hle => by omega, ?_, ?_⟩
  · intro a ha
    by_contra hlt
    exact hp (ha p (by omega) (by omega))
  · intro a ha hrun
    rcases Nat.lt_or_eq_of_le ha with hbefore | hends
    · exact h.missed a (by omega) hrun
    · have hshort := h.short
      exact hp (hrun p (by omega) (by omega))

/-- The scan finds the first run, and none only if there is none. -/
theorem Scanned.findRun {n : Nat} :
    match findRun bitmap count (List.range' p n) runStart runLen with
    | some start => start + count ≤ p + n ∧
        (∀ q, start ≤ q → q < start + count → bitmap.testBit q = true) ∧
        ∀ a < start, ¬ ∀ q, a ≤ q → q < a + count → bitmap.testBit q = true
    | none => ∀ a, a + count ≤ p + n →
        ¬ ∀ q, a ≤ q → q < a + count → bitmap.testBit q = true := by
  induction n generalizing p runStart runLen with
  | zero => exact h.missed
  | succ n ih =>
    have hsum : p + (n + 1) = p + 1 + n := by omega
    rw [range'_succ, hsum]
    unfold Pmm.findRun
    by_cases hp : bitmap.testBit p = true
    · rw [if_pos hp]
      have hstart := h.start_eq_succ
      by_cases hcount : runLen + 1 = count
      · rw [if_pos hcount]
        have hfree := h.free_succ hp
        refine ⟨by omega, fun q hlo hhi => hfree q (by omega) (by omega), ?_⟩
        intro a ha
        exact h.missed a (by omega)
      · rw [if_neg hcount]
        exact ih (h.grow hp hcount)
    · rw [if_neg hp]
      exact ih (h.reset hp)

end

end Scanned

/-- A run of `count` free pages. -/
def FreeRun (s : Pmm) (count start : Nat) : Prop :=
  start + count ≤ maxPages ∧ ∀ page, start ≤ page → page < start + count → s.isFree page = true

theorem findRun_eq_some {start : Nat} (hcount : 0 < count)
    (h : findRun s.bitmap count (List.range maxPages) 0 0 = some start) :
    s.FreeRun count start ∧ ∀ a < start, ¬ s.FreeRun count a := by
  have hzero : Scanned s.bitmap count 0 0 0 := scanned_zero hcount
  have hscan := hzero.findRun (n := maxPages)
  rw [← range_eq_range', h, zero_add] at hscan
  obtain ⟨hle, hfree, hleast⟩ := hscan
  exact ⟨⟨hle, hfree⟩, fun a ha hrun => hleast a ha hrun.2⟩

theorem findRun_eq_none (hcount : 0 < count)
    (h : findRun s.bitmap count (List.range maxPages) 0 0 = none) (start : Nat) :
    ¬ s.FreeRun count start := by
  have hzero : Scanned s.bitmap count 0 0 0 := scanned_zero hcount
  have hscan := hzero.findRun (n := maxPages)
  rw [← range_eq_range', h, zero_add] at hscan
  exact fun hrun => hscan start hrun.1 hrun.2

theorem allocContiguous_eq_some (h : s.allocContiguous count = (some addr, s')) :
    ∃ start, addr = BitVec.ofNat 64 (start * pageSize) ∧ 0 < count ∧
      (∀ page ∈ pageRange start (start + count), page ∈ s.freeSet) ∧
      s' = (pageRange start (start + count)).foldl Pmm.take s := by
  unfold allocContiguous at h
  split at h
  · cases h
  · next hcount =>
      split at h
      · cases h
      · next start hrun =>
          cases h
          have hpos := Nat.pos_of_ne_zero hcount
          obtain ⟨⟨hle, hfree⟩, -⟩ := findRun_eq_some hpos hrun
          refine ⟨start, rfl, hpos, ?_, rfl⟩
          intro page hpage
          obtain ⟨hlo, hhi⟩ := mem_pageRange.mp hpage
          exact mem_freeSet.mpr ⟨by omega, hfree page hlo hhi⟩

theorem allocContiguous_eq_none (h : s.allocContiguous count = (none, s')) : s' = s := by
  unfold allocContiguous at h
  split at h
  · cases h
    rfl
  · split at h
    · cases h
      rfl
    · cases h

theorem isFree_freePage (s : Pmm) (addr : U64) (j : Nat) (hj : j < maxPages) :
    (s.freePage addr).isFree j = (decide (j = pageOf addr) || s.isFree j) := by
  unfold freePage
  dsimp only
  split
  · next hge =>
      have hne : j ≠ pageOf addr := fun heq => absurd hj (not_lt.mpr (heq ▸ hge))
      simp [hne]
  · split
    · next hfree =>
        by_cases heq : j = pageOf addr
        · have hj' : s.isFree j = true := heq ▸ hfree
          simp [hj']
        · simp [heq]
    · exact Bitmap.testBit_setBit (by decide) _ _ _

theorem Counted.freePage (h : Counted s) (addr : U64) : Counted (s.freePage addr) := by
  unfold Pmm.freePage
  dsimp only
  split
  · exact h
  · next hlt =>
      split
      · exact h
      · next hused =>
          have hnot : addr.toNat / pageSize ∉ s.bitmap.ones maxPages :=
            fun hmem => hused (Bitmap.mem_ones.mp hmem).2
          unfold Counted freeSet
          rw [Bitmap.ones_setBit (by decide) (not_le.mp hlt),
            Finset.card_insert_of_notMem hnot, h, BitVec.ofNat_add]
          rfl

end Pmm

end BeastOs
