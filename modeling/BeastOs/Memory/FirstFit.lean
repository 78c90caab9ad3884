import Mathlib.Order.Bounds.Basic
import BeastOs.Memory.Pmm

/-!
# Contiguous allocation

`alloc_contiguous` of `pmm.rs` takes the first run of free pages that is long enough
(`allocContiguous_firstFit`), and `alloc_page`, which looks at whole words of the bitmap, does the
same as `alloc_contiguous(1)`, which looks at single bits.

Nothing is assumed about the bitmap or the counter.
-/

namespace BeastOs.Pmm

open Lib

variable {s : Pmm} {count start : Nat}

theorem freePages_take_foldl (pages : List Nat) (s : Pmm) :
    (pages.foldl take s).freePages = s.freePages - BitVec.ofNat 64 pages.length := by
  induction pages generalizing s with
  | nil => simp
  | cons page pages ih =>
    rw [List.foldl_cons, ih, List.length_cons, BitVec.ofNat_add]
    show s.freePages - 1#64 - _ = s.freePages - (_ + 1#64)
    bv_omega

theorem totalPages_take_foldl (pages : List Nat) (s : Pmm) :
    (pages.foldl take s).totalPages = s.totalPages := by
  induction pages generalizing s with
  | nil => rfl
  | cons page pages ih => exact ih (s.take page)

theorem toNat_address (hstart : start < maxPages) :
    (BitVec.ofNat 64 (start * pageSize)).toNat = 4096 * start := by
  unfold maxPages at hstart
  unfold pageSize
  rw [BitVec.toNat_ofNat, Nat.mod_eq_of_lt (by omega), mul_comm]

/-- The state after the run of `count` pages from `start` on has been taken. -/
structure TookRun (s : Pmm) (count start : Nat) (s' : Pmm) : Prop where
  isFree_eq : ∀ page, s'.isFree page =
    (!decide (start ≤ page ∧ page < start + count) && s.isFree page)
  freePages_eq : s'.freePages = s.freePages - BitVec.ofNat 64 count
  totalPages_eq : s'.totalPages = s.totalPages

theorem tookRun_foldl (s : Pmm) (count start : Nat) :
    TookRun s count start ((pageRange start (start + count)).foldl take s) where
  isFree_eq page := by
    rw [isFree_take_foldl]
    simp only [mem_pageRange]
  freePages_eq := by
    rw [freePages_take_foldl]
    unfold pageRange
    rw [List.length_range', Nat.add_sub_cancel_left]
  totalPages_eq := totalPages_take_foldl _ s

/-- **Contiguous allocation is first fit.** The first run of `count` free pages is taken, and
nothing happens exactly if there is none. -/
theorem allocContiguous_firstFit (s : Pmm) (hcount : 1 ≤ count) :
    (∃ start addr s', IsLeast { page | s.FreeRun count page } start ∧
        s.allocContiguous count = (some addr, s') ∧ addr.toNat = 4096 * start ∧
        TookRun s count start s') ∨
      (∀ start, ¬ s.FreeRun count start) ∧ s.allocContiguous count = (none, s) := by
  unfold allocContiguous
  rw [if_neg (by omega)]
  cases hrun : findRun s.bitmap count (List.range maxPages) 0 0 with
  | none => exact .inr ⟨findRun_eq_none hcount hrun, rfl⟩
  | some start =>
    obtain ⟨hfree, hleast⟩ := findRun_eq_some hcount hrun
    have hlt : start < maxPages := by
      have hle := hfree.1
      omega
    refine .inl ⟨start, _, _, ⟨hfree, ?_⟩, rfl, toNat_address hlt, tookRun_foldl s count start⟩
    intro a ha
    by_contra hbefore
    exact hleast a (not_le.mp hbefore) ha

/-- Free pages 1, 2, 4, 5 and 6, with a counter that is wrong. -/
def fivePages : Pmm := ⟨fun i => if i = 0 then 0x76 else 0, 0, 0⟩

/-- Three pages are found behind the two that are not enough. -/
theorem allocContiguous_fivePages :
    ∃ addr s', fivePages.allocContiguous 3 = (some addr, s') ∧ addr = 0x4000 ∧
      TookRun fivePages 3 4 s' := by
  have hfour : fivePages.FreeRun 3 4 := by
    refine ⟨by decide, fun page hlo hhi => ?_⟩
    obtain rfl | rfl | rfl : page = 4 ∨ page = 5 ∨ page = 6 := by omega
    all_goals decide
  rcases allocContiguous_firstFit fivePages (show 1 ≤ 3 by decide) with
    ⟨start, addr, s', ⟨hfree, hleast⟩, halloc, haddr, htook⟩ | ⟨hnone, -⟩
  · have hle : start ≤ 4 := hleast hfour
    -- each smaller start has a page in use among the three
    have hstart : start = 4 := by
      by_contra hne
      have hbit : fivePages.isFree 3 = true ∨ fivePages.isFree 0 = true := by
        rcases Nat.eq_zero_or_pos start with rfl | hpos
        · exact .inr (hfree.2 0 (by omega) (by omega))
        · exact .inl (hfree.2 3 (by omega) (by omega))
      revert hbit
      decide
    subst hstart
    exact ⟨addr, s', halloc, BitVec.eq_of_toNat_eq haddr, htook⟩
  · exact absurd hfour (hnone 4)

/-- A run of one page is a free page. -/
theorem freeRun_one : s.FreeRun 1 start ↔ start ∈ s.freeSet := by
  rw [mem_freeSet]
  constructor
  · rintro ⟨hle, hfree⟩
    exact ⟨hle, hfree start (le_refl _) (Nat.lt_succ_self _)⟩
  · rintro ⟨hlt, hfree⟩
    refine ⟨hlt, fun page hlo hhi => ?_⟩
    obtain rfl : page = start := by omega
    exact hfree

/-- **`alloc_page` is `alloc_contiguous(1)`.** -/
theorem allocPage_eq_allocContiguous (s : Pmm) : s.allocPage = s.allocContiguous 1 := by
  unfold allocContiguous
  rw [if_neg (by decide)]
  cases hrun : findRun s.bitmap 1 (List.range maxPages) 0 0 with
  | none =>
    cases halloc : s.allocPage with
    | mk result s' =>
      cases result with
      | none => rw [(allocPage_eq_none halloc).2]
      | some addr =>
        obtain ⟨page, hpage, -⟩ := allocPage_eq_some halloc
        exact absurd (freeRun_one.mpr hpage) (findRun_eq_none (by decide) hrun page)
  | some start =>
    obtain ⟨hfree, hleast⟩ := findRun_eq_some (by decide) hrun
    have hstart := freeRun_one.mp hfree
    cases halloc : s.allocPage with
    | mk result s' =>
      cases result with
      | none =>
        rw [(allocPage_eq_none halloc).1] at hstart
        cases hstart
      | some addr =>
        have hlow := allocPage_lt halloc
        obtain ⟨page, hpage, rfl, rfl⟩ := allocPage_eq_some halloc
        rw [pageOf_ofNat (mem_freeSet.mp hpage).1] at hlow
        -- both take the lowest free page
        have heq : page = start := by
          by_contra hne
          have hlt := hlow start (by
            rw [freeSet_take, Finset.mem_erase]
            exact ⟨fun h => hne h.symm, hstart⟩)
          exact hleast page hlt (freeRun_one.mpr hpage)
        subst heq
        simp [pageRange]

end BeastOs.Pmm
