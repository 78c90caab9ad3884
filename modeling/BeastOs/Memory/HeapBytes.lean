import BeastOs.Memory.HeapSafety

/-!
# Where the bytes of the heap go

The free blocks and the live allocations are disjoint parts of the region, but not all of it: the
padding in front of an aligned allocation, and a remainder too small for a block, belong to neither,
and `deallocate`, which only has the layout, gives back neither. `wasted` says how much an
allocation loses, from the blocks there are when it is made; what is lost stays lost, so that live,
free and wasted bytes add up to the region in every run (`total_of_run`).

The layouts are those `Layout` allows. Sums that exceed the address space do not matter then: the
block concerned is found not to fit.
-/

namespace BeastOs.HeapAllocator

open List Lib

/-! ## Layouts -/

/-- What `Layout` requires: the size rounded up to the alignment is at most `isize::MAX`. -/
def Valid (layout : Layout) : Prop := layout.size.toNat + layout.align.toNat ≤ 2 ^ 63

instance (layout : Layout) : Decidable (Valid layout) := inferInstanceAs (Decidable (_ ≤ _))

theorem toNat_max (a b : U64) : (max a b).toNat = Max.max a.toNat b.toNat := by
  unfold max
  split
  · next hle => exact (max_eq_right hle).symm
  · next hlt => exact (max_eq_left (le_of_lt (Nat.lt_of_not_le hlt))).symm

variable {r : Region} {s s' : State} {c : Call} {blocks : List FreeBlock} {layout : Layout}
  {x : Allocation} {mem : U64 → U64} {ptr : U64}

theorem Valid.rounds (h : Valid layout) : Rounds layout := by
  unfold Valid at h
  unfold Rounds blockAlign
  rw [toNat_max, toNat_max, show sizeOfBlock.toNat = 16 from rfl,
    show alignOfBlock.toNat = 8 from rfl]
  omega

/-- The padding for an alignment and the rounded size do not wrap around together. -/
theorem Valid.size_add_align (h : Valid layout) : (blockAlign layout).toNat ≤ 2 ^ 63 ∧
      (blockSize layout).toNat + (blockAlign layout).toNat ≤ 2 ^ 64 := by
  obtain ⟨⟨k, hk⟩, -, -⟩ := blockAlign_spec layout
  obtain ⟨hdvd, hle, hge⟩ := alignUp_spec hk h.rounds
  have halign : (blockAlign layout).toNat = Max.max layout.align.toNat 8 := toNat_max _ _
  have hsize : (max layout.size sizeOfBlock).toNat = Max.max layout.size.toNat 16 := toNat_max _ _
  unfold Valid at h
  change (blockAlign layout).toNat ∣ (blockSize layout).toNat at hdvd
  change _ ≤ (blockSize layout).toNat at hle
  change (blockSize layout).toNat ≤ _ at hge
  refine ⟨by omega, ?_⟩
  by_cases hsmall : layout.size.toNat < 16 ∧ 16 ≤ (blockAlign layout).toNat
  · -- a small request takes one unit of the alignment
    have hunit : (blockSize layout).toNat ≤ (blockAlign layout).toNat := by
      by_contra hlt
      have hsub := Nat.le_of_dvd (by omega) (Nat.dvd_sub hdvd (Nat.dvd_refl _))
      omega
    omega
  · omega

/-- A block behind whose address the alignment wraps around is too small. -/
theorem Valid.searchSound (h : Valid layout) (hwf : ∀ b ∈ blocks, b.WellFormed) :
    SearchSound (blockAlign layout) (blockSize layout) blocks := by
  obtain ⟨⟨k, hk⟩, -, -⟩ := blockAlign_spec layout
  obtain ⟨halign, hsum⟩ := h.size_add_align
  have hpos := h.rounds.request.size_ge
  induction blocks with
  | nil => trivial
  | cons b blocks ih =>
    refine ⟨fun hfit => ?_, fun _ => ih fun c hc => hwf c (mem_cons_of_mem _ hc)⟩
    have hend := (hwf b mem_cons_self).end_le
    by_cases haddr : b.addr.toNat + ((blockAlign layout).toNat - 1) < 2 ^ 64
    · obtain ⟨-, hle, hge⟩ := alignUp_spec hk haddr
      have hadj : (b.adjustment (blockAlign layout)).toNat =
          (alignUp b.addr (blockAlign layout)).toNat - b.addr.toNat :=
        BitVec.toNat_sub_of_le hle
      exact ⟨haddr, by omega⟩
    · exfalso
      have hzero : alignUp b.addr (blockAlign layout) = 0 := alignUp_eq_zero hk (by omega)
      have hadj : (b.adjustment (blockAlign layout)).toNat = 2 ^ 64 - b.addr.toNat := by
        unfold FreeBlock.adjustment
        rw [hzero, BitVec.toNat_sub, show (0 : U64).toNat = 0 from rfl, add_zero,
          Nat.mod_eq_of_lt]
        omega
      have hfit : (blockSize layout + b.adjustment (blockAlign layout)).toNat ≤ b.size.toNat :=
        hfit
      rw [BitVec.toNat_add, hadj, Nat.mod_eq_of_lt (by omega)] at hfit
      omega

/-! ## Calls -/

/-- One call, as in `Step`, with any layout there can be. -/
def CallStep (r : Region) (s : State) (c : Call) (s' : State) : Prop :=
  match c with
  | .allocate layout ptr => Valid layout ∧ s.heap.allocate layout = some (ptr, s'.heap) ∧
      s'.live = if ptr = 0 then s.live else ⟨ptr, layout⟩ :: s.live
  | .deallocate ptr layout => Step r s (.deallocate ptr layout) s'
  | .write mem => Step r s (.write mem) s'

def freeBytes (blocks : List FreeBlock) : Nat := (blocks.map (·.size.toNat)).sum

/-- The rounded sizes of the live allocations. -/
def liveBytes (live : List Allocation) : Nat := (live.map fun x => (blockSize x.layout).toNat).sum

/-- What a call wastes when these are the free blocks. -/
def Call.waste (blocks : List FreeBlock) : Call → Nat
  | .allocate layout _ => wasted (blockAlign layout) (blockSize layout) blocks
  | .deallocate .. | .write _ => 0

/-- A call takes what it wastes from the free and the live bytes. -/
theorem Inv.step_total (h : Inv r s blocks) (hstep : CallStep r s c s') :
    ∃ blocks', Inv r s' blocks' ∧
      freeBytes blocks' + liveBytes s'.live + c.waste blocks =
        freeBytes blocks + liveBytes s.live := by
  obtain ⟨h', live'⟩ := s'
  cases c with
  | allocate layout ptr =>
    obtain ⟨hvalid, halloc, hlive⟩ := hstep
    subst hlive
    rcases h.allocate_spec hvalid.rounds (hvalid.searchSound h.separated.wellFormed) with
      ⟨hnull, hwaste⟩ | ⟨ptr', h'', pre, b, rest, post, hsome, htook⟩
    · rw [hnull] at halloc
      cases halloc
      refine ⟨blocks, h, ?_⟩
      show _ + wasted _ _ blocks = _
      rw [hwaste]
      rfl
    · rw [hsome] at halloc
      cases halloc
      rw [if_neg htook.carved.ptr_ne]
      refine ⟨_, h.took hvalid.rounds htook.toTook, ?_⟩
      have hsizes := htook.sizes
      have hsplit : freeBytes blocks = freeBytes pre + b.size.toNat + freeBytes post := by
        rw [htook.split]
        simp [freeBytes, add_assoc]
      have hleft : freeBytes (pre ++ (rest ++ post)) =
          freeBytes pre + (rest.map (·.size.toNat)).sum + freeBytes post := by
        simp [freeBytes, add_assoc]
      simp only [liveBytes, map_cons, sum_cons, Call.waste]
      omega
  | deallocate ptr layout =>
    obtain ⟨hmem, hheap, hlive⟩ := hstep
    subst hheap hlive
    refine ⟨_, h.deallocate hmem, ?_⟩
    have hperm := ((perm_cons_erase hmem).map
      fun x : Allocation => (blockSize x.layout).toNat).sum_eq
    simp only [liveBytes, freeBytes, Allocation.block, map_cons, sum_cons, Call.waste] at hperm ⊢
    omega
  | write mem =>
    obtain ⟨hs', hmem⟩ := hstep
    cases hs'
    exact ⟨_, h.write hmem, rfl⟩

/-! ## Runs -/

/-- The call of a transition wastes nothing, given the free blocks before it. -/
def WastesNothing (t : Transition State Call) : Prop :=
  ∀ blocks, FreeList t.src.heap.mem t.src.heap.head blocks → t.label.waste blocks = 0

/-- Free and live bytes are the region's, and all of the region is free when nothing is live. -/
def Conserves (r : Region) (s : State) : Prop :=
  ∃ blocks, FreeList s.heap.mem s.heap.head blocks ∧
    freeBytes blocks + liveBytes s.live = r.size.toNat ∧
    (s.live = [] → ∀ n ∈ r.bytes, ∃ b ∈ blocks, n ∈ b.bytes)

/-- Live, free and wasted bytes add up to the region. -/
theorem total_of_run {τ : List (Transition State Call)} {blocks₀ : List FreeBlock}
    (h₀ : Inv r (State.start r mem) blocks₀) (hrun : Run (CallStep r) (State.start r mem) τ s) :
    ∃ blocks n, Inv r s blocks ∧ freeBytes blocks + liveBytes s.live + n = freeBytes blocks₀ ∧
      (n = 0 ↔ ∀ t ∈ τ, WastesNothing t) := by
  induction hrun with
  | nil => exact ⟨blocks₀, 0, h₀, rfl, by simp⟩
  | @snoc τ m c s' _ hstep ih =>
    obtain ⟨blocks, n, hm, hsum, hiff⟩ := ih
    obtain ⟨blocks', hs', hsum'⟩ := hm.step_total hstep
    refine ⟨blocks', n + c.waste blocks, hs', by omega, ?_⟩
    have hlast : WastesNothing ⟨m, c, s'⟩ ↔ c.waste blocks = 0 := by
      refine ⟨fun hnone => hnone blocks hm.freeList, fun hzero blocks₁ hlist => ?_⟩
      rw [hlist.unique hm.freeList]
      exact hzero
    rw [Nat.add_eq_zero_iff, hiff, ← hlast]
    simp only [mem_append, mem_singleton, or_imp, forall_and, forall_eq]

/-- When nothing is live and nothing was wasted, the free blocks are all of the region. -/
theorem Inv.covers (h : Inv r s blocks) (hsum : freeBytes blocks = r.size.toNat) {n : Nat}
    (hn : n ∈ r.bytes) : ∃ b ∈ blocks, n ∈ b.bytes := by
  have hcard : (blocks.map (·.bytes)).map Finset.card = blocks.map (·.size.toNat) := by
    rw [map_map]
    refine map_congr_left fun b _ => ?_
    show b.bytes.card = b.size.toNat
    unfold FreeBlock.bytes bytes
    rw [Nat.card_Ico, Nat.add_sub_cancel_left]
  have hregion : r.bytes.card = r.size.toNat := by
    unfold Region.bytes bytes
    rw [Nat.card_Ico, Nat.add_sub_cancel_left]
  have hle : r.bytes.card ≤ ((blocks.map (·.bytes)).map Finset.card).sum := by
    rw [hregion, hcard]
    exact hsum.ge
  have hsub : ∀ u ∈ blocks.map (·.bytes), u ⊆ r.bytes := by simpa using h.separated.inside
  obtain ⟨u, hu, hmem⟩ := exists_mem_of_card_le_sum
    (pairwise_append.mp h.separated.disjoint).2.1 hsub hle hn
  obtain ⟨b, hb, rfl⟩ := mem_map.mp hu
  exact ⟨b, hb, hmem⟩

/-- **Which runs lose no bytes.** Those in which every allocation is made in a block that starts at
a multiple of its alignment and is used up, or has room for another block behind the allocation. A
region at address 0 is lost as a whole, since its only block cannot be told from `None`. -/
theorem heap_conserves_iff {τ : List (Transition State Call)}
    (hrun : Run (CallStep r) (State.start r mem) τ s) :
    Conserves r s ↔ r.start ≠ 0 ∧ ∀ t ∈ τ, WastesNothing t := by
  have hsize := r.size_ge
  by_cases hstart : r.start = 0
  · refine iff_of_false ?_ fun hand => hand.1 hstart
    rintro ⟨blocks, hlist, hsum, -⟩
    obtain ⟨blocks', n, h, htotal, -⟩ := total_of_run (inv_start_zero hstart mem) hrun
    rw [hlist.unique h.freeList] at hsum
    have hzero : freeBytes [] = 0 := rfl
    omega
  · obtain ⟨blocks, n, h, htotal, hiff⟩ := total_of_run (inv_start hstart mem) hrun
    have hregion : freeBytes [⟨r.start, r.size⟩] = r.size.toNat := by simp [freeBytes]
    rw [← hiff]
    constructor
    · rintro ⟨blocks', hlist, hsum, -⟩
      rw [hlist.unique h.freeList] at hsum
      exact ⟨hstart, by omega⟩
    · rintro ⟨-, rfl⟩
      refine ⟨blocks, h.freeList, htotal, fun hlive m hm => ?_⟩
      rw [hlive] at htotal
      exact h.covers htotal hm

/-- A request for 64 bytes. -/
def evenLayout : Layout := ⟨64, 8, 3, rfl⟩

theorem wastesNothing_of_freeList {t : Transition State Call}
    (hlist : FreeList t.src.heap.mem t.src.heap.head blocks) (hzero : t.label.waste blocks = 0) :
    WastesNothing t := by
  intro blocks' hlist'
  rw [hlist'.unique hlist]
  exact hzero

/-- An allocation from a heap without other allocations that is given back at once. -/
theorem run_allocate_deallocate {r : Region} {h h' : HeapAllocator} {layout : Layout} {ptr : U64}
    (hvalid : Valid layout) (halloc : h.allocate layout = some (ptr, h')) (hptr : ptr ≠ 0) :
    Run (CallStep r) ⟨h, []⟩ [⟨⟨h, []⟩, .allocate layout ptr, ⟨h', [⟨ptr, layout⟩]⟩⟩,
      ⟨⟨h', [⟨ptr, layout⟩]⟩, .deallocate ptr layout, ⟨h'.deallocate ptr layout, []⟩⟩]
      ⟨h'.deallocate ptr layout, []⟩ := by
  refine .cons ⟨hvalid, halloc, (if_neg hptr).symm⟩ (.single ?_)
  exact ⟨mem_singleton_self _, rfl, (erase_cons_head _ _).symm⟩

/-- Allocating 64 bytes and giving them back: there are two blocks then, and they are all of the
region. -/
theorem heap_conserves_evenLayout : ∃ τ s,
    Run (CallStep smallRegion) (State.start smallRegion fun _ => 0) τ s ∧ s.live = [] ∧
      Conserves smallRegion s := by
  obtain ⟨h', halloc⟩ : ∃ h', (State.start smallRegion fun _ => 0).heap.allocate evenLayout =
      some (0x1008, h') := ⟨_, rfl⟩
  have hrun := run_allocate_deallocate (r := smallRegion) (by decide) halloc (by decide)
  refine ⟨_, _, hrun, rfl, (heap_conserves_iff hrun).mpr ⟨by decide, ?_⟩⟩
  intro t ht
  simp only [mem_cons, not_mem_nil, or_false] at ht
  rcases ht with rfl | rfl
  · refine wastesNothing_of_freeList (inv_start (by decide) _).freeList ?_
    show wasted (blockAlign evenLayout) (blockSize evenLayout) [⟨0x1008, 256⟩] = 0
    decide
  · exact fun _ _ => rfl

/-- The 56 bytes in front of an allocation at a multiple of 64 are gone when it is given back. -/
theorem heap_loses_smallLayout : ∃ τ s,
    Run (CallStep smallRegion) (State.start smallRegion fun _ => 0) τ s ∧ s.live = [] ∧
      FreeList s.heap.mem s.heap.head [⟨0x1040, 64⟩, ⟨0x1080, 136⟩] ∧
      ¬ Conserves smallRegion s := by
  obtain ⟨h', halloc, hlist⟩ : ∃ h', (State.start smallRegion fun _ => 0).heap.allocate
      smallLayout = some (0x1040, h') ∧
      FreeList (h'.deallocate 0x1040 smallLayout).mem 0x1040
        [⟨0x1040, 64⟩, ⟨0x1080, 136⟩] :=
    ⟨_, rfl, .cons (by decide) (.cons (by decide) .nil)⟩
  have hrun := run_allocate_deallocate (r := smallRegion) (by decide) halloc (by decide)
  refine ⟨_, _, hrun, rfl, hlist, ?_⟩
  rintro ⟨blocks, hlist', hsum, -⟩
  rw [hlist'.unique hlist] at hsum
  have hne : freeBytes [⟨0x1040, 64⟩, ⟨0x1080, 136⟩] + liveBytes [] ≠ smallRegion.size.toNat := by
    decide
  exact hne hsum

end BeastOs.HeapAllocator
