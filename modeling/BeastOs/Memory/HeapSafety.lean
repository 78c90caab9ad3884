import BeastOs.Lib.Runs
import BeastOs.Memory.Heap

/-!
# Heap safety

Runs of `allocate` and `deallocate` after `init`. A ledger records the live allocations; callers
give back live pointers with their own layout, and write what they like into live allocations and
into memory outside the heap.

In every such run the live allocations and the free blocks are pairwise disjoint parts of the
region. So no header of the free list is ever in a live allocation, and a caller's writes cannot
corrupt it.
-/

namespace BeastOs.HeapAllocator

open Lib
open List hiding Disjoint

/-- The memory handed to `init`. -/
structure Region where
  start : U64
  size : U64
  aligned : 8 ∣ start.toNat
  size_ge : 16 ≤ size.toNat
  end_le : start.toNat + size.toNat ≤ 2 ^ 64

def Region.bytes (r : Region) : Finset Nat := HeapAllocator.bytes r.start r.size

structure Allocation where
  ptr : U64
  layout : Layout
  deriving DecidableEq

/-- The block that an allocation becomes when it is given back. -/
def Allocation.block (x : Allocation) : FreeBlock := ⟨x.ptr, blockSize x.layout⟩

/-- The bytes of an allocation, up to its rounded size. -/
def Allocation.bytes (x : Allocation) : Finset Nat := x.block.bytes

structure State where
  heap : HeapAllocator
  live : List Allocation

def State.start (r : Region) (mem : U64 → U64) : State := ⟨init mem r.start r.size, []⟩

inductive Call where
  | allocate (layout : Layout) (ptr : U64)
  | deallocate (ptr : U64) (layout : Layout)
  /-- callers write to memory -/
  | write (mem : U64 → U64)

/-- Rounding the size of the layout does not exceed the address space. -/
def Rounds (layout : Layout) : Prop :=
  (max layout.size sizeOfBlock).toNat + ((blockAlign layout).toNat - 1) < 2 ^ 64

instance (layout : Layout) : Decidable (Rounds layout) := inferInstanceAs (Decidable (_ < _))

/-- No addition of `allocate(layout)` exceeds the address space. -/
def AddressFits (h : HeapAllocator) (layout : Layout) : Prop :=
  Rounds layout ∧ ∀ blocks, FreeList h.mem h.head blocks →
    SearchFits (blockAlign layout) (blockSize layout) blocks

/-- One call; `allocate` carries the pointer it returned, 0 for null. -/
def Step (r : Region) (s : State) (c : Call) (s' : State) : Prop :=
  match c with
  | .allocate layout ptr => AddressFits s.heap layout ∧
      s.heap.allocate layout = some (ptr, s'.heap) ∧
      s'.live = if ptr = 0 then s.live else ⟨ptr, layout⟩ :: s.live
  | .deallocate ptr layout => ⟨ptr, layout⟩ ∈ s.live ∧
      s'.heap = s.heap.deallocate ptr layout ∧ s'.live = s.live.erase ⟨ptr, layout⟩
  | .write mem => s' = { s with heap := { s.heap with mem } } ∧
      ∀ w : U64, 8 ∣ w.toNat → w.toNat ∈ r.bytes → (∀ x ∈ s.live, w.toNat ∉ x.bytes) →
        mem w = s.heap.mem w

/-- The live allocations and the free blocks are disjoint parts of the region. -/
structure Separated (r : Region) (live : List Allocation) (blocks : List FreeBlock) : Prop where
  live_aligned : ∀ x ∈ live, x.layout.align.toNat ∣ x.ptr.toNat
  live_inside : ∀ x ∈ live, x.bytes ⊆ r.bytes
  wellFormed : ∀ b ∈ blocks, b.WellFormed
  inside : ∀ b ∈ blocks, b.bytes ⊆ r.bytes
  disjoint : (live.map (·.bytes) ++ blocks.map (·.bytes)).Pairwise Disjoint

/-- What holds after every call. A live allocation can be given back as a block. -/
structure Inv (r : Region) (s : State) (blocks : List FreeBlock) : Prop where
  freeList : FreeList s.heap.mem s.heap.head blocks
  separated : Separated r s.live blocks
  givesBack : ∀ x ∈ s.live, x.block.WellFormed ∧ x.ptr ≠ 0

def Safe (r : Region) (s : State) : Prop := ∃ blocks, Inv r s blocks

variable {r : Region} {s s' : State} {c : Call} {blocks pre rest post : List FreeBlock}
  {layout : Layout} {x : Allocation} {mem : U64 → U64} {ptr : U64} {b : FreeBlock}
  {live : List Allocation}

/-! ## Layouts -/

theorem le_max_right (a b : U64) : b.toNat ≤ (max a b).toNat := by
  unfold max
  split
  · exact le_rfl
  · next h => exact le_of_lt (Nat.lt_of_not_le h)

/-- The alignment of a block is a power of two that both alignments divide. -/
theorem blockAlign_spec (layout : Layout) :
    (∃ k, (blockAlign layout).toNat = 2 ^ k) ∧ 8 ∣ (blockAlign layout).toNat ∧
      layout.align.toNat ∣ (blockAlign layout).toNat := by
  obtain ⟨k, hk⟩ := layout.align_eq
  unfold blockAlign max
  split
  · next h =>
      have hle : 2 ^ k ≤ 2 ^ 3 := hk ▸ h
      refine ⟨⟨3, rfl⟩, Nat.dvd_refl 8, ?_⟩
      rw [hk]
      exact Nat.pow_dvd_pow 2 ((Nat.pow_le_pow_iff_right (by decide)).mp hle)
  · next h =>
      have hlt : 2 ^ 3 < 2 ^ k := hk ▸ Nat.lt_of_not_le h
      refine ⟨⟨k, hk⟩, ?_, Nat.dvd_refl _⟩
      rw [hk]
      exact Nat.pow_dvd_pow 2 (le_of_lt ((Nat.pow_lt_pow_iff_right (by decide)).mp hlt))

theorem Rounds.request (h : Rounds layout) : Request (blockAlign layout) (blockSize layout) := by
  obtain ⟨⟨k, hk⟩, hdvd, -⟩ := blockAlign_spec layout
  obtain ⟨hsize, hle, -⟩ := alignUp_spec hk h
  exact ⟨⟨k, hk⟩, hdvd, hdvd.trans hsize, le_trans (le_max_right _ sizeOfBlock) hle⟩

/-! ## Steps -/

/-- The free list never has more blocks than the search looks at. -/
theorem Separated.length_lt (h : Separated r s.live blocks) : blocks.length < maxBlocks + 1 := by
  have hcard : r.bytes.card = r.size.toNat := by
    unfold Region.bytes bytes
    rw [Nat.card_Ico, Nat.add_sub_cancel_left]
  have hmul : (blocks.map (·.bytes)).length * 16 ≤ r.bytes.card := by
    refine mul_length_le_card (pairwise_append.mp h.disjoint).2.1 ?_ ?_
    · simpa using h.inside
    · intro u hu
      obtain ⟨b, hb, rfl⟩ := mem_map.mp hu
      have hsize := (h.wellFormed b hb).size_ge
      unfold FreeBlock.bytes bytes
      rw [Nat.card_Ico, Nat.add_sub_cancel_left]
      exact hsize
  have hlt := r.size.isLt
  rw [length_map, hcard] at hmul
  unfold maxBlocks
  omega

/-- What a call of `allocate` does. -/
theorem Inv.allocate_spec (h : Inv r s blocks) (hround : Rounds layout)
    (hsound : SearchSound (blockAlign layout) (blockSize layout) blocks) :
    (s.heap.allocate layout = some (0, s.heap) ∧
        wasted (blockAlign layout) (blockSize layout) blocks = 0) ∨
      ∃ ptr h' pre b rest post, s.heap.allocate layout = some (ptr, h') ∧
        TookSized (blockAlign layout) (blockSize layout) .head blocks s.heap ptr h' pre b rest
          post := by
  have hout : Link.head.Outside blocks := by
    intro c hc
    cases hc
  have hlist : FreeList s.heap.mem (s.heap.load .head) blocks := h.freeList
  exact search_spec hround.request h.separated.length_lt hlist h.separated.wellFormed
    (pairwise_append.mp h.separated.disjoint).2.1 hout hsound

/-- The request fits the address space. -/
theorem Inv.allocate_of_fits (h : Inv r s blocks) (hfits : AddressFits s.heap layout) :
    s.heap.allocate layout = some (0, s.heap) ∨
      ∃ ptr h' pre b rest post, s.heap.allocate layout = some (ptr, h') ∧
        Took (blockAlign layout) (blockSize layout) .head blocks s.heap ptr h' pre b rest post := by
  obtain ⟨hround, hsearch⟩ := hfits
  rcases h.allocate_spec hround (hsearch blocks h.freeList).sound with
    ⟨hnull, -⟩ | ⟨ptr, h', pre, b, rest, post, hsome, htook⟩
  · exact .inl hnull
  · exact .inr ⟨ptr, h', pre, b, rest, post, hsome, htook.toTook⟩

/-- What is carved out of a block is a block, if it is as large and as aligned as one. -/
theorem Carved.wellFormed {rest : List FreeBlock} {align size : U64} (h : Carved b ptr size rest)
    (hb : b.WellFormed) (hreq : Request align size) (haligned : align.toNat ∣ ptr.toNat) :
    FreeBlock.WellFormed ⟨ptr, size⟩ := by
  have hge := hreq.size_ge
  refine ⟨hreq.align_dvd.trans haligned, hge, ?_⟩
  have hlast : ptr.toNat + size.toNat - 1 ∈ b.bytes := h.subset (mem_bytes.mpr (by omega))
  have hend := hb.end_le
  rw [FreeBlock.mem_bytes] at hlast
  dsimp only
  omega

/-- The bytes of a block are cut into those of an allocation and those of what is left. -/
theorem Separated.disjoint_carve (h : Separated r live (pre ++ b :: post))
    (hcarved : Carved b x.ptr (blockSize x.layout) rest) :
    ((x :: live).map (·.bytes) ++ (pre ++ (rest ++ post)).map (·.bytes)).Pairwise Disjoint := by
  have hfirst : (b.bytes :: (live.map (·.bytes) ++ pre.map (·.bytes) ++
      post.map (·.bytes))).Pairwise Disjoint := by
    refine pairwise_disjoint_perm ?_ h.disjoint
    refine perm_iff_count.mpr fun u => ?_
    simp only [map_append, map_cons, count_append, count_cons]
    omega
  refine pairwise_disjoint_perm ?_ (pairwise_disjoint_cut hfirst hcarved.disjoint ?_)
  · refine perm_iff_count.mpr fun u => ?_
    simp only [map_append, map_cons, cons_append, count_append,
      count_cons, Allocation.bytes, Allocation.block, FreeBlock.bytes]
    omega
  · intro u hu
    rcases mem_cons.mp hu with rfl | hu
    · exact hcarved.subset
    · obtain ⟨c, hc, rfl⟩ := mem_map.mp hu
      exact hcarved.rest_subset c hc

/-- An allocation is carved out of a block. -/
theorem Separated.carve (h : Separated r live (pre ++ b :: post))
    (haligned : x.layout.align.toNat ∣ x.ptr.toNat)
    (hcarved : Carved b x.ptr (blockSize x.layout) rest) :
    Separated r (x :: live) (pre ++ (rest ++ post)) := by
  have hb : b ∈ pre ++ b :: post := by simp
  refine ⟨?_, ?_, ?_, ?_, h.disjoint_carve hcarved⟩
  · intro y hy
    rcases mem_cons.mp hy with rfl | hy
    · exact haligned
    · exact h.live_aligned y hy
  · intro y hy
    rcases mem_cons.mp hy with rfl | hy
    · exact hcarved.subset.trans (h.inside b hb)
    · exact h.live_inside y hy
  · intro c hc
    simp only [mem_append] at hc
    rcases hc with hc | hc | hc
    · exact h.wellFormed c (by simp [hc])
    · exact hcarved.rest_wellFormed c hc
    · exact h.wellFormed c (by simp [hc])
  · intro c hc
    simp only [mem_append] at hc
    rcases hc with hc | hc | hc
    · exact h.inside c (by simp [hc])
    · exact (hcarved.rest_subset c hc).trans (h.inside b hb)
    · exact h.inside c (by simp [hc])

theorem Inv.took {h' : HeapAllocator} (h : Inv r s blocks) (hround : Rounds layout)
    (htook : Took (blockAlign layout) (blockSize layout) .head blocks s.heap ptr h' pre b rest
      post) :
    Inv r ⟨h', ⟨ptr, layout⟩ :: s.live⟩ (pre ++ (rest ++ post)) := by
  have hsep := h.separated
  rw [htook.split] at hsep
  have haligned := (blockAlign_spec layout).2.2.trans htook.aligned
  refine ⟨htook.freeList, hsep.carve haligned htook.carved, ?_⟩
  intro x hx
  rcases mem_cons.mp hx with rfl | hx
  · have hb := hsep.wellFormed b (by simp)
    exact ⟨htook.carved.wellFormed hb hround.request htook.aligned, htook.carved.ptr_ne⟩
  · exact h.givesBack x hx

/-- A live allocation shares no byte with a free block. -/
theorem Separated.live_disjoint (h : Separated r s.live blocks) (hx : x ∈ s.live)
    (hb : b ∈ blocks) : Disjoint x.bytes b.bytes :=
  (pairwise_append.mp h.disjoint).2.2 _ (mem_map_of_mem hx) _ (mem_map_of_mem hb)

theorem Inv.deallocate (h : Inv r s blocks) (hx : x ∈ s.live) :
    Inv r ⟨s.heap.deallocate x.ptr x.layout, s.live.erase x⟩ (x.block :: blocks) := by
  obtain ⟨hwf, hne⟩ := h.givesBack x hx
  have hsep := h.separated
  have hsub : ∀ y ∈ s.live.erase x, y ∈ s.live := fun y hy => mem_of_mem_erase hy
  refine ⟨?_, ⟨?_, ?_, ?_, ?_, ?_⟩, ?_⟩
  · exact h.freeList.writeBlock hsep.wellFormed hwf hne fun b hb => hsep.live_disjoint hx hb
  · exact fun y hy => hsep.live_aligned y (hsub y hy)
  · exact fun y hy => hsep.live_inside y (hsub y hy)
  · intro b hb
    rcases mem_cons.mp hb with rfl | hb
    · exact hwf
    · exact hsep.wellFormed b hb
  · intro b hb
    rcases mem_cons.mp hb with rfl | hb
    · exact hsep.live_inside x hx
    · exact hsep.inside b hb
  · refine pairwise_disjoint_perm ?_ hsep.disjoint
    have hperm := (perm_cons_erase hx).map (·.bytes)
    refine (hperm.append_right _).trans ?_
    exact perm_middle.symm
  · exact fun y hy => h.givesBack y (hsub y hy)

theorem Inv.write (h : Inv r s blocks)
    (hmem : ∀ w : U64, 8 ∣ w.toNat → w.toNat ∈ r.bytes → (∀ x ∈ s.live, w.toNat ∉ x.bytes) →
      mem w = s.heap.mem w) : Inv r { s with heap := { s.heap with mem } } blocks := by
  refine ⟨?_, h.separated, h.givesBack⟩
  refine h.freeList.congr h.separated.wellFormed ?_
  intro b hb w hw hin
  refine hmem w hw (h.separated.inside b hb hin) ?_
  intro x hx hin'
  exact Finset.disjoint_left.mp (h.separated.live_disjoint hx hb) hin' hin

theorem Safe.step (h : Safe r s) (hstep : Step r s c s') : Safe r s' := by
  obtain ⟨blocks, h⟩ := h
  obtain ⟨h', live'⟩ := s'
  cases c with
  | allocate layout ptr =>
    obtain ⟨hfits, halloc, hlive⟩ := hstep
    subst hlive
    rcases h.allocate_of_fits hfits with hnull | ⟨ptr', h'', pre, b, rest, post, hsome, htook⟩
    · rw [hnull] at halloc
      cases halloc
      exact ⟨blocks, h⟩
    · rw [hsome] at halloc
      cases halloc
      rw [if_neg htook.carved.ptr_ne]
      exact ⟨_, h.took hfits.1 htook⟩
  | deallocate ptr layout =>
    obtain ⟨hmem, hheap, hlive⟩ := hstep
    subst hheap hlive
    exact ⟨_, h.deallocate hmem⟩
  | write mem =>
    obtain ⟨hs', hmem⟩ := hstep
    cases hs'
    exact ⟨_, h.write hmem⟩

/-! ## Runs -/

/-- The whole region is one block. -/
theorem inv_start (hstart : r.start ≠ 0) (mem : U64 → U64) :
    Inv r (State.start r mem) [⟨r.start, r.size⟩] := by
  have hwf : FreeBlock.WellFormed ⟨r.start, r.size⟩ := ⟨r.aligned, r.size_ge, r.end_le⟩
  refine ⟨?_, ⟨?_, ?_, ?_, ?_, pairwise_singleton _ _⟩, ?_⟩
  · exact FreeList.nil.writeBlock (fun _ hmem => absurd hmem not_mem_nil) hwf hstart
      fun _ hmem => absurd hmem not_mem_nil
  · exact fun _ hmem => absurd hmem not_mem_nil
  · exact fun _ hmem => absurd hmem not_mem_nil
  · intro b hb
    rw [mem_singleton.mp hb]
    exact hwf
  · intro b hb
    rw [mem_singleton.mp hb]
    exact Finset.Subset.refl _
  · exact fun _ hmem => absurd hmem not_mem_nil

/-- A region at address 0 is an empty list. -/
theorem inv_start_zero (hstart : r.start = 0) (mem : U64 → U64) : Inv r (State.start r mem) [] := by
  refine ⟨?_, ⟨?_, ?_, ?_, ?_, List.Pairwise.nil⟩, ?_⟩
  · show FreeList _ r.start []
    rw [hstart]
    exact .nil
  all_goals exact fun _ hmem => absurd hmem not_mem_nil

theorem safe_start (r : Region) (mem : U64 → U64) : Safe r (State.start r mem) := by
  by_cases hstart : r.start = 0
  · exact ⟨_, inv_start_zero hstart mem⟩
  · exact ⟨_, inv_start hstart mem⟩

/-- The pointer that a call of `allocate` returned is null, or aligned and inside the region. -/
def ReturnsInside (r : Region) (t : Transition State Call) : Prop :=
  ∀ layout ptr, t.label = .allocate layout ptr → ptr ≠ 0 →
    layout.align.toNat ∣ ptr.toNat ∧ bytes ptr (blockSize layout) ⊆ r.bytes

theorem Safe.returnsInside (h : Safe r s) (hstep : Step r s c s') : ReturnsInside r ⟨s, c, s'⟩ := by
  rintro layout ptr rfl hne
  obtain ⟨blocks', h'⟩ := h.step hstep
  have hlive : ⟨ptr, layout⟩ ∈ s'.live := by
    rw [hstep.2.2, if_neg hne]
    exact mem_cons_self
  exact ⟨h'.separated.live_aligned _ hlive, h'.separated.live_inside _ hlive⟩

/-- **Heap safety.** In every run after `init`, every pointer returned is null, or aligned and
inside the region; the live allocations and the blocks of the free list are pairwise disjoint,
well-formed parts of the region, and no header of the list overlaps a live allocation. Every call of
`allocate` whose additions do not exceed the address space returns. -/
theorem heap_safe {τ : List (Transition State Call)}
    (hrun : Run (Step r) (State.start r mem) τ s) :
    (∀ t ∈ τ, ReturnsInside r t) ∧
    (∃ blocks, FreeList s.heap.mem s.heap.head blocks ∧ Separated r s.live blocks ∧
      ∀ b ∈ blocks, ∀ x ∈ s.live, Disjoint (bytes b.addr sizeOfBlock) x.bytes) ∧
    ∀ layout, AddressFits s.heap layout → (s.heap.allocate layout).isSome := by
  have hkept : ∀ m l m', Safe r m → Step r m l m' → Safe r m' := fun _ _ _ h hstep => h.step hstep
  obtain ⟨blocks, h⟩ := hrun.invariant' (safe_start r mem) hkept
  refine ⟨?_, ⟨blocks, h.freeList, h.separated, ?_⟩, ?_⟩
  · intro t ht
    obtain ⟨hsrc, hstep⟩ := hrun.forall_mem (safe_start r mem) hkept t ht
    exact hsrc.returnsInside hstep
  · intro b hb x hx
    refine Finset.disjoint_of_subset_left ?_ (h.separated.live_disjoint hx hb).symm
    exact Finset.Ico_subset_Ico le_rfl
      (Nat.add_le_add_left (h.separated.wellFormed b hb).size_ge _)
  · intro layout hfits
    rcases h.allocate_of_fits hfits with hnull | ⟨_, _, _, _, _, _, hsome, _⟩
    · rw [hnull]
      rfl
    · rw [hsome]
      rfl

/-- 256 bytes from 0x1008 on. -/
def smallRegion : Region := ⟨0x1008, 256, by decide, by decide, by decide⟩

/-- 40 bytes at a multiple of 64. -/
def smallLayout : Layout := ⟨40, 64, 6, rfl⟩

/-- The padding in front of the allocation is lost, and what is left behind it becomes a block. -/
theorem heap_safe_smallRegion : ∃ s : State, ∃ τ,
    Run (Step smallRegion) (State.start smallRegion fun _ => 0) τ s ∧
    s.live = [⟨0x1040, smallLayout⟩] ∧ s.heap.head = 0x1080 ∧
    (∃ blocks, FreeList s.heap.mem s.heap.head blocks ∧ Separated smallRegion s.live blocks) := by
  have hfits : AddressFits (State.start smallRegion fun _ => 0).heap smallLayout := by
    refine ⟨by decide, ?_⟩
    intro blocks hlist
    have hfree : FreeList (State.start smallRegion fun _ => 0).heap.mem 0x1008
        [⟨0x1008, 256⟩] := .cons (by decide) .nil
    rw [hlist.unique hfree]
    exact ⟨by decide, by decide, fun _ => trivial⟩
  obtain ⟨h', halloc, hhead⟩ : ∃ h', (State.start smallRegion fun _ => 0).heap.allocate
      smallLayout = some (0x1040, h') ∧ h'.head = 0x1080 := ⟨_, rfl, rfl⟩
  have hstep : Step smallRegion (State.start smallRegion fun _ => 0)
      (.allocate smallLayout 0x1040) ⟨h', [⟨0x1040, smallLayout⟩]⟩ := ⟨hfits, halloc, rfl⟩
  obtain ⟨-, ⟨blocks, hlist, hsep, -⟩, -⟩ := heap_safe (Run.single hstep)
  exact ⟨_, _, Run.single hstep, rfl, hhead, blocks, hlist, hsep⟩

end BeastOs.HeapAllocator
