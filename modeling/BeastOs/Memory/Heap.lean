import BeastOs.Lib.Alignment
import BeastOs.Lib.Pieces
import BeastOs.Word

/-!
# The kernel heap

`HeapAllocator` of `kernel/src/memory/heap.rs`. The free list lives in the memory it manages: a free
block starts with its size and, eight bytes on, the address of the next block, with 0 for `None`.
Memory is modelled by its aligned words.

`allocate` walks the list through a link, the head or a block's `next` field, and unhooks the first
block that fits by storing to that link.

Main result: `search_spec`, from which `HeapSafety` and `HeapBytes` take what they need.
-/

namespace BeastOs

open Function Lib
open List hiding Disjoint

/-- `core::alloc::Layout`, whose alignment is a power of two. -/
structure Layout where
  size : U64
  align : U64
  align_eq : ∃ k, align.toNat = 2 ^ k
  deriving DecidableEq

structure HeapAllocator where
  head : U64
  /-- the memory word at each (8-aligned) address -/
  mem : U64 → U64

namespace HeapAllocator

/-- `core::mem::align_of::<FreeBlock>()` -/
def alignOfBlock : U64 := 8

/-- `core::mem::size_of::<FreeBlock>()` -/
def sizeOfBlock : U64 := 16

/-- `Ord::max` -/
def max (a b : U64) : U64 := if a ≤ b then b else a

def blockAlign (layout : Layout) : U64 := max layout.align alignOfBlock

/-- The size of a block for the layout, rounded up to its alignment. -/
def blockSize (layout : Layout) : U64 := alignUp (max layout.size sizeOfBlock) (blockAlign layout)

/-- `block.size = size; block.next = next` -/
def writeBlock (mem : U64 → U64) (block size next : U64) : U64 → U64 :=
  Function.update (Function.update mem block size) (block + 8) next

def init (mem : U64 → U64) (start size : U64) : HeapAllocator :=
  ⟨start, writeBlock mem start size 0⟩

/-- Where the address of a block is stored: `&mut Option<&mut FreeBlock>`. -/
inductive Link where
  | head
  | next (block : U64)
  deriving DecidableEq

def load (h : HeapAllocator) : Link → U64
  | .head => h.head
  | .next block => h.mem (block + 8)

def store (h : HeapAllocator) (link : Link) (value : U64) : HeapAllocator :=
  match link with
  | .head => { h with head := value }
  | .next block => { h with mem := Function.update h.mem (block + 8) value }

/-- Unhook `block` from the link `current`; what remains behind the allocation at `aligned` becomes
a block if it is large enough. -/
def useBlock (h : HeapAllocator) (current : Link) (block aligned size remaining : U64) :
    HeapAllocator :=
  if remaining ≥ sizeOfBlock + 16 then
    let newBlock := aligned + size
    let mem := Function.update h.mem newBlock remaining
    -- `block.next.take()`
    let next := mem (block + 8)
    let mem := Function.update mem (block + 8) 0
    let mem := Function.update mem (newBlock + 8) next
    { h with mem }.store current newBlock
  else
    let next := h.mem (block + 8)
    let mem := Function.update h.mem (block + 8) 0
    { h with mem }.store current next

/-- The loop of `allocate`. -/
def search (align size : U64) : Nat → HeapAllocator → Link → Option (U64 × HeapAllocator)
  | 0, _, _ => none
  | fuel + 1, h, current =>
    let block := h.load current
    if block = 0 then some (0, h)
    else
      let aligned := alignUp block align
      let adjustment := aligned - block
      if h.mem block ≥ size + adjustment then
        let remaining := h.mem block - size - adjustment
        some (aligned, h.useBlock current block aligned size remaining)
      else search align size fuel h (.next block)

/-- No list of blocks in memory is longer. -/
def maxBlocks : Nat := 2 ^ 60

def allocate (h : HeapAllocator) (layout : Layout) : Option (U64 × HeapAllocator) :=
  search (blockAlign layout) (blockSize layout) (maxBlocks + 1) h .head

def deallocate (h : HeapAllocator) (ptr : U64) (layout : Layout) : HeapAllocator :=
  ⟨ptr, writeBlock h.mem ptr (blockSize layout) h.head⟩

/-! ## The free list -/

/-- The bytes from `addr` on. -/
def bytes (addr size : U64) : Finset Nat := Finset.Ico addr.toNat (addr.toNat + size.toNat)

structure FreeBlock where
  addr : U64
  size : U64

namespace FreeBlock

def bytes (b : FreeBlock) : Finset Nat := HeapAllocator.bytes b.addr b.size

/-- The block is aligned, has room for its header and does not wrap around. -/
structure WellFormed (b : FreeBlock) : Prop where
  aligned : 8 ∣ b.addr.toNat
  size_ge : 16 ≤ b.size.toNat
  end_le : b.addr.toNat + b.size.toNat ≤ 2 ^ 64

/-- The padding in front of an allocation in the block. -/
def adjustment (b : FreeBlock) (align : U64) : U64 := alignUp b.addr align - b.addr

def Fits (b : FreeBlock) (align size : U64) : Prop := b.size ≥ size + b.adjustment align

instance (b : FreeBlock) (align size : U64) : Decidable (b.Fits align size) :=
  inferInstanceAs (Decidable (_ ≥ _))

/-- What is left behind an allocation in the block. -/
def remaining (b : FreeBlock) (align size : U64) : U64 := b.size - size - b.adjustment align

/-- The bytes that are neither part of an allocation in the block nor of a block that is left. -/
def waste (b : FreeBlock) (align size : U64) : Nat :=
  (b.adjustment align).toNat +
    if b.remaining align size ≥ sizeOfBlock + 16 then 0 else (b.remaining align size).toNat

end FreeBlock

/-- The waste of an allocation, which is made in the first block that fits. -/
def wasted (align size : U64) : List FreeBlock → Nat
  | [] => 0
  | b :: blocks => if b.Fits align size then b.waste align size else wasted align size blocks

/-- `FreeList mem head blocks`: the blocks linked from `head` on. -/
inductive FreeList (mem : U64 → U64) : U64 → List FreeBlock → Prop
  | nil : FreeList mem 0 []
  | cons {addr : U64} {blocks : List FreeBlock} : addr ≠ 0 →
      FreeList mem (mem (addr + 8)) blocks → FreeList mem addr (⟨addr, mem addr⟩ :: blocks)

/-- If an addition exceeds the address space while the blocks are searched, the block is found not
to fit. -/
def SearchSound (align size : U64) : List FreeBlock → Prop
  | [] => True
  | b :: blocks =>
    (b.Fits align size → b.addr.toNat + (align.toNat - 1) < 2 ^ 64 ∧
      size.toNat + (b.adjustment align).toNat < 2 ^ 64) ∧
    (¬ b.Fits align size → SearchSound align size blocks)

/-- No addition exceeds the address space while the blocks are searched. -/
def SearchFits (align size : U64) : List FreeBlock → Prop
  | [] => True
  | b :: blocks =>
    b.addr.toNat + (align.toNat - 1) < 2 ^ 64 ∧
    size.toNat + (b.adjustment align).toNat < 2 ^ 64 ∧
    (¬ b.Fits align size → SearchFits align size blocks)

variable {h h' : HeapAllocator} {mem mem' : U64 → U64} {a w size align : U64} {b : FreeBlock}
  {blocks : List FreeBlock} {link : Link}

theorem SearchFits.sound (hfits : SearchFits align size blocks) :
    SearchSound align size blocks := by
  induction blocks with
  | nil => trivial
  | cons b blocks ih =>
    obtain ⟨haddr, hsize, hrest⟩ := hfits
    exact ⟨fun _ => ⟨haddr, hsize⟩, fun hfit => ih (hrest hfit)⟩

theorem mem_bytes {n : Nat} : n ∈ bytes a size ↔ a.toNat ≤ n ∧ n < a.toNat + size.toNat :=
  Finset.mem_Ico

theorem FreeBlock.mem_bytes {n : Nat} :
    n ∈ b.bytes ↔ b.addr.toNat ≤ n ∧ n < b.addr.toNat + b.size.toNat :=
  Finset.mem_Ico

theorem toNat_add_eight (ha : a.toNat + 16 ≤ 2 ^ 64) : (a + 8).toNat = a.toNat + 8 := by
  rw [BitVec.toNat_add, show (8 : U64).toNat = 8 from rfl, Nat.mod_eq_of_lt]
  omega

theorem FreeBlock.WellFormed.toNat_next (hb : b.WellFormed) :
    (b.addr + 8).toNat = b.addr.toNat + 8 :=
  toNat_add_eight (le_trans (Nat.add_le_add_left hb.size_ge _) hb.end_le)

theorem FreeBlock.WellFormed.addr_ne_next (hb : b.WellFormed) : b.addr ≠ b.addr + 8 := by
  intro heq
  have := congrArg BitVec.toNat heq
  rw [hb.toNat_next] at this
  omega

/-- Both words of a block's header lie in the block. -/
theorem FreeBlock.WellFormed.header (hb : b.WellFormed) :
    (8 ∣ b.addr.toNat ∧ b.addr.toNat ∈ b.bytes) ∧
      8 ∣ (b.addr + 8).toNat ∧ (b.addr + 8).toNat ∈ b.bytes := by
  have hsize := hb.size_ge
  rw [hb.toNat_next]
  refine ⟨⟨hb.aligned, ?_⟩, Nat.dvd_add hb.aligned (Nat.dvd_refl 8), ?_⟩
  · exact FreeBlock.mem_bytes.mpr ⟨le_rfl, by omega⟩
  · exact FreeBlock.mem_bytes.mpr ⟨by omega, by omega⟩

section

variable (hlist : FreeList mem a blocks)
include hlist

/-- The memory determines the blocks. -/
theorem FreeList.unique {blocks' : List FreeBlock} (hlist' : FreeList mem a blocks') :
    blocks = blocks' := by
  induction hlist generalizing blocks' with
  | nil =>
    cases hlist' with
    | nil => rfl
    | cons hne _ => exact absurd rfl hne
  | cons hne _ ih =>
    cases hlist' with
    | nil => exact absurd rfl hne
    | cons _ hrest => rw [ih hrest]

/-- The free list depends only on the words of its blocks. -/
theorem FreeList.congr (hwf : ∀ b ∈ blocks, b.WellFormed)
    (hmem : ∀ b ∈ blocks, ∀ w : U64, 8 ∣ w.toNat → w.toNat ∈ b.bytes → mem' w = mem w) :
    FreeList mem' a blocks := by
  induction hlist with
  | nil => exact .nil
  | @cons addr blocks hne _ ih =>
    obtain ⟨⟨ha, hin⟩, ha', hin'⟩ := (hwf _ mem_cons_self).header
    have hsize := hmem _ mem_cons_self addr ha hin
    have hnext := hmem _ mem_cons_self (addr + 8) ha' hin'
    have hrest := ih (fun b hb => hwf b (mem_cons_of_mem _ hb))
      (fun b hb => hmem b (mem_cons_of_mem _ hb))
    rw [← hnext] at hrest
    rw [← hsize]
    exact .cons hne hrest

/-- Writing the header of a new first block. -/
theorem FreeList.writeBlock (hwf : ∀ c ∈ blocks, c.WellFormed)
    (hb : b.WellFormed) (hne : b.addr ≠ 0) (hdisj : ∀ c ∈ blocks, Disjoint b.bytes c.bytes) :
    FreeList (writeBlock mem b.addr b.size a) b.addr (b :: blocks) := by
  have hsize : HeapAllocator.writeBlock mem b.addr b.size a b.addr = b.size := by
    unfold HeapAllocator.writeBlock
    rw [update_of_ne hb.addr_ne_next, update_self]
  have hnext : HeapAllocator.writeBlock mem b.addr b.size a (b.addr + 8) = a :=
    update_self _ _ _
  have hrest : FreeList (HeapAllocator.writeBlock mem b.addr b.size a)
      (HeapAllocator.writeBlock mem b.addr b.size a (b.addr + 8)) blocks := by
    rw [hnext]
    refine hlist.congr hwf ?_
    intro c hc w _ hw
    have hout : ∀ u : U64, u.toNat ∈ b.bytes → w ≠ u := by
      rintro u hu rfl
      exact Finset.disjoint_left.mp (hdisj c hc) hu hw
    unfold HeapAllocator.writeBlock
    rw [update_of_ne (hout _ hb.header.2.2), update_of_ne (hout _ hb.header.1.2)]
  have hcons := FreeList.cons hne hrest
  rw [hsize] at hcons
  exact hcons

end

/-! ## Taking a block -/

/-- What `allocate` asks for: a size and an alignment of whole words. -/
structure Request (align size : U64) : Prop where
  align_eq : ∃ k, align.toNat = 2 ^ k
  align_dvd : 8 ∣ align.toNat
  size_dvd : 8 ∣ size.toNat
  size_ge : 16 ≤ size.toNat

variable (hreq : Request align size) (haddr : b.addr.toNat + (align.toNat - 1) < 2 ^ 64)
  (hsize : size.toNat + (b.adjustment align).toNat < 2 ^ 64)

include hreq haddr hsize in
/-- Where an allocation lies in a block that fits, and what remains behind it. -/
theorem FreeBlock.Fits.place (hfits : b.Fits align size) :
    align.toNat ∣ (alignUp b.addr align).toNat ∧
      (alignUp b.addr align).toNat = b.addr.toNat + (b.adjustment align).toNat ∧
      b.size.toNat =
        size.toNat + (b.adjustment align).toNat + (b.remaining align size).toNat := by
  obtain ⟨k, hk⟩ := hreq.align_eq
  obtain ⟨hdvd, hle, -⟩ := alignUp_spec hk haddr
  have hadj : (b.adjustment align).toNat = (alignUp b.addr align).toNat - b.addr.toNat :=
    BitVec.toNat_sub_of_le hle
  have hsum : (size + b.adjustment align).toNat = size.toNat + (b.adjustment align).toNat := by
    rw [BitVec.toNat_add, Nat.mod_eq_of_lt hsize]
  have hfits' : size.toNat + (b.adjustment align).toNat ≤ b.size.toNat := by
    rw [← hsum]
    exact hfits
  have hrem : (b.remaining align size).toNat =
      b.size.toNat - (size.toNat + (b.adjustment align).toNat) := by
    unfold remaining
    rw [sub_sub, BitVec.toNat_sub_of_le hfits, hsum]
  refine ⟨hdvd, ?_, ?_⟩ <;> omega

/-- The parts of a block `b` that was taken: the allocation, and the blocks that are left. -/
structure Carved (b : FreeBlock) (ptr size : U64) (rest : List FreeBlock) : Prop where
  ptr_ne : ptr ≠ 0
  subset : bytes ptr size ⊆ b.bytes
  disjoint : (bytes ptr size :: rest.map (·.bytes)).Pairwise Disjoint
  rest_subset : ∀ c ∈ rest, c.bytes ⊆ b.bytes
  rest_wellFormed : ∀ c ∈ rest, c.WellFormed

/-- `h'` differs from `h` only in the link and in the blocks. -/
structure Framed (link : Link) (blocks : List FreeBlock) (h h' : HeapAllocator) : Prop where
  head : link ≠ .head → h'.head = h.head
  mem : ∀ w : U64, (∀ c, link = .next c → w ≠ c + 8) → (∀ b ∈ blocks, w.toNat ∉ b.bytes) →
    h'.mem w = h.mem w

/-- The link is not stored in one of the blocks. -/
def Link.Outside (link : Link) (blocks : List FreeBlock) : Prop :=
  ∀ c, link = .next c → ∀ b ∈ blocks, (c + 8).toNat ∉ b.bytes

@[simp] theorem load_store (h : HeapAllocator) (link : Link) (a : U64) :
    (h.store link a).load link = a := by
  cases link with
  | head => rfl
  | next c => exact update_self _ _ _

theorem store_head (h : HeapAllocator) (a : U64) (hlink : link ≠ .head) :
    (h.store link a).head = h.head := by
  cases link with
  | head => exact absurd rfl hlink
  | next c => rfl

theorem store_mem (h : HeapAllocator) (a : U64) (hw : ∀ c, link = .next c → w ≠ c + 8) :
    (h.store link a).mem w = h.mem w := by
  cases link with
  | head => rfl
  | next c => exact update_of_ne (hw c rfl) _ _

/-- A word of a block is not the link. -/
theorem Link.Outside.ne (hout : link.Outside blocks) (hb : b ∈ blocks) (hw : w.toNat ∈ b.bytes) :
    ∀ c, link = .next c → w ≠ c + 8 := by
  rintro c hc rfl
  exact hout c hc b hb hw

/-- Hooking a list into a link outside of it. -/
theorem store_freeList (hlist : FreeList h.mem a blocks) (hwf : ∀ b ∈ blocks, b.WellFormed)
    (hout : link.Outside blocks) :
    FreeList (h.store link a).mem ((h.store link a).load link) blocks := by
  rw [load_store]
  refine hlist.congr hwf ?_
  intro c hc w _ hw
  exact store_mem _ _ (hout.ne hc hw)

include hreq in
/-- The part of a block behind the allocation, when it is large enough for a block. -/
theorem carved_split {nb : FreeBlock} (hb : b.WellFormed)
    (hne : b.addr ≠ 0) (hdvd : align.toNat ∣ a.toNat) (hle : b.addr.toNat ≤ a.toNat)
    (hend : a.toNat + size.toNat + nb.size.toNat = b.addr.toNat + b.size.toNat)
    (haddr : nb.addr.toNat = a.toNat + size.toNat) (hsize : 32 ≤ nb.size.toNat) :
    Carved b a size [nb] := by
  have hpos : b.addr.toNat ≠ 0 := fun h => hne (BitVec.eq_of_toNat_eq h)
  refine ⟨?_, ?_, ?_, ?_, ?_⟩
  · rintro rfl
    exact hpos (Nat.le_zero.mp hle)
  · exact Finset.Ico_subset_Ico hle (by omega)
  · rw [map_singleton, pairwise_pair, Finset.disjoint_left]
    intro n hn hn'
    rw [mem_bytes] at hn
    rw [FreeBlock.mem_bytes] at hn'
    omega
  · intro c hc
    rw [mem_singleton.mp hc]
    exact Finset.Ico_subset_Ico (by omega) (by omega)
  · intro c hc
    rw [mem_singleton.mp hc]
    refine ⟨?_, by omega, ?_⟩
    · rw [haddr]
      exact Nat.dvd_add (hreq.align_dvd.trans hdvd) hreq.size_dvd
    · have := hb.end_le
      omega

theorem carved_whole (hne : b.addr ≠ 0) (hle : b.addr.toNat ≤ a.toNat)
    (hend : a.toNat + size.toNat ≤ b.addr.toNat + b.size.toNat) : Carved b a size [] := by
  refine ⟨?_, Finset.Ico_subset_Ico hle hend, pairwise_singleton _ _, ?_, ?_⟩
  · rintro rfl
    exact hne (BitVec.eq_of_toNat_eq (Nat.le_zero.mp hle))
  · intro c hc
    cases hc
  · intro c hc
    cases hc

/-- The memory after a block has been split: the new header is there, with the old link, and
nothing outside the block has changed. -/
theorem split_mem {nb : FreeBlock} (mem : U64 → U64) (hb : b.WellFormed) (hnb : nb.WellFormed)
    (hsub : nb.bytes ⊆ b.bytes) (hbehind : b.addr.toNat + 16 ≤ nb.addr.toNat)
    (hmem : mem' = update (update (update mem nb.addr nb.size)
      (b.addr + 8) 0) (nb.addr + 8) (update mem nb.addr nb.size (b.addr + 8))) :
    mem' nb.addr = nb.size ∧ mem' (nb.addr + 8) = mem (b.addr + 8) ∧
      ∀ w : U64, w.toNat ∉ b.bytes → mem' w = mem w := by
  have hne : b.addr + 8 ≠ nb.addr := by
    intro heq
    have := congrArg BitVec.toNat heq
    rw [hb.toNat_next] at this
    omega
  subst hmem
  refine ⟨?_, ?_, ?_⟩
  · rw [update_of_ne hnb.addr_ne_next, update_of_ne hne.symm, update_self]
  · rw [update_self, update_of_ne hne]
  · intro w hw
    have hout : ∀ u : U64, u.toNat ∈ b.bytes → w ≠ u := by
      rintro u hu rfl
      exact hw hu
    rw [update_of_ne (hout _ (hsub hnb.header.2.2)), update_of_ne (hout _ hb.header.2.2),
      update_of_ne (hout _ (hsub hnb.header.1.2))]

variable {post : List FreeBlock}

/-- Memory outside a block that has been taken is unchanged, so the blocks after it are still
linked. -/
theorem FreeList.behind (hlist : FreeList mem a post) (hwf : ∀ c ∈ post, c.WellFormed)
    (hdisj : ((b :: post).map (·.bytes)).Pairwise Disjoint)
    (hmem : ∀ w : U64, w.toNat ∉ b.bytes → mem' w = mem w) : FreeList mem' a post := by
  obtain ⟨hdisj, -⟩ := pairwise_cons.mp hdisj
  refine hlist.congr hwf ?_
  intro c hc w _ hw
  refine hmem w fun hin => ?_
  exact Finset.disjoint_left.mp (hdisj _ (mem_map_of_mem hc)) hin hw

theorem framed_store {m : U64 → U64} (hmem : ∀ w : U64, w.toNat ∉ b.bytes → m w = h.mem w) :
    Framed link [b] h ({ h with mem := m }.store link a) := by
  refine ⟨fun hlink => store_head _ _ hlink, ?_⟩
  intro w hlink hw
  rw [store_mem _ _ hlink]
  exact hmem w (hw b mem_cons_self)

include hreq in
/-- Of a block that is split, what is left takes its place in the list. -/
theorem splitBlock_spec {ptr remaining : U64}
    (hdvd : align.toNat ∣ ptr.toNat) (hle : b.addr.toNat ≤ ptr.toNat)
    (hend : ptr.toNat + size.toNat + remaining.toNat = b.addr.toNat + b.size.toNat)
    (hlarge : remaining ≥ sizeOfBlock + 16) (hne : b.addr ≠ 0)
    (hlist : FreeList h.mem (h.mem (b.addr + 8)) post) (hwf : ∀ c ∈ b :: post, c.WellFormed)
    (hdisj : ((b :: post).map (·.bytes)).Pairwise Disjoint) (hout : link.Outside (b :: post))
    (hh' : h' = h.useBlock link b.addr ptr size remaining) :
    Carved b ptr size [⟨ptr + size, remaining⟩] ∧
      FreeList h'.mem (h'.load link) (⟨ptr + size, remaining⟩ :: post) ∧
      Framed link [b] h h' := by
  have hb := hwf b mem_cons_self
  have hpost : ∀ c ∈ post, c.WellFormed := fun c hc => hwf c (mem_cons_of_mem _ hc)
  unfold useBlock at hh'
  rw [if_pos hlarge] at hh'
  have hlarge : 32 ≤ remaining.toNat := hlarge
  have hbend := hb.end_le
  have hge := hreq.size_ge
  have hnb : (ptr + size).toNat = ptr.toNat + size.toNat := by
    rw [BitVec.toNat_add, Nat.mod_eq_of_lt]
    omega
  have hcarved : Carved b ptr size [⟨ptr + size, remaining⟩] :=
    carved_split hreq hb hne hdvd hle hend hnb hlarge
  have hsub := hcarved.rest_subset _ mem_cons_self
  have hnbwf := hcarved.rest_wellFormed _ mem_cons_self
  have hnbne : ptr + size ≠ 0 := by
    intro heq
    rw [heq] at hnb
    exact absurd hnb (by simp; omega)
  obtain ⟨hsize', hnext', hmem⟩ := split_mem h.mem hb hnbwf hsub (by dsimp only; omega) rfl
  subst hh'
  refine ⟨hcarved, store_freeList ?_ ?_ ?_, framed_store hmem⟩
  · have hcons := FreeList.cons hnbne (hnext' ▸ hlist.behind hpost hdisj hmem)
    rw [hsize'] at hcons
    exact hcons
  · intro c hc
    rcases mem_cons.mp hc with rfl | hc
    · exact hnbwf
    · exact hpost c hc
  · intro c hc d hd hin
    rcases mem_cons.mp hd with rfl | hd
    · exact hout c hc b mem_cons_self (hsub hin)
    · exact hout c hc d (mem_cons_of_mem _ hd) hin

include hreq haddr hsize in
/-- Taking the first block of the list behind a link. -/
theorem useBlock_spec (hfits : b.Fits align size) (hne : b.addr ≠ 0)
    (hlist : FreeList h.mem (h.mem (b.addr + 8)) post) (hwf : ∀ c ∈ b :: post, c.WellFormed)
    (hdisj : ((b :: post).map (·.bytes)).Pairwise Disjoint) (hout : link.Outside (b :: post))
    (hh' : h' = h.useBlock link b.addr (alignUp b.addr align) size (b.remaining align size)) :
    ∃ rest, Carved b (alignUp b.addr align) size rest ∧
      b.size.toNat = size.toNat + (rest.map (·.size.toNat)).sum + b.waste align size ∧
      FreeList h'.mem (h'.load link) (rest ++ post) ∧ Framed link [b] h h' := by
  obtain ⟨hdvd, haligned, htotal⟩ := hfits.place hreq haddr hsize
  have hle : b.addr.toNat ≤ (alignUp b.addr align).toNat := by omega
  have hend : (alignUp b.addr align).toNat + size.toNat + (b.remaining align size).toNat =
      b.addr.toNat + b.size.toNat := by omega
  have hsizes : b.size.toNat = size.toNat + (if b.remaining align size ≥ sizeOfBlock + 16 then
      (b.remaining align size).toNat else 0) + b.waste align size := by
    unfold FreeBlock.waste
    split <;> omega
  by_cases hlarge : b.remaining align size ≥ sizeOfBlock + 16
  · rw [if_pos hlarge] at hsizes
    obtain ⟨hcarved, hlist', hframed⟩ := splitBlock_spec hreq hdvd hle hend hlarge hne hlist hwf
      hdisj hout hh'
    exact ⟨_, hcarved, hsizes, hlist', hframed⟩
  · rw [if_neg hlarge] at hsizes
    have hb := hwf b mem_cons_self
    have hpost : ∀ c ∈ post, c.WellFormed := fun c hc => hwf c (mem_cons_of_mem _ hc)
    have hout' : link.Outside post := fun c hc d hd => hout c hc d (mem_cons_of_mem _ hd)
    have hmem : ∀ w : U64, w.toNat ∉ b.bytes →
        update h.mem (b.addr + 8) 0 w = h.mem w := by
      intro w hw
      refine update_of_ne ?_ _ _
      rintro rfl
      exact hw hb.header.2.2
    unfold useBlock at hh'
    rw [if_neg hlarge] at hh'
    subst hh'
    refine ⟨[], carved_whole hne hle (by omega), hsizes, ?_, framed_store hmem⟩
    exact store_freeList (hlist.behind hpost hdisj hmem) hpost hout'

/-! ## The search -/

/-- The search took the block `b` out of the blocks behind the link. -/
structure Took (align size : U64) (link : Link) (blocks : List FreeBlock) (h : HeapAllocator)
    (ptr : U64) (h' : HeapAllocator) (pre : List FreeBlock) (b : FreeBlock)
    (rest post : List FreeBlock) : Prop where
  split : blocks = pre ++ b :: post
  aligned : align.toNat ∣ ptr.toNat
  carved : Carved b ptr size rest
  freeList : FreeList h'.mem (h'.load link) (pre ++ (rest ++ post))
  framed : Framed link blocks h h'

/-- It did, and the bytes of the block that are neither allocated nor free any more are wasted. -/
structure TookSized (align size : U64) (link : Link) (blocks : List FreeBlock) (h : HeapAllocator)
    (ptr : U64) (h' : HeapAllocator) (pre : List FreeBlock) (b : FreeBlock)
    (rest post : List FreeBlock) : Prop
    extends Took align size link blocks h ptr h' pre b rest post where
  sizes : b.size.toNat = size.toNat + (rest.map (·.size.toNat)).sum + wasted align size blocks

theorem Framed.mono {blocks' : List FreeBlock} (hframe : Framed link blocks h h')
    (hsub : blocks ⊆ blocks') : Framed link blocks' h h' :=
  ⟨hframe.head, fun w hlink hw => hframe.mem w hlink fun b hb => hw b (hsub hb)⟩

/-- A link outside the list keeps its value while the list behind the first block changes. -/
theorem Framed.load_eq (hframe : Framed (.next b.addr) blocks h h') (hb : b.WellFormed)
    (hout : link.Outside (b :: blocks)) : h'.load link = h.load link := by
  cases link with
  | head => exact hframe.head (by simp)
  | next c =>
    refine hframe.mem _ ?_ fun d hd => hout c rfl d (mem_cons_of_mem _ hd)
    rintro d hd heq
    cases hd
    have hnot := hout c rfl b mem_cons_self
    rw [heq] at hnot
    exact hnot hb.header.2.2

/-- The search past a block that does not fit. -/
theorem Took.cons {pre rest : List FreeBlock} {c : FreeBlock} {ptr : U64}
    (htook : Took align size (.next b.addr) blocks h ptr h' pre c rest post)
    (hload : h.load link = b.addr) (hsize : h.mem b.addr = b.size) (hne : b.addr ≠ 0)
    (hb : b.WellFormed) (hdisj : ((b :: blocks).map (·.bytes)).Pairwise Disjoint)
    (hout : link.Outside (b :: blocks)) :
    Took align size link (b :: blocks) h ptr h' (b :: pre) c rest post := by
  have hload' : h'.load link = b.addr := (htook.framed.load_eq hb hout).trans hload
  obtain ⟨hdisj, -⟩ := pairwise_cons.mp hdisj
  have hsize' : h'.mem b.addr = b.size := by
    rw [← hsize]
    refine htook.framed.mem _ ?_ ?_
    · rintro d hd
      cases hd
      exact hb.addr_ne_next
    · intro d hd hin
      exact Finset.disjoint_left.mp (hdisj _ (mem_map_of_mem hd)) hb.header.1.2 hin
  refine ⟨by rw [htook.split, cons_append], htook.aligned, htook.carved, ?_, ?_⟩
  · have hcons := FreeList.cons hne htook.freeList
    rw [hsize'] at hcons
    rw [hload']
    exact hcons
  · refine ⟨fun hlink => htook.framed.head (by simp), ?_⟩
    intro w hlink hw
    refine htook.framed.mem w ?_ fun d hd => hw d (mem_cons_of_mem _ hd)
    rintro d hd rfl
    cases hd
    exact hw b mem_cons_self hb.header.2.2

include hreq in
/-- **The search.** It ends, without a change, or having taken a block. -/
theorem search_spec {fuel : Nat} (hfuel : blocks.length < fuel)
    (hlist : FreeList h.mem (h.load link) blocks) (hwf : ∀ b ∈ blocks, b.WellFormed)
    (hdisj : (blocks.map (·.bytes)).Pairwise Disjoint) (hout : link.Outside blocks)
    (hsound : SearchSound align size blocks) :
    (search align size fuel h link = some (0, h) ∧ wasted align size blocks = 0) ∨
      ∃ ptr h' pre b rest post, search align size fuel h link = some (ptr, h') ∧
        TookSized align size link blocks h ptr h' pre b rest post := by
  -- along the list: each round of the loop looks at its first block
  induction blocks generalizing fuel link with
  | nil =>
    obtain ⟨fuel, rfl⟩ := Nat.exists_eq_add_one.mpr hfuel
    left
    generalize hload : h.load link = addr at hlist
    cases hlist
    exact ⟨by simp only [search, hload, if_true], rfl⟩
  | cons b blocks ih =>
    obtain ⟨fuel, rfl⟩ := Nat.exists_eq_add_one.mpr (Nat.zero_lt_of_lt hfuel)
    generalize hload : h.load link = addr at hlist
    obtain _ | ⟨hne, hlist⟩ := hlist
    obtain ⟨hbounds, hrest⟩ := hsound
    have hb := hwf _ mem_cons_self
    by_cases hfit : FreeBlock.Fits ⟨addr, h.mem addr⟩ align size
    · right
      obtain ⟨haddr, hsize⟩ := hbounds hfit
      have hsearch : search align size (fuel + 1) h link = some (alignUp addr align,
          h.useBlock link addr (alignUp addr align) size
            (h.mem addr - size - (alignUp addr align - addr))) := by
        simp only [search, hload, if_neg hne]
        exact if_pos hfit
      obtain ⟨rest, hcarved, hsizes, hlist', hframe⟩ :=
        useBlock_spec hreq haddr hsize hfit hne hlist hwf hdisj hout rfl
      refine ⟨_, _, [], _, rest, blocks, hsearch, ⟨rfl, ?_, hcarved, hlist', ?_⟩, ?_⟩
      · exact (hfit.place hreq haddr hsize).1
      · exact hframe.mono (by simp)
      · rw [wasted, if_pos hfit]
        exact hsizes
    · have hsearch : search align size (fuel + 1) h link =
          search align size fuel h (.next addr) := by
        simp only [search, hload, if_neg hne]
        exact if_neg hfit
      have hout' : (Link.next addr).Outside blocks := by
        rintro c hc d hd hin
        cases hc
        obtain ⟨hdisj, -⟩ := pairwise_cons.mp hdisj
        exact Finset.disjoint_left.mp (hdisj _ (mem_map_of_mem hd)) hb.header.2.2 hin
      have hlist' : FreeList h.mem (h.load (.next addr)) blocks := hlist
      rw [hsearch]
      rcases ih (Nat.lt_of_succ_lt_succ hfuel) hlist'
          (fun c hc => hwf c (mem_cons_of_mem _ hc)) (pairwise_cons.mp hdisj).2 hout'
          (hrest hfit) with hnone | ⟨ptr, h', pre, c, rest, post, hsome, htook⟩
      · rw [wasted, if_neg hfit]
        exact .inl hnone
      · refine .inr ⟨ptr, h', _, c, rest, post, hsome,
          htook.toTook.cons hload rfl hne hb hdisj hout, ?_⟩
        rw [wasted, if_neg hfit]
        exact htook.sizes

end HeapAllocator

end BeastOs
