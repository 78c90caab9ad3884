import Mathlib.Logic.Function.Basic
import BeastOs.Word

/-!
# The submission and completion rings

`IoUring` of `kernel/src/io_uring/mod.rs`: the two rings shared with the user program, the execution
of a submission entry and the posting of a completion. A ring is a page with a header of 32 bytes,
which holds its head and its tail, and its slots behind the header. The slot of a free-running index
is the index modulo `entries`.

Both rings are parts of one memory of 64-bit words. The slots of more than 101 submission entries do
not fit their page, so that writing a completion can change a submission entry; and two indices on
both sides of the wrap-around can have the same slot, so that it can change a completion.

The rest of the kernel (files, user memory, page frames, page tables) is a type of worlds that the
services an entry asks for act on. The memory of the rings is not part of it: an entry whose buffer
lies in the ring pages themselves is outside the model.
-/

namespace BeastOs

open BitVec

/-- `IoUringSQEntry` -/
structure Sqe where
  opcode : U8
  flags : U8
  fd : U64
  addr : U64
  len : U64
  userData : U64
  deriving DecidableEq, Repr

/-- `IoUringCQEntry`; the result is an `i64`. -/
structure Cqe where
  userData : U64
  result : U64
  flags : U32
  deriving DecidableEq, Repr

structure RegisteredBuffer where
  userAddr : U64
  size : U64
  bufId : BitVec 16
  active : Bool

structure RingCounters where
  submitted : U64
  completed : U64
  zeroCopy : U64
  chains : U64
  fixedFileHits : U64

/-- The kernel's services, acting on the rest of the kernel. -/
structure Services (W : Type) where
  sysRead : (fd addr len : U64) → W → U64 × W
  sysWrite : (fd addr len : U64) → W → U64 × W
  sysOpen : (addr len : U64) → W → U64 × W
  sysClose : (fd : U64) → W → U64 × W
  /-- finds the page table that `readUser` goes through -/
  getCr3 : W → W
  /-- a word of the user's memory -/
  readUser : (addr : U64) → W → U64
  allocPage : W → Option U64 × W
  freePage : (phys : U64) → W → W
  readFileIntoPhys : (fd phys count : U64) → W → U64 × W
  unmapPage : (pageTable addr : U64) → W → W
  mapPageWithFlags : (pageTable addr phys flags : U64) → W → W

structure IoUring where
  sqPhys : U64
  cqPhys : U64
  /-- where the direct map has the two pages -/
  sqKvirt : U64
  cqKvirt : U64
  entries : U32
  pageTable : U64
  bufs : Nat → RegisteredBuffer
  fixedFiles : List (Option U64)
  counters : RingCounters
  chainResult : U64
  /-- the words of the memory, by their addresses in the direct map -/
  mem : U64 → U64

/-- An entry that is read from the submission page or written to the completion page. -/
inductive RingAccess
  | sqe (addr : U64)
  | cqe (addr : U64)

namespace Sqe

def ioringOpRead : U8 := 1
def ioringOpWrite : U8 := 2
def ioringOpReadZc : U8 := 3
def ioringOpOpen : U8 := 4
def ioringOpClose : U8 := 5
def ioringOpReadv : U8 := 6
def ioringOpWritev : U8 := 7

/-- `SQE_CHAIN`: the result goes to the next entry, not to the completion ring. -/
def chain (sqe : Sqe) : Bool := sqe.flags &&& 1 ≠ 0

/-- `SQE_FIXED_FILE` -/
def fixedFile (sqe : Sqe) : Bool := sqe.flags &&& 4 ≠ 0

/-- The three bits from `SQE_PRIORITY_SHIFT` on. -/
def prio (sqe : Sqe) : U8 := (sqe.flags >>> 4) &&& 7

end Sqe

namespace IoUring

variable {W : Type} {r r' r'' : IoUring} {idx : U32} {a : U64} {j : Nat}

def maxRegisteredBufs : Nat := 16

def sqeSize : U64 := 40

def cqeSize : U64 := 24

def ringHeaderSize : U64 := 32

/-! ## Headers -/

/-- The `u32` at the address of a word. -/
def low (word : U64) : U32 := word.extractLsb' 0 32

/-- The `u32` in its second half. -/
def high (word : U64) : U32 := word.extractLsb' 32 32

def store (r : IoUring) (addr value : U64) : IoUring :=
  { r with mem := Function.update r.mem addr value }

def sqHead (r : IoUring) : U32 := low (r.mem r.sqKvirt)

def sqTail (r : IoUring) : U32 := high (r.mem r.sqKvirt)

def setSqHead (r : IoUring) (val : U32) : IoUring :=
  r.store r.sqKvirt (high (r.mem r.sqKvirt) ++ val)

def cqHead (r : IoUring) : U32 := low (r.mem r.cqKvirt)

def cqTail (r : IoUring) : U32 := high (r.mem r.cqKvirt)

def setCqTail (r : IoUring) (val : U32) : IoUring :=
  r.store r.cqKvirt (val ++ low (r.mem r.cqKvirt))

/-! ## Slots -/

/-- Where `submit_sqes` reads the entry of an index. -/
def sqeAddr (r : IoUring) (idx : U32) : U64 :=
  r.sqKvirt + ringHeaderSize + (idx.setWidth 64 % r.entries.setWidth 64) * sqeSize

/-- Where `push_cqe` writes the completion of an index. -/
def cqeAddr (r : IoUring) (idx : U32) : U64 :=
  r.cqKvirt + ringHeaderSize + (idx % r.entries).setWidth 64 * cqeSize

def sqeWord (r : IoUring) (idx : U32) (j : Nat) : U64 := r.sqeAddr idx + BitVec.ofNat 64 (8 * j)

def cqeWord (r : IoUring) (idx : U32) (j : Nat) : U64 := r.cqeAddr idx + BitVec.ofNat 64 (8 * j)

/-- The entry of a submission index. -/
def sqe (r : IoUring) (idx : U32) : Sqe :=
  let word (j : Nat) := r.mem (r.sqeWord idx j)
  ⟨(word 0).extractLsb' 0 8, (word 0).extractLsb' 8 8, word 1, word 2, word 3, word 4⟩

/-- What stands in the slot of a completion index. -/
def cqe (r : IoUring) (idx : U32) : Cqe :=
  let word (j : Nat) := r.mem (r.cqeWord idx j)
  ⟨word 0, word 1, low (word 2)⟩

def cqFull (r : IoUring) : Bool := r.cqTail - r.cqHead ≥ r.entries

def writeCqe (r : IoUring) (idx : U32) (cqe : Cqe) : IoUring :=
  let word := r.cqeWord idx
  ((r.store (word 0) cqe.userData).store (word 1) cqe.result).store (word 2)
    (high (r.mem (word 2)) ++ cqe.flags)

def pushCqe (r : IoUring) (cqe : Cqe) : IoUring :=
  if r.cqFull then r else (r.writeCqe r.cqTail cqe).setCqTail (r.cqTail + 1)

/-- What `push_cqe` writes, the header apart. -/
def pushAccesses (r : IoUring) : List RingAccess :=
  if r.cqFull then [] else [.cqe (r.cqeAddr r.cqTail)]

/-! ## Executing an entry -/

/-- The loop of `readv` and `writev` over the `iovec`s from the `i`-th on; `stops` tells from a
result and a length whether the loop is left early. -/
def vectored (k : Services W) (op : U64 → U64 → U64 → W → U64 × W) (stops : U64 → U64 → Bool)
    (fd iovecAddr : U64) : (remaining i : Nat) → (total : U64) → W → U64 × W
  | 0, _, total, w => (total, w)
  | remaining + 1, i, total, w =>
    let entryAddr := iovecAddr + BitVec.ofNat 64 i * 16
    let base := k.readUser entryAddr w
    let len := k.readUser (entryAddr + 8) w
    let (ret, w) := op fd base len w
    if ret.slt 0 then (if (0 : U64).slt total then total else ret, w)
    else if stops ret len then (total + ret, w)
    else vectored k op stops fd iovecAddr remaining (i + 1) (total + ret) w

def readv (k : Services W) (fd iovecAddr iovcnt : U64) (w : W) : U64 × W :=
  vectored k k.sysRead (fun ret len => ret.slt len) fd iovecAddr (min iovcnt.toNat 16) 0 0
    (k.getCr3 w)

def writev (k : Services W) (fd iovecAddr iovcnt : U64) (w : W) : U64 × W :=
  vectored k k.sysWrite (fun _ _ => false) fd iovecAddr (min iovcnt.toNat 16) 0 0 (k.getCr3 w)

def readZc (k : Services W) (r : IoUring) (sqe : Sqe) (w : W) : U64 × W :=
  let bufId := (sqe.flags &&& 0x0F).toNat
  if bufId ≥ maxRegisteredBufs ∨ ¬ (r.bufs bufId).active then (-1, w)
  else
    let buf := r.bufs bufId
    match k.allocPage w with
    | (none, w) => (-1, w)
    | (some phys, w) =>
      let count := BitVec.ofNat 64 (min (min sqe.len.toNat buf.size.toNat) 4096)
      let (result, w) := k.readFileIntoPhys sqe.fd phys count w
      if (0 : U64).slt result then
        let alignedAddr := buf.userAddr &&& ~~~0xFFF
        let w := k.unmapPage r.pageTable alignedAddr w
        -- `PRESENT | USER | WRITABLE`
        (result, k.mapPageWithFlags r.pageTable alignedAddr phys 7 w)
      else (result, k.freePage phys w)

/-- The copy of an entry that is executed. -/
def localSqe (r : IoUring) (sqe : Sqe) : Sqe :=
  let chainFd := if r.chainResult.slt 0 then 0 else r.chainResult
  { sqe with fd := if sqe.flags &&& 0x80 ≠ 0 then chainFd else sqe.fd }

/-- The descriptor an entry means: a registered file, if the entry asks for one that exists. -/
def resolveFd (r : IoUring) (sqe : Sqe) : U64 × IoUring :=
  if sqe.fixedFile ∧ sqe.fd.toNat < r.fixedFiles.length then
    ((r.fixedFiles.getD sqe.fd.toNat none).getD sqe.fd,
      { r with counters := { r.counters with fixedFileHits := r.counters.fixedFileHits + 1 } })
  else (sqe.fd, r)

def execSqe (k : Services W) (r : IoUring) (sqe : Sqe) (w : W) : U64 × IoUring × W :=
  let r := { r with counters := { r.counters with submitted := r.counters.submitted + 1 } }
  let (fd, r) := r.resolveFd sqe
  let r := if sqe.opcode = Sqe.ioringOpReadZc then
      { r with counters := { r.counters with zeroCopy := r.counters.zeroCopy + 1 } }
    else r
  let (result, w) :=
    if sqe.opcode = Sqe.ioringOpRead then k.sysRead fd sqe.addr sqe.len w
    else if sqe.opcode = Sqe.ioringOpWrite then k.sysWrite fd sqe.addr sqe.len w
    else if sqe.opcode = Sqe.ioringOpReadZc then r.readZc k sqe w
    else if sqe.opcode = Sqe.ioringOpOpen then k.sysOpen sqe.addr sqe.len w
    else if sqe.opcode = Sqe.ioringOpClose then k.sysClose fd w
    else if sqe.opcode = Sqe.ioringOpReadv then readv k fd sqe.addr sqe.len w
    else if sqe.opcode = Sqe.ioringOpWritev then writev k fd sqe.addr sqe.len w
    else (-1, w)
  (result, { r with counters := { r.counters with completed := r.counters.completed + 1 } }, w)

/-! ## The memory -/

@[simp] theorem low_append (x y : U32) : low (x ++ y) = y := by
  unfold low
  exact extractLsb'_append_eq_right

@[simp] theorem high_append (x y : U32) : high (x ++ y) = x := by
  unfold high
  exact extractLsb'_append_eq_left

theorem high_append_low (word : U64) : (high word ++ low word : U64) = word := by
  unfold high low
  rw [show word.extractLsb' 32 32 = word.extractLsb' (0 + 32) 32 from rfl,
    extractLsb'_append_extractLsb'_eq_extractLsb' rfl]
  exact extractLsb'_eq_self

theorem store_self (r : IoUring) (addr value : U64) : (r.store addr value).mem addr = value :=
  Function.update_self ..

theorem store_of_ne {addr : U64} (h : a ≠ addr) (r : IoUring) (value : U64) :
    (r.store addr value).mem a = r.mem a :=
  Function.update_of_ne h ..

theorem sqHead_setSqHead (r : IoUring) (val : U32) : (r.setSqHead val).sqHead = val :=
  (congrArg low (store_self ..)).trans (low_append ..)

theorem setSqHead_self (r : IoUring) : r.setSqHead r.sqHead = r := by
  have hmem : Function.update r.mem r.sqKvirt (high (r.mem r.sqKvirt) ++ r.sqHead) = r.mem := by
    rw [sqHead, high_append_low, Function.update_eq_self]
  unfold setSqHead store
  rw [hmem]

theorem cqTail_setSqHead (r : IoUring) (val : U32) : (r.setSqHead val).cqTail = r.cqTail := by
  show high ((r.setSqHead val).mem r.cqKvirt) = high (r.mem r.cqKvirt)
  by_cases h : r.cqKvirt = r.sqKvirt
  · rw [h]
    exact (congrArg high (store_self ..)).trans (high_append ..)
  · exact congrArg high (store_of_ne h ..)

theorem cqTail_setCqTail (r : IoUring) (val : U32) : (r.setCqTail val).cqTail = val :=
  (congrArg high (store_self ..)).trans (high_append ..)

theorem cqHead_setCqTail (r : IoUring) (val : U32) : (r.setCqTail val).cqHead = r.cqHead :=
  (congrArg low (store_self ..)).trans (low_append ..)

/-- An entry of `size` bytes, `n` entries behind the header. -/
theorem toNat_offset (page index size : U64) (h : 32 + index.toNat * size.toNat < 2 ^ 64) :
    (page + ringHeaderSize + index * size - page).toNat = 32 + index.toNat * size.toNat := by
  have hoffset : page + ringHeaderSize + index * size - page = ringHeaderSize + index * size := by
    rw [add_assoc, add_sub_cancel_left]
  have hheader : ringHeaderSize.toNat = 32 := rfl
  rw [hoffset, toNat_add, toNat_mul, hheader, Nat.add_mod_mod, Nat.mod_eq_of_lt h]

theorem sqeAddr_offset (r : IoUring) (idx : U32) :
    (r.sqeAddr idx - r.sqKvirt).toNat = 32 + idx.toNat % r.entries.toNat * 40 := by
  have hslot : (idx.setWidth 64 % r.entries.setWidth 64).toNat = idx.toNat % r.entries.toNat := by
    rw [toNat_umod, toNat_setWidth_of_le (by decide), toNat_setWidth_of_le (by decide)]
  have hle : idx.toNat % r.entries.toNat ≤ idx.toNat := Nat.mod_le _ _
  have hlt := idx.isLt
  unfold sqeAddr
  rw [toNat_offset _ _ _ (by rw [hslot, show sqeSize.toNat = 40 from rfl]; omega), hslot]
  rfl

/-- The slot of a completion index. -/
def cqSlot (r : IoUring) (idx : U32) : Nat := idx.toNat % r.entries.toNat

theorem cqeAddr_offset (r : IoUring) (idx : U32) :
    (r.cqeAddr idx - r.cqKvirt).toNat = 32 + r.cqSlot idx * 24 := by
  have hslot : ((idx % r.entries).setWidth 64).toNat = r.cqSlot idx := by
    rw [toNat_setWidth_of_le (by decide), toNat_umod]
    rfl
  have hle : r.cqSlot idx ≤ idx.toNat := Nat.mod_le _ _
  have hlt := idx.isLt
  unfold cqeAddr
  rw [toNat_offset _ _ _ (by rw [hslot, show cqeSize.toNat = 24 from rfl]; omega), hslot]
  rfl

/-- A word of an entry whose address is known. -/
theorem toNat_word {addr page : U64} {offset : Nat} (h : (addr - page).toNat = offset)
    (hj : offset + 8 * j < 2 ^ 64) :
    (addr + BitVec.ofNat 64 (8 * j) - page).toNat = offset + 8 * j := by
  rw [← sub_add_eq_add_sub, toNat_add, h, toNat_ofNat, Nat.add_mod_mod, Nat.mod_eq_of_lt hj]

theorem sqeWord_offset (r : IoUring) (idx : U32) (hj : j < 5) :
    (r.sqeWord idx j - r.sqKvirt).toNat = 32 + idx.toNat % r.entries.toNat * 40 + 8 * j := by
  have hle : idx.toNat % r.entries.toNat ≤ idx.toNat := Nat.mod_le _ _
  have hlt := idx.isLt
  exact toNat_word (sqeAddr_offset r idx) (by omega)

theorem cqeWord_offset (r : IoUring) (idx : U32) (hj : j < 3) :
    (r.cqeWord idx j - r.cqKvirt).toNat = 32 + r.cqSlot idx * 24 + 8 * j := by
  have hle : r.cqSlot idx ≤ idx.toNat := Nat.mod_le _ _
  have hlt := idx.isLt
  exact toNat_word (cqeAddr_offset r idx) (by omega)

/-- The words of a completion are behind the header. -/
theorem cqeWord_ne_cqKvirt (r : IoUring) (idx : U32) (hj : j < 3) :
    r.cqeWord idx j ≠ r.cqKvirt := by
  intro h
  have hoffset := cqeWord_offset r idx hj
  rw [h, BitVec.sub_self, toNat_ofNat] at hoffset
  omega

/-- Different words of the slots are different words of the memory. -/
theorem cqeWord_inj {i idx : U32} {k j : Nat} (hk : k < 3) (hj : j < 3)
    (h : r.cqeWord i k = r.cqeWord idx j) : r.cqSlot i = r.cqSlot idx ∧ k = j := by
  have hi := cqeWord_offset r i hk
  rw [h, cqeWord_offset r idx hj] at hi
  omega

/-! ## What stays -/

/-- The two rings are where they were, and only these words may differ. -/
structure SameRings (words : List U64) (r r' : IoUring) : Prop where
  sqKvirt : r'.sqKvirt = r.sqKvirt
  cqKvirt : r'.cqKvirt = r.cqKvirt
  entries : r'.entries = r.entries
  cqHead : r'.cqHead = r.cqHead
  mem : ∀ a, a ∉ words → r'.mem a = r.mem a

namespace SameRings

variable {words : List U64}

theorem refl (words : List U64) (r : IoUring) : SameRings words r r :=
  ⟨rfl, rfl, rfl, rfl, fun _ _ => rfl⟩

theorem trans (h : SameRings words r r') (h' : SameRings words r' r'') : SameRings words r r'' :=
  ⟨h'.sqKvirt.trans h.sqKvirt, h'.cqKvirt.trans h.cqKvirt, h'.entries.trans h.entries,
    h'.cqHead.trans h.cqHead, fun a ha => (h'.mem a ha).trans (h.mem a ha)⟩

theorem mono {words' : List U64} (h : SameRings words r r') (hwords : words ⊆ words') :
    SameRings words' r r' :=
  ⟨h.sqKvirt, h.cqKvirt, h.entries, h.cqHead, fun a ha => h.mem a fun hmem => ha (hwords hmem)⟩

theorem store {addr : U64} (h : SameRings words r r') (haddr : addr ∈ words)
    (hne : r.cqKvirt ≠ addr) (value : U64) : SameRings words r (r'.store addr value) := by
  refine ⟨h.sqKvirt, h.cqKvirt, h.entries, ?_, fun a ha => ?_⟩
  · rw [← h.cqHead]
    exact congrArg low (store_of_ne (h.cqKvirt ▸ hne) r' value)
  · exact (store_of_ne (ne_of_mem_of_not_mem haddr ha).symm r' value).trans (h.mem a ha)

theorem setCqTail (h : SameRings words r r') (hmem : r.cqKvirt ∈ words) (val : U32) :
    SameRings words r (r'.setCqTail val) := by
  refine ⟨h.sqKvirt, h.cqKvirt, h.entries, (cqHead_setCqTail r' val).trans h.cqHead, fun a ha => ?_⟩
  rw [← h.cqKvirt] at hmem
  exact (store_of_ne (ne_of_mem_of_not_mem hmem ha).symm r' _).trans (h.mem a ha)

theorem sqe (h : SameRings words r r') (hwords : ∀ j < 5, r.sqeWord idx j ∉ words) :
    r'.sqe idx = r.sqe idx := by
  have hword : ∀ j < 5, r'.mem (r'.sqeWord idx j) = r.mem (r.sqeWord idx j) := by
    intro j hj
    rw [sqeWord, sqeAddr, h.sqKvirt, h.entries]
    exact h.mem _ (hwords j hj)
  unfold IoUring.sqe
  dsimp only
  rw [hword 0 (by decide), hword 1 (by decide), hword 2 (by decide), hword 3 (by decide),
    hword 4 (by decide)]

theorem cqeWord (h : SameRings words r r') : r'.cqeWord = r.cqeWord := by
  funext idx j
  rw [IoUring.cqeWord, cqeAddr, h.cqKvirt, h.entries]
  rfl

theorem cqe (h : SameRings words r r') (hwords : ∀ j < 3, r.cqeWord idx j ∉ words) :
    r'.cqe idx = r.cqe idx := by
  unfold IoUring.cqe
  dsimp only
  rw [h.cqeWord, h.mem _ (hwords 0 (by decide)), h.mem _ (hwords 1 (by decide)),
    h.mem _ (hwords 2 (by decide))]

end SameRings

theorem setSqHead_same (h : r.cqKvirt ≠ r.sqKvirt) (val : U32) :
    SameRings [r.sqKvirt] r (r.setSqHead val) :=
  (SameRings.refl _ r).store (List.mem_singleton_self _) h _

/-! ## Posting -/

/-- The words that a completion is written to: the one with the tail, and those of its slot. -/
def cqeWords (r : IoUring) (idx : U32) : List U64 :=
  r.cqKvirt :: (List.range 3).map (r.cqeWord idx)

variable (r) (c : Cqe)

theorem writeCqe_same (idx : U32) : SameRings (r.cqeWords idx) r (r.writeCqe idx c) := by
  have hmem : ∀ {j}, j < 3 → r.cqeWord idx j ∈ r.cqeWords idx := fun hj =>
    List.mem_cons_of_mem _ (List.mem_map_of_mem (List.mem_range.mpr hj))
  have hne : ∀ {j}, j < 3 → r.cqKvirt ≠ r.cqeWord idx j :=
    fun hj => (cqeWord_ne_cqKvirt r idx hj).symm
  have h₀ := (SameRings.refl _ r).store (hmem (j := 0) (by decide)) (hne (by decide)) c.userData
  have h₁ := h₀.store (hmem (j := 1) (by decide)) (hne (by decide)) c.result
  exact h₁.store (hmem (j := 2) (by decide)) (hne (by decide)) _

/-- The completion stands in its slot. -/
theorem cqe_writeCqe (idx : U32) : (r.writeCqe idx c).cqe idx = c := by
  have hne : ∀ {j k}, j < 3 → k < 3 → j ≠ k → r.cqeWord idx j ≠ r.cqeWord idx k :=
    fun hj hk hjk heq => hjk (cqeWord_inj hj hk heq).2
  unfold cqe
  dsimp only
  rw [(writeCqe_same r c idx).cqeWord]
  unfold writeCqe
  rw [store_self, low_append, store_of_ne (hne (by decide) (by decide) (by decide)),
    store_of_ne (hne (by decide) (by decide) (by decide)), store_self,
    store_of_ne (hne (by decide) (by decide) (by decide)), store_self]

/-- Posting a completion changes its words only; the head of the completions is the user's. -/
theorem pushCqe_same : SameRings (r.cqeWords r.cqTail) r (r.pushCqe c) := by
  unfold pushCqe
  split
  · exact .refl _ r
  · exact (writeCqe_same r c _).setCqTail List.mem_cons_self _

variable {r}

theorem cqTail_pushCqe (h : r.cqFull = false) : (r.pushCqe c).cqTail = r.cqTail + 1 := by
  unfold pushCqe
  rw [h, if_neg Bool.false_ne_true, cqTail_setCqTail]

theorem cqe_pushCqe (h : r.cqFull = false) : (r.pushCqe c).cqe r.cqTail = c := by
  have hcqKvirt := (writeCqe_same r c r.cqTail).cqKvirt
  have hsame := (SameRings.refl [r.cqKvirt] (r.writeCqe r.cqTail c)).setCqTail
    (hcqKvirt ▸ List.mem_singleton_self _) (r.cqTail + 1)
  unfold pushCqe
  rw [h, if_neg Bool.false_ne_true, hsame.cqe fun j hj => ?_, cqe_writeCqe]
  rw [(writeCqe_same r c _).cqeWord]
  exact fun hmem => cqeWord_ne_cqKvirt r _ hj (List.mem_singleton.mp hmem)

/-- Completions in other slots stay. -/
theorem cqe_pushCqe_of_ne (h : r.cqSlot idx ≠ r.cqSlot r.cqTail) :
    (r.pushCqe c).cqe idx = r.cqe idx := by
  refine (pushCqe_same r c).cqe fun j hj hmem => ?_
  rcases List.mem_cons.mp hmem with htail | hslot
  · exact cqeWord_ne_cqKvirt r idx hj htail
  · obtain ⟨k, hk, heq⟩ := List.mem_map.mp hslot
    exact h (cqeWord_inj (List.mem_range.mp hk) hj heq).1.symm

/-- Executing an entry leaves the rings alone: it counts. -/
theorem execSqe_ring (k : Services W) (r : IoUring) (sqe : Sqe) (w : W) :
    ∃ counters, (r.execSqe k sqe w).2.1 = { r with counters } := by
  obtain ⟨counters, hcounters⟩ : ∃ counters,
      (resolveFd { r with counters := { r.counters with submitted := r.counters.submitted + 1 } }
        sqe).2 = { r with counters } := by
    unfold resolveFd
    split
    · exact ⟨_, rfl⟩
    · exact ⟨_, rfl⟩
  unfold execSqe
  dsimp only
  rw [hcounters]
  split
  · exact ⟨_, rfl⟩
  · exact ⟨_, rfl⟩

end IoUring

end BeastOs
