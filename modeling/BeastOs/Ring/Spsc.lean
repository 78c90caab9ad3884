import BeastOs.Lib.Runs
import BeastOs.Lib.WrappingIndex
import BeastOs.Word

/-!
# The single-producer single-consumer ring

`SpscRing` of `libs/beast_ring/src/lib.rs`, with a capacity of `2 ^ k` messages. The first part is
the ring as its functions see it when nothing interferes. The second part splits `try_push` and
`try_pop` into their memory accesses and runs one producer and one consumer in any interleaving,
from any common start value of the two indices.

A ledger records the values pushed (a push takes effect when it stores `head`) and popped (a pop
takes effect when it stores `tail`); the values pushed and not yet popped are the unread ones.

Main result: `linearizable`.
-/

namespace BeastOs

open Function List Lib

/-- Only the slots below the capacity `2 ^ k` are used. -/
structure SpscRing (α : Type) (k : Nat) where
  /-- written by the producer only -/
  head : U64
  /-- written by the consumer only -/
  tail : U64
  buffer : Nat → α

namespace SpscRing

variable {α : Type} {k : Nat} {c : U64}

def capacity (_ : SpscRing α k) : Nat := 2 ^ k

/-- `Err` is `false`: the ring is full and unchanged. -/
def tryPush (r : SpscRing α k) (value : α) : Bool × SpscRing α k :=
  if (r.head - r.tail).toNat ≥ r.capacity then (false, r)
  else (true, { r with
    buffer := Function.update r.buffer (maskIndex k r.head) value
    head := r.head + 1 })

def tryPop (r : SpscRing α k) : Option α × SpscRing α k :=
  if r.tail = r.head then (none, r)
  else (some (r.buffer (maskIndex k r.tail)), { r with tail := r.tail + 1 })

def isEmpty (r : SpscRing α k) : Bool := r.head = r.tail

def isFull (r : SpscRing α k) : Bool := (r.head - r.tail).toNat ≥ r.capacity

def len (r : SpscRing α k) : Nat := (r.head - r.tail).toNat

/-! ## One producer, one consumer -/

/-- Where the producer stands in `try_push`: what it does next, with the values it has loaded. -/
inductive Producer (α : Type) where
  | idle
  | loadTail (value : α) (head : U64)
  | writeSlot (value : α) (head : U64)
  | storeHead (value : α) (head : U64)

/-- Where the consumer stands in `try_pop`. -/
inductive Consumer (α : Type) where
  | idle
  | loadHead (tail : U64)
  | readSlot (tail : U64)
  | storeTail (tail : U64) (value : α)

/-- The shared ring, the two parties and the ledger. -/
structure Sys (α : Type) (k : Nat) where
  ring : SpscRing α k
  producer : Producer α
  consumer : Consumer α
  pushed : List α
  popped : List α

/-- Both indices start at `c`. -/
def Sys.start (c : U64) (buffer : Nat → α) : Sys α k := ⟨⟨c, c, buffer⟩, .idle, .idle, [], []⟩

inductive Access (α : Type) where
  /-- a call of `try_push`: loads `head` -/
  | push (value : α)
  | producer
  /-- a call of `try_pop`: loads `tail` -/
  | pop
  | consumer

/-- The producer's next access. -/
def Sys.stepProducer (s : Sys α k) : Option (Sys α k) :=
  match s.producer with
  | .idle => none
  | .loadTail value head =>
    if (head - s.ring.tail).toNat ≥ s.ring.capacity then some { s with producer := .idle }
    else some { s with producer := .writeSlot value head }
  | .writeSlot value head => some { s with
      ring.buffer := Function.update s.ring.buffer (maskIndex k head) value
      producer := .storeHead value head }
  | .storeHead value head => some { s with
      ring.head := head + 1
      producer := .idle
      pushed := s.pushed ++ [value] }

/-- The consumer's next access. -/
def Sys.stepConsumer (s : Sys α k) : Option (Sys α k) :=
  match s.consumer with
  | .idle => none
  | .loadHead tail =>
    if tail = s.ring.head then some { s with consumer := .idle }
    else some { s with consumer := .readSlot tail }
  | .readSlot tail => some { s with
      consumer := .storeTail tail (s.ring.buffer (maskIndex k tail)) }
  | .storeTail tail value => some { s with
      ring.tail := tail + 1
      consumer := .idle
      popped := s.popped ++ [value] }

def Sys.step (s : Sys α k) : Access α → Option (Sys α k)
  | .push value =>
    match s.producer with
    | .idle => some { s with producer := .loadTail value s.ring.head }
    | _ => none
  | .producer => s.stepProducer
  | .pop =>
    match s.consumer with
    | .idle => some { s with consumer := .loadHead s.ring.tail }
    | _ => none
  | .consumer => s.stepConsumer

/-! ## The invariant -/

/-- The index that has counted `i` steps. -/
def index (c : U64) (i : Nat) : U64 := c + BitVec.ofNat 64 i

/-- What the producer's place says about the ring: what it has loaded is still so, and once it has
seen room there is room. -/
def ProducerOk (s : Sys α k) : Prop :=
  match s.producer with
  | .idle => True
  | .loadTail _ head => head = s.ring.head
  | .writeSlot _ head => head = s.ring.head ∧ s.pushed.length < s.popped.length + 2 ^ k
  | .storeHead value head => head = s.ring.head ∧
      s.pushed.length < s.popped.length + 2 ^ k ∧ s.ring.buffer (maskIndex k head) = value

/-- What the consumer's place says: once it has seen a value there is one, and what it has read is
the next value to pop. -/
def ConsumerOk (s : Sys α k) : Prop :=
  match s.consumer with
  | .idle => True
  | .loadHead tail => tail = s.ring.tail
  | .readSlot tail => tail = s.ring.tail ∧ s.popped.length < s.pushed.length
  | .storeTail tail value => tail = s.ring.tail ∧ s.pushed[s.popped.length]? = some value

structure Inv (c : U64) (s : Sys α k) : Prop where
  head_eq : s.ring.head = index c s.pushed.length
  tail_eq : s.ring.tail = index c s.popped.length
  popped_prefix : s.popped <+: s.pushed
  room : s.pushed.length ≤ s.popped.length + 2 ^ k
  slots : ∀ j value, s.popped.length ≤ j → s.pushed[j]? = some value →
    s.ring.buffer (maskIndex k (index c j)) = value
  producer : ProducerOk s
  consumer : ConsumerOk s

theorem inv_start (c : U64) (buffer : Nat → α) : Inv c (Sys.start c buffer : Sys α k) where
  head_eq := (BitVec.add_zero c).symm
  tail_eq := (BitVec.add_zero c).symm
  popped_prefix := prefix_rfl
  room := Nat.zero_le _
  slots := nofun
  producer := trivial
  consumer := trivial

variable {s s' : Sys α k} {a : Access α}

theorem index_succ (c : U64) (i : Nat) : index c (i + 1) = index c i + 1 := by
  unfold index
  rw [BitVec.ofNat_add, ← BitVec.add_assoc]
  rfl

theorem two_pow_lt (hk : k < 64) : 2 ^ k < 2 ^ 64 := Nat.pow_lt_pow_right (by decide) hk

/-- The wrapping difference of the indices is the number of unread values. -/
theorem Inv.len_eq (h : Inv c s) (hk : k < 64) :
    s.ring.len = s.pushed.length - s.popped.length := by
  have hle := h.popped_prefix.length_le
  have hroom := h.room
  have hpow := two_pow_lt hk
  unfold len
  rw [h.head_eq, h.tail_eq]
  exact toNat_sub_index c hle (by omega)

/-- What the consumer knows stays so when a value is pushed. -/
theorem ConsumerOk.of_push {value : α} (h : ConsumerOk s) (hconsumer : s'.consumer = s.consumer)
    (htail : s'.ring.tail = s.ring.tail) (hpopped : s'.popped = s.popped)
    (hpushed : s'.pushed = s.pushed ++ [value]) : ConsumerOk s' := by
  unfold ConsumerOk at h ⊢
  rw [hconsumer, htail, hpopped, hpushed]
  cases hc : s.consumer with
  | idle => trivial
  | loadHead tail =>
    rw [hc] at h
    exact h
  | readSlot tail =>
    rw [hc] at h
    refine ⟨h.1, ?_⟩
    rw [length_append]
    exact Nat.lt_add_right _ h.2
  | storeTail tail v =>
    rw [hc] at h
    refine ⟨h.1, ?_⟩
    rw [getElem?_append_left (List.getElem?_eq_some_iff.mp h.2).1]
    exact h.2

/-- What the producer knows stays so when a value is popped. -/
theorem ProducerOk.of_pop {value : α} (h : ProducerOk s) (hproducer : s'.producer = s.producer)
    (hring : s'.ring = { s.ring with tail := s'.ring.tail })
    (hpushed : s'.pushed = s.pushed) (hpopped : s'.popped = s.popped ++ [value]) :
    ProducerOk s' := by
  have hroom : s.popped.length < s'.popped.length := by
    rw [hpopped, length_append]
    exact Nat.lt_succ_self _
  unfold ProducerOk at h ⊢
  rw [hproducer, hring, hpushed]
  cases hp : s.producer with
  | idle => trivial
  | loadTail v head =>
    rw [hp] at h
    exact h
  | writeSlot v head =>
    rw [hp] at h
    exact ⟨h.1, Nat.lt_of_lt_of_le h.2 (Nat.add_le_add_right hroom.le _)⟩
  | storeHead v head =>
    rw [hp] at h
    exact ⟨h.1, Nat.lt_of_lt_of_le h.2.1 (Nat.add_le_add_right hroom.le _), h.2.2⟩

/-- A step of the producer keeps the invariant. -/
theorem Inv.stepProducer (h : Inv c s) (hk : k < 64) (hstep : s.stepProducer = some s') :
    Inv c s' := by
  have hok := h.producer
  unfold Sys.stepProducer at hstep
  unfold ProducerOk at hok
  cases hp : s.producer with
  | idle =>
    rw [hp] at hstep
    cases hstep
  | loadTail value head =>
    rw [hp] at hstep hok
    dsimp only at hstep hok
    split at hstep
    · cases hstep
      exact { h with producer := trivial }
    · next hroom =>
        cases hstep
        have hlen := h.len_eq hk
        have hlt : s.ring.len < 2 ^ k := by
          rw [hok] at hroom
          exact not_le.mp hroom
        have hlt' : s.pushed.length < s.popped.length + 2 ^ k := by omega
        exact { h with producer := ⟨hok, hlt'⟩ }
  | writeSlot value head =>
    rw [hp] at hstep hok
    cases hstep
    obtain ⟨hhead, hroom⟩ := hok
    refine { h with
      slots := ?_, producer := ⟨hhead, hroom, update_self _ _ _⟩ }
    -- the slot written is that of the next value, one revolution after none of the unread ones
    intro j v hj hv
    replace hj : s.popped.length ≤ j := hj
    have hlt : j < s.pushed.length := (List.getElem?_eq_some_iff.mp hv).1
    have hne : maskIndex k (index c j) ≠ maskIndex k head := by
      rw [hhead, h.head_eq]
      exact maskIndex_ne hk.le c hlt (by omega)
    show update s.ring.buffer (maskIndex k head) value _ = v
    rw [update_of_ne hne]
    exact h.slots j v hj hv
  | storeHead value head =>
    rw [hp] at hstep hok
    cases hstep
    obtain ⟨hhead, hroom, hvalue⟩ := hok
    refine ⟨?_, h.tail_eq, h.popped_prefix.trans (prefix_append _ _), ?_, ?_, trivial, ?_⟩
    · show head + 1 = _
      rw [hhead, h.head_eq, ← index_succ, length_append]
      rfl
    · simp only [length_append, length_singleton]
      omega
    · intro j v hj hv
      rcases lt_or_ge j s.pushed.length with hlt | hge
      · rw [getElem?_append_left hlt] at hv
        exact h.slots j v hj hv
      · rw [getElem?_append_right hge, getElem?_singleton] at hv
        split at hv
        · cases hv
          have hjeq : j = s.pushed.length := by omega
          rw [hjeq, ← h.head_eq, ← hhead]
          exact hvalue
        · cases hv
    · exact h.consumer.of_push rfl rfl rfl rfl

theorem prefix_snoc {l l' : List α} {x : α} (h : l <+: l') (hx : l'[l.length]? = some x) :
    l ++ [x] <+: l' := by
  obtain ⟨rest, rfl⟩ := h
  cases rest with
  | nil => simp at hx
  | cons y rest =>
    simp only [getElem?_append_right (Nat.le_refl _), Nat.sub_self,
      getElem?_cons_zero, Option.some.injEq] at hx
    rw [hx]
    exact ⟨rest, by simp⟩

/-- A step of the consumer keeps the invariant. -/
theorem Inv.stepConsumer (h : Inv c s) (hstep : s.stepConsumer = some s') : Inv c s' := by
  have hok := h.consumer
  unfold Sys.stepConsumer at hstep
  unfold ConsumerOk at hok
  cases hc : s.consumer with
  | idle =>
    rw [hc] at hstep
    cases hstep
  | loadHead tail =>
    rw [hc] at hstep hok
    dsimp only at hstep hok
    split at hstep
    · cases hstep
      exact { h with consumer := trivial }
    · next hne =>
        cases hstep
        refine { h with consumer := ⟨hok, ?_⟩ }
        have hle := h.popped_prefix.length_le
        rcases Nat.lt_or_eq_of_le hle with hlt | heq
        · exact hlt
        · exact absurd (hok.trans (by rw [h.tail_eq, h.head_eq, heq])) hne
  | readSlot tail =>
    rw [hc] at hstep hok
    cases hstep
    obtain ⟨htail, hlt⟩ := hok
    have hget : s.pushed[s.popped.length]? = some s.pushed[s.popped.length] :=
      getElem?_eq_getElem hlt
    have hslot := h.slots _ _ (le_refl _) hget
    rw [← h.tail_eq, ← htail] at hslot
    exact { h with consumer := ⟨htail, by rw [hslot]; exact hget⟩ }
  | storeTail tail value =>
    rw [hc] at hstep hok
    cases hstep
    obtain ⟨htail, hget⟩ := hok
    have hlen : (s.popped ++ [value]).length = s.popped.length + 1 := length_append
    refine ⟨h.head_eq, ?_, prefix_snoc h.popped_prefix hget, ?_, ?_, ?_, trivial⟩
    · show tail + 1 = _
      rw [htail, h.tail_eq, ← index_succ, hlen]
    · have hroom := h.room
      dsimp only
      omega
    · intro j v hj hv
      dsimp only at hj
      exact h.slots j v (by omega) hv
    · exact h.producer.of_pop rfl rfl rfl rfl

theorem Inv.step (h : Inv c s) (hk : k < 64) (hstep : s.step a = some s') : Inv c s' := by
  cases a with
  | push value =>
    simp only [Sys.step] at hstep
    split at hstep
    · cases hstep
      exact { h with producer := rfl }
    · cases hstep
  | producer => exact h.stepProducer hk hstep
  | pop =>
    simp only [Sys.step] at hstep
    split at hstep
    · cases hstep
      exact { h with consumer := rfl }
    · cases hstep
  | consumer => exact h.stepConsumer hstep

/-! ## A linearizable bounded queue -/

/-- The number of values pushed and not yet popped. -/
def Sys.unread (s : Sys α k) : Nat := s.pushed.length - s.popped.length

/-- A write goes to a slot that holds no unread value: unread value `j` is in the slot of index `j`,
and that is another slot. -/
def WritesFreeSlot (c : U64) (t : Transition (Sys α k) (Access α)) : Prop :=
  ∀ value head, t.label = .producer → t.src.producer = .writeSlot value head →
    ∀ j v, t.src.popped.length ≤ j → t.src.pushed[j]? = some v →
      t.src.ring.buffer (maskIndex k (index c j)) = v ∧ maskIndex k (index c j) ≠ maskIndex k head

/-- A push that fails, at its load of `tail`, finds all slots unread. -/
def FailsOnlyFull (t : Transition (Sys α k) (Access α)) : Prop :=
  ∀ value head, t.label = .producer → t.src.producer = .loadTail value head →
    t.dst.producer = .idle → t.src.unread = 2 ^ k

/-- A pop that returns `None`, at its load of `head`, finds nothing unread. -/
def NoneOnlyEmpty (t : Transition (Sys α k) (Access α)) : Prop :=
  ∀ tail, t.label = .consumer → t.src.consumer = .loadHead tail →
    t.dst.consumer = .idle → t.src.unread = 0

theorem Inv.writesFreeSlot (h : Inv c s) (hk : k < 64) : WritesFreeSlot c ⟨s, a, s'⟩ := by
  intro value head _ hp j v hj hv
  refine ⟨h.slots j v hj hv, ?_⟩
  have hlt : j < s.pushed.length := (List.getElem?_eq_some_iff.mp hv).1
  have hok := h.producer
  unfold ProducerOk at hok
  rw [show s.producer = _ from hp] at hok
  replace hj : s.popped.length ≤ j := hj
  rw [hok.1, h.head_eq]
  exact maskIndex_ne hk.le c hlt (by have := hok.2; omega)

theorem Inv.failsOnlyFull (h : Inv c s) (hk : k < 64) (hstep : s.step a = some s') :
    FailsOnlyFull ⟨s, a, s'⟩ := by
  rintro value head rfl hp hidle
  replace hp : s.producer = .loadTail value head := hp
  replace hidle : s'.producer = .idle := hidle
  have hok := h.producer
  unfold ProducerOk at hok
  rw [hp] at hok
  simp only [Sys.step, Sys.stepProducer, hp] at hstep
  split at hstep
  · next hfull =>
      have hlen := h.len_eq hk
      have hroom := h.room
      rw [show head = s.ring.head from hok] at hfull
      have hfull' : s.ring.len ≥ 2 ^ k := hfull
      have hpos := Nat.two_pow_pos k
      show s.pushed.length - s.popped.length = 2 ^ k
      omega
  · cases hstep
    cases hidle

theorem Inv.noneOnlyEmpty (h : Inv c s) (hk : k < 64) (hstep : s.step a = some s') :
    NoneOnlyEmpty ⟨s, a, s'⟩ := by
  rintro tail rfl hc hidle
  replace hc : s.consumer = .loadHead tail := hc
  replace hidle : s'.consumer = .idle := hidle
  have hok := h.consumer
  unfold ConsumerOk at hok
  rw [hc] at hok
  simp only [Sys.step, Sys.stepConsumer, hc] at hstep
  split at hstep
  · next hempty =>
      have hlen := h.len_eq hk
      rw [show tail = s.ring.tail from hok] at hempty
      show s.pushed.length - s.popped.length = 0
      rw [← hlen]
      unfold len
      rw [hempty, BitVec.sub_self]
      rfl
  · cases hstep
    cases hidle

/-- **The ring is a linearizable bounded queue**, for every interleaving of a producer and a
consumer, every capacity `2 ^ k` and every start value of the indices. -/
theorem linearizable {τ : List (Transition (Sys α k) (Access α))} {buffer : Nat → α} (hk : k < 64)
    (hrun : Run (Steps Sys.step) (Sys.start c buffer) τ s) :
    s.popped <+: s.pushed ∧
      (s.ring.head - s.ring.tail).toNat ≤ 2 ^ k ∧
      ∀ t ∈ τ, WritesFreeSlot c t ∧ FailsOnlyFull t ∧ NoneOnlyEmpty t := by
  have hstart := inv_start (k := k) c buffer
  have hinv : Inv c s := hrun.invariant' hstart fun _ _ _ h hstep => h.step hk hstep
  refine ⟨hinv.popped_prefix, ?_, ?_⟩
  · have hlen := hinv.len_eq hk
    have hroom := hinv.room
    have hpos := Nat.two_pow_pos k
    show s.ring.len ≤ 2 ^ k
    omega
  · intro t ht
    obtain ⟨hsrc, hstep⟩ := hrun.forall_mem hstart (fun _ _ _ h hstep => h.step hk hstep) t ht
    exact ⟨hsrc.writesFreeSlot hk, hsrc.failsOnlyFull hk hstep, hsrc.noneOnlyEmpty hk hstep⟩

/-- A ring of two slots whose indices are about to wrap: a push, a pop that overlaps a second push,
and a failing pop. -/
theorem linearizable_wrapping : ∃ τ, ∃ s : Sys Nat 1,
    Run (Steps Sys.step) (Sys.start 0xFFFFFFFFFFFFFFFF fun _ => 0) τ s ∧ s.pushed = [7, 8] ∧
      s.popped = [7] ∧ s.popped <+: s.pushed := by
  obtain ⟨s, hperform, hpushed, hpopped⟩ : ∃ s : Sys Nat 1,
      perform Sys.step (Sys.start 0xFFFFFFFFFFFFFFFF fun _ => 0)
        [.pop, .consumer, .push 7, .producer, .producer, .producer, .push 8, .pop, .producer,
          .consumer, .producer, .consumer, .consumer, .producer] = some s ∧
      s.pushed = [7, 8] ∧ s.popped = [7] := ⟨_, rfl, rfl, rfl⟩
  obtain ⟨τ, hrun, -⟩ := exists_run_of_perform hperform
  exact ⟨τ, s, hrun, hpushed, hpopped, (linearizable (by decide) hrun).1⟩

end SpscRing

end BeastOs
