import BeastOs.Lib.SlotRing
import BeastOs.Scheduler.Task

/-!
# The kernel's ring

`BeastSPSCRing` of `kernel/src/ipc/spsc_with_boost.rs`, with `2 ^ k` slots. Unlike in `SpscRing`,
the ring of the library, `tail` is the producer's index and `head` the consumer's. A consumer that
finds the ring empty sets `waiting`, and the next value clears it; the wake-up of the registered
consumer that comes with this concerns only the scheduler and is left out.

A ring that is drained gives back what was put into it, in order: `drained_enqueue`.
-/

namespace BeastOs

open Lib
open Scheduler (TaskId noTask)

structure BeastSpscRing (α : Type) (k : Nat) where
  buffer : Nat → α
  head : U64
  tail : U64
  consumerTask : TaskId
  /-- the consumer has found the ring empty -/
  waiting : Bool

namespace BeastSpscRing

variable {α : Type} {k : Nat}

/-- An empty ring, with `fill` for the zeroed buffer. -/
def new (fill : α) : BeastSpscRing α k := ⟨fun _ => fill, 0, 0, noTask, false⟩

def setConsumer (ring : BeastSpscRing α k) (taskId : TaskId) : BeastSpscRing α k :=
  { ring with consumerTask := taskId }

def enqueue (ring : BeastSpscRing α k) (value : α) : Except α Unit × BeastSpscRing α k :=
  if 2 ^ k ≤ (ring.tail - ring.head).toNat then (.error value, ring)
  else
    (.ok (), { ring with
      buffer := Function.update ring.buffer (maskIndex k ring.tail) value
      tail := ring.tail + 1
      waiting := false })

def tryDequeue (ring : BeastSpscRing α k) : Option α × BeastSpscRing α k :=
  if ring.head = ring.tail then (none, { ring with waiting := true })
  else (some (ring.buffer (maskIndex k ring.head)), { ring with head := ring.head + 1 })

/-- Dequeue until the ring is empty, at most `fuel` times. -/
def drain : Nat → BeastSpscRing α k → List α × BeastSpscRing α k
  | 0, ring => ([], ring)
  | fuel + 1, ring =>
    match ring.tryDequeue with
    | (none, rest) => ([], rest)
    | (some value, rest) => (value :: (drain fuel rest).1, (drain fuel rest).2)

/-- One attempt more than there are values takes them all, oldest first, and finds the ring empty.
-/
theorem drain_eq_unread (ring : BeastSpscRing α k) {fuel : Nat}
    (hfuel : (ring.tail - ring.head).toNat < fuel) :
    drain fuel ring = (unread (maskIndex k) ring.buffer ring.head ring.tail,
      { ring with head := ring.tail, waiting := true }) := by
  obtain ⟨buffer, head, tail, consumerTask, waiting⟩ := ring
  induction fuel generalizing head with
  | zero => exact absurd hfuel (Nat.not_lt_zero _)
  | succ fuel ih =>
    rw [drain]
    by_cases hempty : head = tail
    · have hnone : tryDequeue (k := k) ⟨buffer, head, tail, consumerTask, waiting⟩ = (none, _) :=
        if_pos hempty
      rw [hnone, hempty, unread_self]
    · have hsome : tryDequeue (k := k) ⟨buffer, head, tail, consumerTask, waiting⟩ = (some _, _) :=
        if_neg hempty
      have hdist := distance_of_ne hempty
      dsimp only at hfuel
      rw [hsome, unread_eq_cons hempty]
      dsimp only
      rw [ih (head + 1) (by dsimp only; omega)]

/-- What is in the ring, oldest first. -/
def drained (ring : BeastSpscRing α k) : List α :=
  (ring.drain ((ring.tail - ring.head).toNat + 1)).1

theorem drained_eq_unread (ring : BeastSpscRing α k) :
    ring.drained = unread (maskIndex k) ring.buffer ring.head ring.tail := by
  unfold drained
  rw [drain_eq_unread _ (Nat.lt_succ_self _)]

/-- A value that finds room is the last to come out. -/
theorem drained_enqueue (hk : k < 64) {ring ring' : BeastSpscRing α k} {value : α}
    (henqueue : ring.enqueue value = (.ok (), ring')) :
    ring'.drained = ring.drained ++ [value] := by
  unfold enqueue at henqueue
  split at henqueue
  · cases henqueue
  next hroom =>
    obtain rfl := (Prod.mk.inj henqueue).2
    have hpow : 2 ^ k < 2 ^ 64 := Nat.pow_lt_pow_right (by decide) hk
    simp only [drained_eq_unread]
    exact unread_push (distinctSlots_maskIndex hk.le) hpow (Nat.lt_of_not_le hroom) value

/-- As many values are unread as there are slots. -/
def IsFull (ring : BeastSpscRing α k) : Prop := 2 ^ k ≤ (ring.tail - ring.head).toNat

/-- Only a full ring refuses a value, and it is left as it is. -/
theorem enqueue_error {ring : BeastSpscRing α k} {value v : α}
    (h : (ring.enqueue value).1 = .error v) : ring.IsFull ∧ (ring.enqueue value).2 = ring := by
  unfold enqueue at h ⊢
  split at h
  next hfull =>
    rw [if_pos hfull]
    exact ⟨hfull, rfl⟩
  · cases h

end BeastSpscRing

end BeastOs
