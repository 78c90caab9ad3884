import BeastOs.Ipc.BoostRing
import BeastOs.Ipc.Channel

/-!
# Waiting on a ring

Three calls block the current task until a ring has a value, or has room: `recv` and `send` of a
channel, and `wait_dequeue` of `BeastSPSCRing` (`kernel/src/ipc/spsc_with_boost.rs`). Each tells
`block_current` which task it waits for, and the scheduler indexes its task table with that slot to
boost the task. Nothing on the way compares the slot with the size of the table. A channel passes
what is registered for the other side, which is `NO_TASK`, the largest word, until somebody
registers; `wait_dequeue` passes `NO_TASK` always.

`none` is a panic, as everywhere in the scheduler, and `step_block_isSome_iff` says that an index
out of range is the only one a block can end in.
-/

namespace BeastOs

open Option Lib Scheduler

/-- One round of the loop of `wait_dequeue`: a value, or the task blocks and will try again. -/
def BeastSpscRing.waitDequeue {α : Type} {k : Nat} (ring : BeastSpscRing α k) (sched : Scheduler)
    (regs : AllRegisters) (framePtr : U64) : Option (Option α × BeastSpscRing α k × Scheduler) :=
  match ring.tryDequeue with
  | (some value, ring) => some (some value, ring, sched)
  | (none, ring) => do
    let (sched, _) ← sched.step (.block (.spscRingEmpty noTask) regs framePtr)
    return (none, ring, sched)

/-! ## When a block panics -/

namespace Scheduler

variable {s : Scheduler} {slot : TaskId} {reason : BlockReason}

theorem boostPartner_eq_none (h : ¬ slot < maxTasks) : s.boostPartner slot = none := by
  have hat : s.taskAt slot = none := if_neg h
  unfold boostPartner
  rw [hat]
  rfl

theorem boostForReason_eq_none (h : ¬ reason.InRange) :
    s.boostForReason slot reason = none := by
  cases reason with
  | spscRingEmpty producerSlot =>
    show (s.boostPartner producerSlot).bind _ = none
    rw [boostPartner_eq_none h]
    rfl
  | spscRingFull consumerSlot => exact boostPartner_eq_none h
  | _ => exact absurd trivial h

/-- A running task blocks without a panic exactly if the reason names slots of the task table. -/
theorem step_block_isSome_iff {regs : AllRegisters} {framePtr : U64}
    (h : Settled s) : (s.step (.block reason regs framePtr)).isSome ↔ reason.InRange := by
  constructor
  · intro hsome
    by_contra hrange
    obtain ⟨t, ht, -⟩ := h.exists_current
    have hblock : s.blockCurrent reason = none := by
      unfold blockCurrent
      simp only [taskAt_of_lt h.current_lt, ht, bind_eq_bind, bind_some]
      exact boostForReason_eq_none hrange
    simp only [step, hblock, bind_eq_bind, bind_none, isSome_none] at hsome
    cases hsome
  · intro hrange
    obtain ⟨s', d, hrun, -⟩ := step_spec (e := .block reason regs framePtr) h hrange trivial
    rw [hrun]
    rfl

end Scheduler

/-! ## The three calls -/

variable {α : Type} {k : Nat} {regs : AllRegisters} {framePtr : U64}

namespace Channel

variable {slot : Side → TaskId} {s : Sys α k} {me : Side}

theorem blockReason_inRange_iff (slot : Side → TaskId) (me : Side) :
    (blockReason slot me).InRange ↔ slot me.other < maxTasks := by
  cases me <;> rfl

/-- `send` and `recv` can block without a panic if and only if the partner has a slot. -/
theorem advance_block_isSome_iff (h : Settled s.sched) (hpc : s.pc me = .block) :
    (s.advance slot me regs framePtr).isSome ↔ slot me.other < maxTasks := by
  have hblock : (s.sched.step (.block (blockReason slot me) regs framePtr)).isSome ↔ _ :=
    step_block_isSome_iff h
  rw [← blockReason_inRange_iff, ← hblock]
  unfold Sys.advance
  rw [hpc]
  cases s.sched.step (.block (blockReason slot me) regs framePtr) <;> rfl

/-- `n` steps of a party that nobody interrupts. -/
def Sys.advances (slot : Side → TaskId) (me : Side) (regs : AllRegisters) (framePtr : U64) :
    Nat → Sys α k → Option (Sys α k)
  | 0, s => some s
  | n + 1, s => (s.advance slot me regs framePtr).bind (Sys.advances slot me regs framePtr n)

/-- On a full or an empty ring `send` and `recv` fail twice and block. -/
theorem advances_to_block (hpc : s.pc me = .attempt true) (hfail : canOperate s.ring me = false) :
    ∃ s' : Sys α k, s'.sched = s.sched ∧ s'.pc me = .block ∧
      s.advances slot me regs framePtr 4 = s'.advance slot me regs framePtr := by
  set s₁ := s.setPc me .raise with hs₁
  set s₂ := (s₁.setWaiting me true).setPc me .recheck with hs₂
  have h₁ : s.advance slot me regs framePtr = some s₁ := by
    unfold Sys.advance
    rw [hpc]
    simp only [operate_eq_none.mpr hfail, if_true, hs₁]
  have h₂ : s₁.advance slot me regs framePtr = some s₂ := by
    unfold Sys.advance
    rw [hs₁, setPc_self]
  have h₃ : s₂.advance slot me regs framePtr = some (s₂.setPc me .block) := by
    have hfail₂ : canOperate s₂.ring me = false := hfail
    unfold Sys.advance
    rw [show s₂.pc me = .recheck from setPc_self _ _ _]
    simp only [operate_eq_none.mpr hfail₂]
  refine ⟨s₂.setPc me .block, rfl, setPc_self _ _ _, ?_⟩
  simp only [Sys.advances, h₁, h₂, h₃, bind_some, bind_fun_some]

end Channel

theorem BeastSpscRing.waitDequeue_isSome_iff {ring : BeastSpscRing α k} {sched : Scheduler}
    (h : Settled sched) :
    (ring.waitDequeue sched regs framePtr).isSome ↔ ring.head ≠ ring.tail := by
  have hblock : (sched.step (.block (.spscRingEmpty noTask) regs framePtr)).isSome ↔ _ :=
    step_block_isSome_iff h
  by_cases hempty : ring.head = ring.tail
  · have hrange : ¬ (BlockReason.spscRingEmpty noTask).InRange := by
      show ¬ noTask < maxTasks
      decide
    have hpanic : sched.step (.block (.spscRingEmpty noTask) regs framePtr) = none := by
      rw [← not_isSome_iff_eq_none, hblock]
      exact hrange
    have hnone : ring.waitDequeue sched regs framePtr = none := by
      unfold waitDequeue tryDequeue
      rw [if_pos hempty]
      simp only [hpanic, bind_eq_bind, bind_none]
    rw [hnone]
    exact iff_of_false Bool.false_ne_true fun hne => hne hempty
  · refine iff_of_true ?_ hempty
    unfold waitDequeue tryDequeue
    rw [if_neg hempty]
    rfl

/-- **Which waits panic.** `send` and `recv` block safely exactly if the other side is registered,
with a slot of the task table, and `wait_dequeue` never does. The second statement is about a whole
round of `send` or `recv` on a ring that is full or empty. -/
theorem ringWaits_inTable_iff (regs : AllRegisters) (framePtr : U64) :
    (∀ (slot : Channel.Side → TaskId) (s : Channel.Sys α k) me, Settled s.sched →
      s.pc me = .block →
      ((s.advance slot me regs framePtr).isSome ↔ slot me.other < maxTasks)) ∧
    (∀ (slot : Channel.Side → TaskId) (s : Channel.Sys α k) me, Settled s.sched →
      s.pc me = .attempt true → Channel.canOperate s.ring me = false →
      ((s.advances slot me regs framePtr 4).isSome ↔ slot me.other < maxTasks)) ∧
    ∀ (ring : BeastSpscRing α k) sched, Settled sched →
      ((ring.waitDequeue sched regs framePtr).isSome ↔ ring.head ≠ ring.tail) := by
  refine ⟨fun slot s me hset hpc => Channel.advance_block_isSome_iff hset hpc, ?_,
    fun ring sched hset => BeastSpscRing.waitDequeue_isSome_iff hset⟩
  intro slot s me hset hpc hfail
  obtain ⟨s', hsched, hblock, hrun⟩ := Channel.advances_to_block hpc hfail
  rw [hrun]
  exact Channel.advance_block_isSome_iff (by rw [hsched]; exact hset) hblock

/-- A channel as it is created, on which the current task has just called `recv`. -/
def Channel.Sys.receiving (sched : Scheduler) (fill : α) : Channel.Sys α k where
  sched := sched
  ring := ⟨0, 0, fun _ => fill⟩
  waiting := fun _ => false
  pc := Function.update (fun _ => .idle) .consumer (.attempt true)
  outbox := fill
  inbox := none

/-- A kernel with one task, which is running. -/
theorem exists_settled : ∃ sched, Settled sched := by
  obtain ⟨s₀, s₁, d, hboot, hrun⟩ : ∃ s₀ s₁ d,
      bootStep Scheduler.new spawnFirst s₀ ∧
      s₀.run = some (s₁, d) := ⟨_, _, _, ⟨trivial, trivial, none, rfl⟩, rfl⟩
  exact ⟨s₁, (settled_of_boot (.single hboot) hrun).1⟩

/-- With a producer in slot 0 the task waits, and is boosted along with the producer. -/
theorem ringWaits_registered : ∃ sched, Settled sched ∧
    ((Channel.Sys.receiving sched 0 : Channel.Sys Nat 1).advances (fun _ => 0) .consumer default 0
      4).isSome := by
  obtain ⟨sched, hset⟩ := exists_settled
  refine ⟨sched, hset, ?_⟩
  exact ((ringWaits_inTable_iff default 0).2.1 (fun _ => 0) (Channel.Sys.receiving sched 0)
    .consumer hset rfl rfl).mpr (by decide)

/-- Nobody has registered: `recv` on the new channel panics, and so does `wait_dequeue` on a new
ring, whether or not its consumer has registered. -/
theorem ringWaits_unregistered : ∃ sched, Reachable sched ∧
    (Channel.Sys.receiving sched 0 : Channel.Sys Nat 1).advances (fun _ => noTask) .consumer
      default 0 4 = none ∧
    (BeastSpscRing.new 0 : BeastSpscRing Nat 1).waitDequeue sched default 0 = none ∧
    ((BeastSpscRing.new 0 : BeastSpscRing Nat 1).setConsumer 0).waitDequeue sched default 0 =
      none := by
  have hboot : bootStep Scheduler.new spawnFirst _ := ⟨trivial, trivial, none, rfl⟩
  exact ⟨_, ⟨_, _, _, _, [], .single hboot, rfl, .nil⟩, rfl, rfl, rfl⟩

end BeastOs
