import BeastOs.Ring.Spsc
import BeastOs.Scheduler.Slots

/-!
# Channels

`Channel` of `kernel/src/ipc/channel.rs`: a ring shared by one producer and one consumer task, each
with a flag that says it is about to block. `send` and `recv` are mirror images, so both are one
program here, with the party's ring operation and its partner as parameters:

* attempt the operation; if it succeeds, take down the partner's flag and, if it was up, wake the
  partner;
* otherwise raise the own flag and attempt again; if that fails too, block.

Each line is a step of its own, and a party takes a step only while its task is the current one.
Between steps the kernel may do anything else: tick, yield, spawn, wake any task, and run other
tasks, which may block, exit or exec.

`block_current` does not look at `awake_pending`: a wake-up that arrives after the second attempt
and before the block is lost. No wake-up is lost in a run in which every party that blocks still has
its flag raised, or has a partner that is about to wake it.

Main result: `noLostWakeup_of_blocksSafely`; in the run of `lostWakeup_pair` a wake-up is lost.
-/

namespace BeastOs.Channel

open Function Lib Scheduler

inductive Side where
  | producer
  | consumer
  deriving DecidableEq, Repr

def Side.other : Side → Side
  | .producer => .consumer
  | .consumer => .producer

theorem Side.eq_or_eq_other (me you : Side) : you = me ∨ you = me.other := by
  cases me <;> cases you <;> simp [Side.other]

theorem Side.other_other (me : Side) : me.other.other = me := by cases me <;> rfl

theorem Side.other_ne (me : Side) : me.other ≠ me := by cases me <;> simp [Side.other]

/-- Where a party stands: what it does next. -/
inductive Pc where
  | idle
  /-- the first `try_send` or `try_recv`; `blocking` tells `send` and `recv` from these -/
  | attempt (blocking : Bool)
  /-- in `maybe_wake_…`: swap the partner's flag; `again` tells the second attempt from the first -/
  | swap (again : Bool)
  /-- in `maybe_wake_…`: `wake_task` -/
  | wake (again : Bool)
  /-- store `true` to the own flag -/
  | raise
  /-- the second `try_send` or `try_recv` -/
  | recheck
  /-- store `false` to the own flag -/
  | clear
  /-- `block_current` -/
  | block
  deriving DecidableEq, Repr

structure Sys (α : Type) (k : Nat) where
  sched : Scheduler
  ring : SpscRing α k
  waiting : Side → Bool
  pc : Side → Pc
  /-- what the producer is sending -/
  outbox : α
  /-- what the consumer last received -/
  inbox : Option α

variable {α : Type} {k : Nat} {slot : Side → TaskId} {me : Side} {e : Event} {sched : Scheduler}
  {again : Bool} {d : Option Dispatch} {regs : AllRegisters}

/-- The party's ring operation; `none` when it fails. -/
def Sys.operate (s : Sys α k) : Side → Option (Sys α k)
  | .producer =>
    match s.ring.tryPush s.outbox with
    | (true, ring) => some { s with ring }
    | (false, _) => none
  | .consumer =>
    match s.ring.tryPop with
    | (some value, ring) => some { s with ring, inbox := some value }
    | (none, _) => none

def Sys.setPc (s : Sys α k) (me : Side) (pc : Pc) : Sys α k :=
  { s with pc := Function.update s.pc me pc }

def Sys.setWaiting (s : Sys α k) (me : Side) (b : Bool) : Sys α k :=
  { s with waiting := Function.update s.waiting me b }

section

variable (s : Sys α k) (me : Side)

@[simp] theorem setPc_self (pc : Pc) : (s.setPc me pc).pc me = pc :=
  update_self _ _ _

@[simp] theorem setPc_other (pc : Pc) : (s.setPc me pc).pc me.other = s.pc me.other :=
  update_of_ne me.other_ne _ _

@[simp] theorem setWaiting_self (b : Bool) : (s.setWaiting me b).waiting me = b :=
  update_self _ _ _

@[simp] theorem setWaiting_other (b : Bool) :
    (s.setWaiting me b).waiting me.other = s.waiting me.other :=
  update_of_ne me.other_ne _ _

end

/-- After `maybe_wake_…`: the first attempt returns, the second takes down the own flag first. -/
def afterWake (again : Bool) : Pc := if again then .clear else .idle

/-- Why a party blocks; `slot` gives the registered task slots. -/
def blockReason (slot : Side → TaskId) : Side → BlockReason
  | .producer => .spscRingFull (slot .consumer)
  | .consumer => .spscRingEmpty (slot .producer)

/-- The party's next step. -/
def Sys.advance (slot : Side → TaskId) (s : Sys α k) (me : Side) (regs : AllRegisters)
    (framePtr : U64) : Option (Sys α k) :=
  match s.pc me with
  | .idle => none
  | .attempt blocking =>
    match s.operate me with
    | some s => some (s.setPc me (.swap false))
    | none => some (s.setPc me (if blocking then .raise else .idle))
  | .swap again =>
    let s' := s.setWaiting me.other false
    some (s'.setPc me (if s.waiting me.other then .wake again else afterWake again))
  | .wake again => do
    let sched ← s.sched.wakeTask (slot me.other)
    return { s with sched }.setPc me (afterWake again)
  | .raise => some ((s.setWaiting me true).setPc me .recheck)
  | .recheck =>
    match s.operate me with
    | some s => some (s.setPc me (.swap true))
    | none => some (s.setPc me .block)
  | .clear => some ((s.setWaiting me false).setPc me .idle)
  | .block => do
    let (sched, _) ← s.sched.step (.block (blockReason slot me) regs framePtr)
    return { s with sched }.setPc me (.attempt true)

/-- What can happen to a task whatever it is doing. -/
def preempts : Event → Bool
  | .timer .. | .yield .. | .wake .. | .spawn .. | .spawnUser .. => true
  | _ => false

inductive Action (α : Type) where
  /-- a call of `send` or `try_send` with this value -/
  | send (blocking : Bool) (value : α)
  /-- a call of `recv` or `try_recv` -/
  | recv (blocking : Bool)
  | advance (me : Side) (regs : AllRegisters) (framePtr : U64)
  | kernel (e : Event)

def Action.Allowed : Action α → Prop
  | .kernel e => e.Allowed
  | _ => True

/-- One step of the channel whose registered tasks are in the slots `slot`. -/
def Sys.step (slot : Side → TaskId) (s : Sys α k) : Action α → Option (Sys α k)
  | .send blocking value =>
    if s.sched.current = slot .producer ∧ s.pc .producer = .idle then
      some ({ s with outbox := value }.setPc .producer (.attempt blocking))
    else none
  | .recv blocking =>
    if s.sched.current = slot .consumer ∧ s.pc .consumer = .idle then
      some (s.setPc .consumer (.attempt blocking))
    else none
  | .advance me regs framePtr =>
    if s.sched.current = slot me then s.advance slot me regs framePtr else none
  | .kernel e =>
    if preempts e ∨ (s.sched.current ≠ slot .producer ∧ s.sched.current ≠ slot .consumer) then
      (s.sched.step e).map fun p => { s with sched := p.1 }
    else none

def Step (slot : Side → TaskId) (s : Sys α k) (a : Action α) (s' : Sys α k) : Prop :=
  a.Allowed ∧ s.step slot a = some s'

/-! ## Lost wake-ups -/

def Blocked (slot : Side → TaskId) (s : Sys α k) (me : Side) : Prop :=
  ∃ t, s.sched.tasks (slot me) = some t ∧ t.state = .blocked

/-- The party's operation would succeed: the ring has room, or has a value. -/
def canOperate (r : SpscRing α k) : Side → Bool
  | .producer => !r.isFull
  | .consumer => !r.isEmpty

/-- The party is in the middle of a call that will still wake its partner. -/
def WillWake (s : Sys α k) (me : Side) : Prop :=
  ∃ again, s.pc me = .wake again ∨ s.pc me = .swap again ∧ s.waiting me.other = true

/-- No party is blocked although it could go on and its partner is not about to wake it. -/
def NoLostWakeup (slot : Side → TaskId) (s : Sys α k) : Prop :=
  ∀ me, Blocked slot s me → canOperate s.ring me = true → WillWake s me.other

/-- A party that blocks has its flag raised, or a partner about to wake it. -/
def BlocksSafely (slot : Side → TaskId) (t : Transition (Sys α k) (Action α)) : Prop :=
  ∀ me regs framePtr, t.label = .advance me regs framePtr → t.src.pc me = .block →
    Blocked slot t.dst me → t.src.waiting me = true ∨ ∃ again, t.src.pc me.other = .wake again

/-! ## The invariant -/

/-- The two tasks exist under ids equal to their slots, which is what `wake_task` looks for. -/
structure Registered (slot : Side → TaskId) (sched : Scheduler) : Prop where
  slot_lt : ∀ me, slot me < maxTasks
  ne : slot .producer ≠ slot .consumer
  exists_task : ∀ me, ∃ t, sched.tasks (slot me) = some t ∧ t.id = slot me
  unique : ∀ me j t, sched.tasks j = some t → t.id = slot me → j = slot me
  lt_nextId : ∀ me, slot me < sched.nextId

structure Inv (slot : Side → TaskId) (s : Sys α k) : Prop where
  settled : Settled s.sched
  registered : Registered slot s.sched
  blocked : ∀ me, Blocked slot s me → s.waiting me = true ∨ ∃ again, s.pc me.other = .wake again
  /-- past its second attempt, a party that can operate and has its flag up has been overtaken by
  its partner's operation -/
  signalled : ∀ me, s.pc me = .block ∨ Blocked slot s me → s.waiting me = true →
    canOperate s.ring me = true → ∃ again, s.pc me.other = .swap again

variable {s s' : Sys α k} (h : Inv slot s)

include h in
theorem Inv.noLostWakeup : NoLostWakeup slot s := by
  intro me hblocked hcan
  rcases h.blocked me hblocked with hflag | ⟨again, hwake⟩
  · obtain ⟨again, hswap⟩ := h.signalled me (.inr hblocked) hflag hcan
    refine ⟨again, Or.inr ⟨hswap, ?_⟩⟩
    cases me <;> exact hflag
  · exact ⟨again, Or.inl hwake⟩

theorem registered_of_distinctIds (h : DistinctIds sched)
    (hne : slot .producer ≠ slot .consumer)
    (htask : ∀ me, ∃ t, sched.tasks (slot me) = some t ∧ t.id = slot me) :
    Registered slot sched := by
  refine ⟨fun me => ?_, hne, htask, fun me j u hu heq => ?_, fun me => ?_⟩ <;>
    obtain ⟨t, ht, hid⟩ := htask me
  · exact h.lt_maxTasks ht
  · exact h.inj hu ht (heq.trans hid.symm)
  · rw [← hid]
    exact h.id_lt ht

theorem Registered.slot_other_ne (h : Registered slot s.sched) (me : Side) :
    slot me.other ≠ slot me := by
  cases me
  · exact h.ne.symm
  · exact h.ne

theorem Registered.idStep {sched' : Scheduler} {blocks : Prop} {stack : Option (Option U64)}
    (h : Registered slot sched) (hids : IdStep blocks sched stack sched') :
    Registered slot sched' := by
  refine ⟨h.slot_lt, h.ne, ?_, ?_, fun me => Nat.lt_of_lt_of_le (h.lt_nextId me) hids.nextId_le⟩
  · intro me
    obtain ⟨t, ht, hid⟩ := h.exists_task me
    obtain ⟨t', ht', hid'⟩ := hids.exists_task ht
    exact ⟨t', ht', hid'.trans hid⟩
  · intro me j t' ht' hid
    rcases hids.exists_old ht' with ⟨t, ht, heq⟩ | hnew
    · exact h.unique me j t ht (heq.trans hid)
    · -- a new task has an id that was not taken
      exact absurd (hid.symm.trans hnew) (Nat.ne_of_lt (h.lt_nextId me))

include h in
/-- The task that runs is not blocked. -/
theorem Inv.not_blocked (hcur : s.sched.current = slot me) : ¬ Blocked slot s me := by
  rintro ⟨t, ht, hb⟩
  obtain ⟨u, hu, hrun⟩ := h.settled.exists_current
  rw [hcur, ht] at hu
  cases hu
  rw [hb] at hrun
  cases hrun

include h in
/-- A party that is neither at its swap nor at its wake-up owes its partner nothing. -/
theorem Inv.owes_nothing (me : Side) (hswap : ∀ again, s.pc me ≠ .swap again)
    (hwake : ∀ again, s.pc me ≠ .wake again) :
    (Blocked slot s me.other → s.waiting me.other = true) ∧
      (s.pc me.other = .block ∨ Blocked slot s me.other → s.waiting me.other = true →
        canOperate s.ring me.other = false) := by
  constructor
  · intro hblocked
    rcases h.blocked me.other hblocked with hflag | ⟨again, hpc⟩
    · exact hflag
    · rw [Side.other_other] at hpc
      exact absurd hpc (hwake again)
  · intro hpast hflag
    by_contra hcan
    obtain ⟨again, hpc⟩ := h.signalled me.other hpast hflag (Bool.not_eq_false _ ▸ hcan)
    rw [Side.other_other] at hpc
    exact hswap again hpc

/-- What a step of `me`, after which it is not blocked, has to keep. -/
theorem inv_of_step (me : Side) (hsettled : Settled s'.sched)
    (hregistered : Registered slot s'.sched) (hme : ¬ Blocked slot s' me)
    (hblock : s'.pc me = .block → canOperate s'.ring me = false)
    (hblocked : Blocked slot s' me.other →
      s'.waiting me.other = true ∨ ∃ again, s'.pc me = .wake again)
    (hsignalled : s'.pc me.other = .block ∨ Blocked slot s' me.other →
      s'.waiting me.other = true → canOperate s'.ring me.other = true →
      ∃ again, s'.pc me = .swap again) : Inv slot s' := by
  refine ⟨hsettled, hregistered, ?_, ?_⟩
  · intro you hyou
    rcases Side.eq_or_eq_other me you with rfl | rfl
    · exact absurd hyou hme
    · rw [Side.other_other]
      exact hblocked hyou
  · intro you hyou hflag hcan
    rcases Side.eq_or_eq_other me you with rfl | rfl
    · rcases hyou with hpc | hyou
      · rw [hblock hpc] at hcan
        cases hcan
      · exact absurd hyou hme
    · rw [Side.other_other]
      exact hsignalled hyou hflag hcan

section

variable (h : Inv slot s)
  (me : Side) (hcur : s.sched.current = slot me) (hswap : ∀ again, s.pc me ≠ .swap again)
  (hwake : ∀ again, s.pc me ≠ .wake again)
include h hcur hswap hwake

/-- A step of `me` from a place where it owes nothing, to one that is not its block. -/
theorem Inv.quiet_step (hsched : s'.sched = s.sched) (hring : s'.ring = s.ring)
    (hflag : s'.waiting me.other = s.waiting me.other) (hpc : s'.pc me.other = s.pc me.other)
    (hblock : s'.pc me = .block → canOperate s.ring me = false) : Inv slot s' := by
  obtain ⟨howes₁, howes₂⟩ := h.owes_nothing me hswap hwake
  have hb : ∀ you, Blocked slot s' you ↔ Blocked slot s you := by
    intro you
    unfold Blocked
    rw [hsched]
  refine inv_of_step me (by rw [hsched]; exact h.settled)
    (by rw [hsched]; exact h.registered) ?_ ?_ ?_ ?_
  · rw [hb]
    exact h.not_blocked hcur
  · rw [hring]
    exact hblock
  · rw [hb, hflag]
    exact fun hyou => Or.inl (howes₁ hyou)
  · rw [hb, hflag, hpc, hring]
    intro hyou hf hcan
    rw [howes₂ hyou hf] at hcan
    cases hcan

/-- The same for a side that does not go on to block. -/
theorem Inv.setPc_step {s₁ : Sys α k} {pc : Pc} (hsched : s₁.sched = s.sched)
    (hring : s₁.ring = s.ring) (hflag : s₁.waiting me.other = s.waiting me.other)
    (hpcs : s₁.pc = s.pc) (hpc : pc ≠ .block) : Inv slot (s₁.setPc me pc) := by
  refine h.quiet_step me hcur hswap hwake hsched hring hflag ?_ ?_
  · rw [setPc_other, hpcs]
  · intro hblock
    rw [setPc_self] at hblock
    exact absurd hblock hpc

end

variable (hcur : s.sched.current = slot me)

include h hcur in
/-- A successful operation of `me` moves it to its swap. -/
theorem Inv.operate_step
    (hswap : ∀ again, s.pc me ≠ .swap again) (hwake : ∀ again, s.pc me ≠ .wake again)
    (hsched : s'.sched = s.sched) (hflag : s'.waiting = s.waiting)
    (hpc : s'.pc = update s.pc me (.swap again)) : Inv slot s' := by
  have hb : ∀ you, Blocked slot s' you ↔ Blocked slot s you := by
    intro you
    unfold Blocked
    rw [hsched]
  have hme : s'.pc me = .swap again := by rw [hpc, update_self]
  refine inv_of_step me (by rw [hsched]; exact h.settled)
    (by rw [hsched]; exact h.registered) ?_ ?_ ?_ (fun _ _ _ => ⟨again, hme⟩)
  · rw [hb]
    exact h.not_blocked hcur
  · rw [hme]
    intro hne
    cases hne
  · rw [hb, hflag]
    exact fun hyou => Or.inl ((h.owes_nothing me hswap hwake).1 hyou)

theorem operate_eq_some (h : s.operate me = some s') :
    s'.sched = s.sched ∧ s'.waiting = s.waiting ∧ s'.pc = s.pc := by
  cases me with
  | producer | consumer =>
    simp only [Sys.operate] at h
    split at h
    · cases h
      exact ⟨rfl, rfl, rfl⟩
    · cases h

theorem operate_eq_none : s.operate me = none ↔ canOperate s.ring me = false := by
  cases me with
  | producer =>
    by_cases hfull : (s.ring.head - s.ring.tail).toNat ≥ s.ring.capacity <;>
      simp [Sys.operate, SpscRing.tryPush, canOperate, SpscRing.isFull, hfull, -BitVec.toNat_sub]
  | consumer =>
    by_cases hempty : s.ring.head = s.ring.tail <;>
      simp [Sys.operate, SpscRing.tryPop, canOperate, SpscRing.isEmpty, hempty, Ne.symm]

/-! ## Steps -/

include h hcur in
theorem Inv.swap_step (hpc : s.pc me = .swap again)
    (hs' : s' = (s.setWaiting me.other false).setPc me
      (if s.waiting me.other then .wake again else afterWake again)) : Inv slot s' := by
  subst hs'
  refine inv_of_step me h.settled h.registered (h.not_blocked hcur) ?_ ?_ ?_
  · intro hblock
    rw [setPc_self] at hblock
    unfold afterWake at hblock
    split at hblock
    · cases hblock
    · split at hblock <;> cases hblock
  · -- a partner that is blocked had its flag up, or would have been at the wake-up already
    intro hblocked
    rcases h.blocked me.other hblocked with hflag | ⟨again', hwake⟩
    · exact .inr ⟨again, by rw [setPc_self, if_pos hflag]⟩
    · rw [Side.other_other, hpc] at hwake
      cases hwake
  · intro _ hflag _
    cases (setWaiting_self s me.other false).symm.trans hflag

include h hcur in
theorem Inv.wake_step
    (hpc : s.pc me = .wake again) (hsched : s.sched.wakeTask (slot me.other) = some sched)
    (hs' : s' = { s with sched }.setPc me (afterWake again)) : Inv slot s' := by
  subst hs'
  have hstep : s.sched.step (.wake (slot me.other)) = some (sched, none) := by
    simp only [Scheduler.step, hsched, Option.map_some]
  have hsettled := (step_keeps (e := .wake _) h.settled trivial hstep).1
  have hids := idStep_of_systemStep (l := .event (.wake _)) ⟨none, hstep⟩
  have hnot :
      ¬ Blocked slot (({ s with sched } : Sys α k).setPc me (afterWake again)) me.other := by
    obtain ⟨t, ht, hid⟩ := h.registered.exists_task me.other
    have hfind := findTask_of_unique (h.registered.slot_lt me.other) ht hid
      (h.registered.unique me.other)
    have hu : sched.tasks (slot me.other) = some t.woken := by
      rw [tasks_of_wakeTask hfind ht hsched, update_self]
    rintro ⟨v, hv, hvb⟩
    cases hu.symm.trans hv
    exact t.woken_not_blocked hvb
  refine inv_of_step me hsettled (h.registered.idStep hids) ?_ ?_
    (fun hb => absurd hb hnot) ?_
  · rintro ⟨t, ht, hb⟩
    rcases hids.blocked ht hb with ⟨hfalse, -⟩ | hold
    · exact hfalse
    · exact h.not_blocked hcur hold
  · intro hblock
    rw [setPc_self] at hblock
    unfold afterWake at hblock
    split at hblock <;> cases hblock
  · rw [setPc_other]
    rintro (hblock | hblocked) hflag hcan
    · obtain ⟨again', hswap⟩ := h.signalled me.other (.inl hblock) hflag hcan
      rw [Side.other_other, hpc] at hswap
      cases hswap
    · exact absurd hblocked hnot

theorem blockReason_inRange (h : Registered slot s.sched) (me : Side) :
    (blockReason slot me).InRange := by
  cases me
  · exact h.slot_lt .consumer
  · exact h.slot_lt .producer

include h hcur in
theorem Inv.block_step {framePtr : U64}
    (hpc : s.pc me = .block)
    (hsched : s.sched.step (.block (blockReason slot me) regs framePtr) = some (sched, d))
    (hs' : s' = { s with sched }.setPc me (.attempt true))
    (hsafe : Blocked slot s' me → s.waiting me = true ∨ ∃ again, s.pc me.other = .wake again) :
    Inv slot s' := by
  subst hs'
  have hsettled :=
    (step_keeps (e := .block _ _ _) h.settled (blockReason_inRange h.registered me) hsched).1
  have hids := idStep_of_systemStep (l := .event (.block _ _ _)) ⟨d, hsched⟩
  -- only the current task has become blocked
  have hother : Blocked slot (({ s with sched } : Sys α k).setPc me (.attempt true)) me.other →
      Blocked slot s me.other := by
    rintro ⟨t, ht, hb⟩
    rcases hids.blocked ht hb with ⟨-, hslot⟩ | hold
    · exact absurd (hslot.trans hcur) (h.registered.slot_other_ne me)
    · exact hold
  obtain ⟨howes₁, howes₂⟩ := h.owes_nothing me (by simp [hpc]) (by simp [hpc])
  refine ⟨hsettled, h.registered.idStep hids, ?_, ?_⟩
  · intro you hblocked
    rcases Side.eq_or_eq_other me you with rfl | rfl
    · rw [setPc_other]
      exact hsafe hblocked
    · exact .inl (howes₁ (hother hblocked))
  · intro you hpast hflag hcan
    rcases Side.eq_or_eq_other me you with rfl | rfl
    · rw [setPc_other]
      exact h.signalled you (.inl hpc) hflag hcan
    · rw [setPc_other] at hpast
      have hfalse := howes₂ (hpast.imp id hother) hflag
      rw [show canOperate s.ring me.other = true from hcan] at hfalse
      cases hfalse

include h in
theorem Inv.kernel_step (he : e.Allowed)
    (hother : preempts e = true ∨ ∀ me, s.sched.current ≠ slot me)
    (hsched : s.sched.step e = some (sched, d)) : Inv slot { s with sched } := by
  have hids := idStep_of_systemStep (l := .event e) ⟨d, hsched⟩
  have hb : ∀ me, Blocked slot ({ s with sched } : Sys α k) me → Blocked slot s me := by
    rintro me ⟨t, ht, hb⟩
    rcases hids.blocked ht hb with ⟨hblocks, hslot⟩ | hold
    · rcases hother with hpre | hcur
      · cases e <;> first | exact absurd hblocks id | cases hpre
      · exact absurd hslot.symm (hcur me)
    · exact hold
  exact ⟨(step_keeps h.settled he hsched).1, h.registered.idStep hids,
    fun me hme => h.blocked me (hb me hme),
    fun me hpast hflag hcan => h.signalled me (hpast.imp id (hb me)) hflag hcan⟩

include h hcur in
/-- A step inside `send` or `recv` keeps the invariant. -/
theorem Inv.advance {framePtr : U64}
    (hstep : s.advance slot me regs framePtr = some s')
    (hsafe : s.pc me = .block → Blocked slot s' me →
      s.waiting me = true ∨ ∃ again, s.pc me.other = .wake again) : Inv slot s' := by
  unfold Sys.advance at hstep
  cases hpc : s.pc me with
  | idle =>
    rw [hpc] at hstep
    cases hstep
  | attempt blocking =>
    rw [hpc] at hstep
    dsimp only at hstep
    split at hstep
    · next s₁ hop =>
        cases hstep
        obtain ⟨hsched, hwaiting, hpcs⟩ := operate_eq_some hop
        exact h.operate_step hcur (by simp [hpc]) (by simp [hpc]) hsched hwaiting
          (congrArg (update · me _) hpcs)
    · cases hstep
      refine h.setPc_step me hcur (by simp [hpc]) (by simp [hpc]) rfl rfl rfl rfl ?_
      split <;> exact nofun
  | swap again =>
    rw [hpc] at hstep
    cases hstep
    exact h.swap_step hcur hpc rfl
  | wake again =>
    rw [hpc] at hstep
    obtain ⟨sched, hsched, hret⟩ := Option.bind_eq_some_iff.mp hstep
    cases hret
    exact h.wake_step hcur hpc hsched rfl
  | raise | clear =>
    rw [hpc] at hstep
    cases hstep
    exact h.setPc_step me hcur (by simp [hpc]) (by simp [hpc]) rfl rfl
      (setWaiting_other _ _ _) rfl nofun
  | recheck =>
    rw [hpc] at hstep
    dsimp only at hstep
    split at hstep
    · next s₁ hop =>
        cases hstep
        obtain ⟨hsched, hwaiting, hpcs⟩ := operate_eq_some hop
        exact h.operate_step hcur (by simp [hpc]) (by simp [hpc]) hsched hwaiting
          (congrArg (update · me _) hpcs)
    · next hop =>
        cases hstep
        exact h.quiet_step me hcur (by simp [hpc]) (by simp [hpc]) rfl rfl rfl
          (setPc_other _ _ _) (fun _ => operate_eq_none.mp hop)
  | block =>
    rw [hpc] at hstep
    obtain ⟨⟨sched, d⟩, hsched, hret⟩ := Option.bind_eq_some_iff.mp hstep
    cases hret
    exact h.block_step hcur hpc hsched rfl (hsafe hpc)

include h in
theorem Inv.step {a : Action α} (hstep : Step slot s a s')
    (hsafe : BlocksSafely slot ⟨s, a, s'⟩) : Inv slot s' := by
  obtain ⟨hallowed, hstep⟩ := hstep
  cases a with
  | send blocking value =>
    simp only [Sys.step] at hstep
    split at hstep
    · next hguard =>
        obtain ⟨hcur, hpc⟩ := hguard
        cases hstep
        exact h.setPc_step .producer hcur (by simp [hpc]) (by simp [hpc]) rfl rfl rfl rfl nofun
    · cases hstep
  | recv blocking =>
    simp only [Sys.step] at hstep
    split at hstep
    · next hguard =>
        obtain ⟨hcur, hpc⟩ := hguard
        cases hstep
        exact h.setPc_step .consumer hcur (by simp [hpc]) (by simp [hpc]) rfl rfl rfl rfl nofun
    · cases hstep
  | advance me regs framePtr =>
    simp only [Sys.step] at hstep
    split at hstep
    · next hcur => exact h.advance hcur hstep (hsafe me regs framePtr rfl)
    · cases hstep
  | kernel e =>
    simp only [Sys.step] at hstep
    split at hstep
    · next hguard =>
        obtain ⟨⟨sched, d⟩, hsched, heq⟩ := Option.map_eq_some_iff.mp hstep
        cases heq
        refine h.kernel_step hallowed (hguard.imp id ?_) hsched
        rintro ⟨hproducer, hconsumer⟩ me
        cases me
        · exact hproducer
        · exact hconsumer
    · cases hstep

/-! ## Runs -/

/-- A new channel between two registered tasks that are not in a call and not blocked. -/
structure Start (slot : Side → TaskId) (s : Sys α k) : Prop where
  settled : Settled s.sched
  registered : Registered slot s.sched
  not_blocked : ∀ me, ¬ Blocked slot s me
  idle : ∀ me, s.pc me = .idle

theorem Start.inv (h : Start slot s) : Inv slot s := by
  refine ⟨h.settled, h.registered, fun me hme => absurd hme (h.not_blocked me), ?_⟩
  rintro me (hpc | hblocked)
  · rw [h.idle me] at hpc
    cases hpc
  · exact absurd hblocked (h.not_blocked me)

/-- **No lost wake-up.** In every run in which each party that blocks still has its flag raised, or
a partner about to wake it, no party is ever left blocked although it could go on. -/
theorem noLostWakeup_of_blocksSafely {τ : List (Transition (Sys α k) (Action α))}
    (hstart : Start slot s) (hrun : Run (Step slot) s τ s')
    (hsafe : ∀ t ∈ τ, BlocksSafely slot t) : NoLostWakeup slot s' := by
  have hinv : Inv slot s' :=
    hrun.invariant hstart.inv (fun _ _ _ h hstep hsafe => h.step hstep hsafe) hsafe
  exact hinv.noLostWakeup

/-- The consumer in slot 0, which runs, and the producer in slot 1, around a ring of two slots. -/
def pair : Option (Sys Nat 1) := do
  let (s, _) ← Scheduler.new.step
    (.spawn ⟨0, 0, 0⟩ (some 0x100000) 0x1000 0x400000 "consumer" 0)
  let (s, _) ← s.step (.spawn ⟨0, 0, 0⟩ (some 0x200000) 0x1000 0x500000 "producer" 0)
  let (sched, _) ← s.run
  return ⟨sched, ⟨0, 0, fun _ => 0⟩, fun _ => false, fun _ => .idle, 0, none⟩

def pairSlot : Side → TaskId
  | .producer => 1
  | .consumer => 0

theorem start_pair : ∃ s, pair = some s ∧ Start pairSlot s := by
  obtain ⟨s, s₀, s₁, d, t, u, hpair, h₀, h₁, hrun, ht, hu, hid, hid', hready, hrunning, hidle⟩ :
      ∃ s s₀ s₁ d t u, pair = some s ∧
      bootStep Scheduler.new (.spawn ⟨0, 0, 0⟩ (some 0x100000) 0x1000 0x400000 "consumer" 0) s₀ ∧
      bootStep s₀ (.spawn ⟨0, 0, 0⟩ (some 0x200000) 0x1000 0x500000 "producer" 0) s₁ ∧
      s₁.run = some (s.sched, d) ∧ s.sched.tasks 1 = some t ∧ s.sched.tasks 0 = some u ∧
      t.id = 1 ∧ u.id = 0 ∧ t.state = .ready ∧ u.state = .running ∧ ∀ me, s.pc me = .idle :=
    ⟨_, _, _, _, _, _, rfl, ⟨trivial, trivial, none, rfl⟩, ⟨trivial, trivial, none, rfl⟩, rfl, rfl,
      rfl, rfl, rfl, rfl, rfl, fun _ => rfl⟩
  have hbooted : DistinctIds s₁ :=
    (distinctIds_new.step (l := .event _) h₀.2.2).step (l := .event _) h₁.2.2
  have htasks : ∀ me, ∃ v, s.sched.tasks (pairSlot me) = some v ∧ v.id = pairSlot me ∧
      v.state ≠ .blocked
    | .producer => ⟨t, ht, hid, by rw [hready]; nofun⟩
    | .consumer => ⟨u, hu, hid', by rw [hrunning]; nofun⟩
  refine ⟨s, hpair, (settled_of_boot ((Run.single h₀).append (Run.single h₁)) hrun).1,
    registered_of_distinctIds (hbooted.step (l := .run) ⟨d, hrun⟩) (by decide) fun me => ?_, ?_,
    hidle⟩
  · obtain ⟨v, hv, hid, -⟩ := htasks me
    exact ⟨v, hv, hid⟩
  · rintro me ⟨v, hv, hblocked⟩
    obtain ⟨v', hv', -, hnot⟩ := htasks me
    cases hv.symm.trans hv'
    exact hnot hblocked

/-- The consumer blocks with its flag raised, and the producer has pushed a value and is about to
see the flag. -/
theorem noLostWakeup_pair : ∃ s s' : Sys Nat 1, ∃ τ, Start pairSlot s ∧
    Run (Step pairSlot) s τ s' ∧ Blocked pairSlot s' .consumer ∧
    canOperate s'.ring .consumer = true ∧ NoLostWakeup pairSlot s' := by
  obtain ⟨s, hpair, hstart⟩ := start_pair
  obtain ⟨s₀, s₁, s₂, s₃, s₄, s₅, s₆, h₀, h₁, h₂, h₃, h₄, h₅, h₆, hpc₁, hpc₂, hpc₃, hflag, hblocked,
      hcan⟩ :
      ∃ s₀ s₁ s₂ s₃ s₄ s₅ s₆ : Sys Nat 1, pair = some s₀ ∧
      Step pairSlot s₀ (.recv true) s₁ ∧ Step pairSlot s₁ (.advance .consumer default 0) s₂ ∧
      Step pairSlot s₂ (.advance .consumer default 0) s₃ ∧
      Step pairSlot s₃ (.advance .consumer default 0) s₄ ∧
      Step pairSlot s₄ (.advance .consumer default 0) s₅ ∧
      (∃ m, Step pairSlot s₅ (.send true 7) m ∧ m.pc .producer = .attempt true ∧
        Step pairSlot m (.advance .producer default 0) s₆) ∧
      s₁.pc .consumer = .attempt true ∧ s₂.pc .consumer = .raise ∧ s₃.pc .consumer = .recheck ∧
      s₄.waiting .consumer = true ∧
      Blocked pairSlot s₆ .consumer ∧ canOperate s₆.ring .consumer = true :=
    ⟨_, _, _, _, _, _, _, rfl, ⟨trivial, rfl⟩, ⟨trivial, rfl⟩, ⟨trivial, rfl⟩, ⟨trivial, rfl⟩,
      ⟨trivial, rfl⟩, ⟨_, ⟨trivial, rfl⟩, rfl, ⟨trivial, rfl⟩⟩, rfl, rfl, rfl, rfl,
      ⟨_, rfl, rfl⟩, rfl⟩
  rw [hpair] at h₀
  cases h₀
  obtain ⟨m, hsend, hpcm, hpush⟩ := h₆
  have hrun : Run (Step pairSlot) s _ s₆ :=
    .snoc (.snoc (.snoc (.snoc (.snoc (.snoc (.single h₁) h₂) h₃) h₄) h₅) hsend) hpush
  refine ⟨s, s₆, _, hstart, hrun, hblocked, hcan, noLostWakeup_of_blocksSafely hstart hrun ?_⟩
  intro t ht me regs framePtr hlabel hpc _
  simp only [List.nil_append, List.cons_append, List.mem_cons, List.not_mem_nil, or_false] at ht
  rcases ht with rfl | rfl | rfl | rfl | rfl | rfl | rfl
  · cases hlabel
  · cases hlabel
    cases hpc₁.symm.trans hpc
  · cases hlabel
    cases hpc₂.symm.trans hpc
  · cases hlabel
    cases hpc₃.symm.trans hpc
  · cases hlabel
    exact .inl hflag
  · cases hlabel
  · cases hlabel
    cases hpcm.symm.trans hpc

theorem exists_run_of_allowed {as : List (Action α)} (hallowed : ∀ a ∈ as, a.Allowed)
    (h : perform (Sys.step slot) s as = some s') :
    ∃ τ, Run (Step slot) s τ s' ∧ τ.map (·.label) = as := by
  obtain ⟨τ, hrun, hlabels⟩ := exists_run_of_perform h
  refine ⟨τ, hrun.imp fun t ht hstep => ⟨hallowed _ ?_, hstep⟩, hlabels⟩
  rw [← hlabels]
  exact List.mem_map_of_mem ht

/-- The consumer finds the ring empty twice and is preempted before it blocks; the producer sends
and wakes it, which only sets `awake_pending`; then the consumer blocks, with a value in the
ring. -/
theorem lostWakeup_pair : ∃ s s' : Sys Nat 1, ∃ τ, Start pairSlot s ∧
    Run (Step pairSlot) s τ s' ∧ ¬ NoLostWakeup pairSlot s' := by
  obtain ⟨s, hpair, hstart⟩ := start_pair
  obtain ⟨s', hperform, hblocked, hcan, hpc⟩ : ∃ s', (pair.bind fun s =>
      perform (Sys.step pairSlot) s [.recv true, .advance .consumer default 0,
        .advance .consumer default 0, .advance .consumer default 0, .kernel (.timer default 0),
        .send true 7, .advance .producer default 0, .advance .producer default 0,
        .advance .producer default 0, .kernel (.timer default 0),
        .advance .consumer default 0]) = some s' ∧
      Blocked pairSlot s' .consumer ∧ canOperate s'.ring .consumer = true ∧
      s'.pc .producer = .idle := ⟨_, rfl, ⟨_, rfl, rfl⟩, rfl, rfl⟩
  rw [hpair, Option.bind_some] at hperform
  obtain ⟨τ, hrun, -⟩ := exists_run_of_allowed (by simp [Action.Allowed, Event.Allowed]) hperform
  refine ⟨s, s', τ, hstart, hrun, ?_⟩
  intro hnone
  obtain ⟨again, hwake | ⟨hswap, -⟩⟩ := hnone .consumer hblocked hcan
  · cases hpc.symm.trans hwake
  · cases hpc.symm.trans hswap

end BeastOs.Channel
