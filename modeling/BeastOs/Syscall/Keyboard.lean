import BeastOs.Scheduler.Slots
import BeastOs.Syscall.Files

/-!
# Waiting for a key

`sys_read` on descriptor 0 and `push_keyboard_char` of `kernel/src/syscall/mod.rs`. A reader that
finds the keyboard buffer empty stores its slot in `KEYBOARD_WAITING_TASK`, blocks, and looks again
once it is woken; whoever pushes a character takes the slot out of the cell and wakes the task. The
cell has room for one slot, and between the store and the block a character may come in.

Each critical section is one step, and between the steps anything else can happen: interrupts, other
tasks, other readers.

Main result: `notForgotten_iff_undisturbed`.
-/

namespace BeastOs.Syscall

open Function Lib Scheduler

/-! ## The readers -/

/-- Where a task is in `sys_read(0, _, count)`. -/
inductive Phase where
  | outside
  /-- its slot is stored, `block_current` comes next -/
  | recorded (count : U64)
  /-- it is marked as blocked, the interrupt that reschedules comes next -/
  | blocked (count : U64)
  /-- it has rescheduled, and looks at the buffer once it runs again -/
  | switched (count : U64)

/-- Past the marking of `block_current`. -/
def Phase.Inside : Phase → Prop
  | .blocked _ | .switched _ => True
  | .outside | .recorded _ => False

/-- The scheduler, the keyboard, and where each task is. -/
structure Console where
  sched : Scheduler
  /-- `KEYBOARD_BUFFER` -/
  buffer : KeyboardBuffer
  /-- `KEYBOARD_WAITING_TASK` -/
  waitingTask : TaskId
  phase : TaskId → Phase

namespace Console

def new : Console where
  sched := Scheduler.new
  buffer := KeyboardBuffer.new
  waitingTask := noTask
  phase := fun _ => .outside

/-- The current task goes on to `p`. -/
def goTo (c : Console) (p : Phase) : Console :=
  { c with phase := Function.update c.phase c.sched.current p }

def withSched (c : Console) (sched : Scheduler) : Console := { c with sched }

/-! ## The critical sections -/

/-- One round of the loop of `sys_read`, up to `block_current`. -/
def look (c : Console) (count : U64) : Console :=
  if c.buffer.isEmpty then { c with waitingTask := c.sched.current }.goTo (.recorded count)
  else
    let toCopy := min count.toNat c.buffer.len
    { c with buffer := (c.buffer.popMany toCopy).2 }.goTo .outside

/-- `sys_read(0, buf, count)` by a task with this page table, up to its first block. -/
def sysRead (c : Console) (pageTable buf count : U64) : Console :=
  if buf = 0 ∨ count = 0 then c
  else if pageTable = 0 then c
  else c.look count

def pushKeyboardChar (c : Console) (ch : U8) : Option Console :=
  let c' := { c with buffer := c.buffer.push ch, waitingTask := noTask }
  if c.waitingTask ≠ noTask then (c.sched.wakeTask c.waitingTask).map c'.withSched else some c'

def popKeyboardChar (c : Console) : Console :=
  match c.buffer.pop with
  | none => c
  | some (_, buffer) => { c with buffer }

/-! ## Interleavings -/

inductive Event
  | read (buf count : U64)
  | again
  | block
  | switch (regs : AllRegisters) (framePtr : U64)
  | push (ch : U8)
  | pop
  | kernel (l : KernelEvent)

end Console

/-- Not by the current task. -/
def KernelEvent.IsInterrupt : KernelEvent → Prop
  | .event (.timer ..) | .event (.wake _) => True
  | _ => False

namespace Console

/-- A step of the current task is one it can take where it is. -/
def step (c : Console) (e : Event) (c' : Console) : Prop :=
  match e with
  | .read buf count => c.phase c.sched.current = .outside ∧
      ∃ t, c.sched.tasks c.sched.current = some t ∧ c' = c.sysRead t.pageTable buf count
  | .again => ∃ count, c.phase c.sched.current = .switched count ∧ c' = c.look count
  | .block => ∃ count, c.phase c.sched.current = .recorded count ∧
      ∃ s, c.sched.blockCurrent .waiting = some s ∧ c' = (c.goTo (.blocked count)).withSched s
  | .switch regs framePtr => ∃ count, c.phase c.sched.current = .blocked count ∧
      ∃ s d, c.sched.reschedule regs framePtr = some (s, d) ∧
        c' = (c.goTo (.switched count)).withSched s
  | .push ch => c.pushKeyboardChar ch = some c'
  | .pop => c' = c.popKeyboardChar
  | .kernel l => (¬ KernelEvent.IsInterrupt l → c.phase c.sched.current = .outside) ∧
      ∃ s, systemStep c.sched l s ∧ c' = c.withSched s

/-- Blocked inside `sys_read(0)`. -/
def Waits (c : Console) (slot : TaskId) : Prop :=
  (c.phase slot).Inside ∧ ∃ t, c.sched.tasks slot = some t ∧ t.state = .blocked

/-- Every reader that is blocked is recorded, and a character makes it ready. -/
structure NotForgotten (t : Transition Console Event) : Prop where
  recorded : ∀ slot, t.dst.Waits slot → t.dst.waitingTask = slot
  ready : ∀ ch, t.label = .push ch → ∀ slot, t.src.Waits slot →
    ∃ u, t.dst.sched.tasks slot = some u ∧ u.state = .ready

def Event.Looks : Event → Prop
  | .read .. | .again => True
  | _ => False

/-- Nothing gets between a reader and the character it waits for. -/
structure Undisturbed (t : Transition Console Event) : Prop where
  /-- a reader that stores its slot is the only one -/
  alone : t.label.Looks → ∀ count, t.dst.phase t.src.sched.current = .recorded count →
    ∀ slot, t.src.Waits slot → slot = t.src.sched.current
  /-- the slot is still stored when its task blocks -/
  stored : t.label = .block → t.src.waitingTask = t.src.sched.current
  /-- a reader that is to be woken has its slot as id -/
  found : ∀ ch, t.label = .push ch → ∀ slot u, t.src.Waits slot →
    t.src.sched.tasks slot = some u → u.id = slot

variable {c c' : Console} {e : Event} {s : Scheduler} {slot : TaskId} {t u : Task} {p : Phase}
  {l : KernelEvent} {ch : U8}

/-! ## Who waits after a step -/

theorem waits_goTo : (c.goTo p).Waits slot ↔
    if slot = c.sched.current then p.Inside ∧ ∃ t, c.sched.tasks slot = some t ∧ t.state = .blocked
    else c.Waits slot := by
  unfold Waits goTo
  dsimp only
  by_cases h : slot = c.sched.current
  · rw [if_pos h, h, update_self]
  · rw [if_neg h, update_of_ne h]

theorem waits_of_goTo (hp : ¬ p.Inside) (h : (c.goTo p).Waits slot) :
    slot ≠ c.sched.current ∧ c.Waits slot := by
  rw [waits_goTo] at h
  split at h
  · exact absurd h.1 hp
  next hne => exact ⟨hne, h⟩

/-- Tasks that were not blocked before do not wait. -/
theorem Waits.of_withSched (h : (c.withSched s).Waits slot)
    (hblocked : ∀ t', s.tasks slot = some t' → t'.state = .blocked →
      ∃ t, c.sched.tasks slot = some t ∧ t.state = .blocked) : c.Waits slot := by
  obtain ⟨hin, t', ht', hb⟩ := h
  exact ⟨hin, hblocked t' ht' hb⟩

theorem waits_of_kept (h : (c.withSched s).Waits slot) (hkept : Kept c.sched s) : c.Waits slot :=
  h.of_withSched fun t' ht' hb => hkept.blocked slot t' ht' hb

/-- A reader that goes from blocked to switched waits as before. -/
theorem waits_of_switch {count count' : U64} (hphase : c.phase c.sched.current = .blocked count)
    (hkept : Kept c.sched s) (h : ((c.goTo (.switched count')).withSched s).Waits slot) :
    c.Waits slot := by
  have hgoTo : (c.goTo (.switched count')).Waits slot := waits_of_kept h hkept
  rw [waits_goTo] at hgoTo
  split at hgoTo
  next heq =>
    refine ⟨?_, hgoTo.2⟩
    rw [heq, hphase]
    trivial
  · exact hgoTo

theorem not_blocks_of_isInterrupt (hl : KernelEvent.IsInterrupt l) : ¬ l.Blocks := by
  unfold KernelEvent.Blocks
  split
  · cases hl
  · exact id

/-- No kernel event makes a reader wait. -/
theorem waits_of_kernel (hout : ¬ KernelEvent.IsInterrupt l → c.phase c.sched.current = .outside)
    (hstep : systemStep c.sched l s) (h : (c.withSched s).Waits slot) : c.Waits slot := by
  refine h.of_withSched fun t' ht' hb =>
    ((idStep_of_systemStep hstep).blocked ht' hb).resolve_left ?_
  rintro ⟨hblocks, rfl⟩
  -- a task that blocks is outside of the call
  have hin : (c.phase c.sched.current).Inside := h.1
  rw [hout fun hl => not_blocks_of_isInterrupt hl hblocks] at hin
  exact hin

/-! ## The invariant -/

/-- Every reader that is blocked is recorded, tasks inside a call exist, and ids are distinct. -/
structure Inv (c : Console) : Prop where
  recorded : ∀ slot, c.Waits slot → c.waitingTask = slot
  present : ∀ slot, c.phase slot ≠ .outside → (c.sched.tasks slot).isSome
  distinct : DistinctIds c.sched

theorem inv_new : Inv new where
  recorded _ h := absurd h.1 id
  present _ h := absurd rfl h
  distinct := distinctIds_new

/-- What holds after a step whether or not readers are forgotten. -/
structure Frame (c : Console) : Prop where
  present : ∀ slot, c.phase slot ≠ .outside → (c.sched.tasks slot).isSome
  distinct : DistinctIds c.sched

theorem Inv.frame (h : Inv c) : Frame c := ⟨h.present, h.distinct⟩

theorem Frame.goTo (h : Frame c) (hcur : (c.sched.tasks c.sched.current).isSome) :
    Frame (c.goTo p) := by
  refine ⟨?_, h.distinct⟩
  intro slot hne
  by_cases heq : slot = c.sched.current
  · rw [heq]
    exact hcur
  · refine h.present slot ?_
    rwa [← show (c.goTo p).phase slot = c.phase slot from update_of_ne heq _ _]

theorem Frame.withSched (h : Frame c) (hkept : IdsKept True c.sched s) : Frame (c.withSched s) := by
  refine ⟨?_, h.distinct.of_idsKept hkept⟩
  intro slot hne
  show (s.tasks slot).isSome
  rw [hkept.isSome_eq slot]
  exact h.present slot hne

theorem Frame.look (h : Frame c) (hcur : (c.sched.tasks c.sched.current).isSome) (count : U64) :
    Frame (c.look count) := by
  unfold Console.look
  split
  · have hcell : Frame { c with waitingTask := c.sched.current } := ⟨h.present, h.distinct⟩
    exact hcell.goTo hcur
  · have hpopped : Frame { c with
        buffer := (c.buffer.popMany (min count.toNat c.buffer.len)).2 } := ⟨h.present, h.distinct⟩
    exact hpopped.goTo hcur

theorem Frame.kernel (h : Frame c) (hstep : systemStep c.sched l s) : Frame (c.withSched s) := by
  refine ⟨?_, h.distinct.step hstep⟩
  intro slot hne
  have hsome := h.present slot hne
  show (s.tasks slot).isSome
  obtain ⟨t, ht⟩ := Option.isSome_iff_exists.mp hsome
  obtain ⟨u, hu, -⟩ := (idStep_of_systemStep hstep).exists_task ht
  rw [hu]
  rfl

/-- What `push_keyboard_char` does apart from the buffer. -/
theorem pushKeyboardChar_eq_some (h : c.pushKeyboardChar ch = some c') :
    c'.waitingTask = noTask ∧ c'.phase = c.phase ∧
      (c.waitingTask = noTask ∧ c'.sched = c.sched ∨
        c.waitingTask ≠ noTask ∧ c.sched.wakeTask c.waitingTask = some c'.sched) := by
  unfold pushKeyboardChar at h
  split at h
  next hne =>
    obtain ⟨s, hwake, rfl⟩ := Option.map_eq_some_iff.mp h
    exact ⟨rfl, rfl, .inr ⟨hne, hwake⟩⟩
  next heq =>
    cases h
    exact ⟨rfl, rfl, .inl ⟨not_not.mp heq, rfl⟩⟩

theorem kept_of_push (h : c.pushKeyboardChar ch = some c') : Kept c.sched c'.sched := by
  obtain ⟨-, -, ⟨-, heq⟩ | ⟨-, hwake⟩⟩ := pushKeyboardChar_eq_some h
  · rw [heq]
    exact Kept.refl _
  · exact kept_wakeTask hwake

theorem sched_popKeyboardChar (c : Console) : c.popKeyboardChar.sched = c.sched ∧
    c.popKeyboardChar.phase = c.phase ∧ c.popKeyboardChar.waitingTask = c.waitingTask := by
  unfold popKeyboardChar
  split <;> exact ⟨rfl, rfl, rfl⟩

theorem Frame.step (h : Frame c) (hstep : c.step e c') : Frame c' := by
  cases e with
  | read buf count =>
    obtain ⟨-, t, ht, rfl⟩ := hstep
    unfold sysRead
    split_ifs
    · exact h
    · exact h
    · exact h.look (by rw [ht]; rfl) count
  | again =>
    obtain ⟨count, hphase, rfl⟩ := hstep
    refine h.look (h.present _ ?_) count
    rw [hphase]
    nofun
  | block =>
    obtain ⟨count, hphase, s, hblock, rfl⟩ := hstep
    have hcur := h.present c.sched.current (by rw [hphase]; nofun)
    exact (h.goTo hcur).withSched (idsKept_blockCurrent hblock)
  | switch regs framePtr =>
    obtain ⟨count, hphase, s, d, hresched, rfl⟩ := hstep
    have hcur := h.present c.sched.current (by rw [hphase]; nofun)
    exact (h.goTo hcur).withSched (kept_reschedule hresched).idsKept
  | push ch =>
    obtain ⟨-, hphase, -⟩ := pushKeyboardChar_eq_some hstep
    have hkept : IdsKept True c.sched c'.sched := (kept_of_push hstep).idsKept
    refine ⟨?_, h.distinct.of_idsKept hkept⟩
    intro slot hne
    rw [hkept.isSome_eq slot]
    exact h.present slot (hphase ▸ hne)
  | pop =>
    cases hstep
    obtain ⟨hsched, hphase, -⟩ := sched_popKeyboardChar c
    refine ⟨?_, hsched ▸ h.distinct⟩
    rw [hsched, hphase]
    exact h.present
  | kernel l =>
    obtain ⟨-, s, hkernel, rfl⟩ := hstep
    exact h.kernel hkernel

/-! ## One step -/

/-- A step that makes nobody wait and keeps the cell is neither disturbed nor forgetful. -/
theorem notForgotten_of_waits (h : Inv c) (hcell : c'.waitingTask = c.waitingTask)
    (hwaits : ∀ slot, c'.Waits slot → c.Waits slot) (hpush : ∀ ch, e ≠ .push ch) :
    NotForgotten ⟨c, e, c'⟩ := by
  refine ⟨?_, fun ch heq => absurd heq (hpush ch)⟩
  intro slot hw
  rw [hcell]
  exact h.recorded slot (hwaits slot hw)

/-- A step of another kind than those that can go wrong. -/
theorem undisturbed_of_other (hlooks : ¬ e.Looks) (hblock : e ≠ .block)
    (hpush : ∀ ch, e ≠ .push ch) : Undisturbed ⟨c, e, c'⟩ :=
  ⟨fun hl => absurd hl hlooks, fun heq => absurd heq hblock, fun ch heq => absurd heq (hpush ch)⟩

theorem look_iff (h : Inv c) (hlooks : e.Looks) (count : U64) :
    NotForgotten ⟨c, e, c.look count⟩ ↔ Undisturbed ⟨c, e, c.look count⟩ := by
  have hpush : ∀ ch, e ≠ .push ch := by
    rintro ch rfl
    exact hlooks
  have hblock : e ≠ .block := by
    rintro rfl
    exact hlooks
  unfold look
  split
  next =>
    -- the current task takes the cell: whoever else waits is no longer recorded
    constructor
    · intro hforgot
      refine ⟨?_, fun heq => absurd heq hblock, fun ch heq => absurd heq (hpush ch)⟩
      intro _ _ _ slot hw
      by_contra hne
      refine hne (hforgot.recorded slot ?_).symm
      rw [waits_goTo, if_neg hne]
      exact hw
    · intro hund
      refine ⟨?_, fun ch heq => absurd heq (hpush ch)⟩
      intro slot hw
      obtain ⟨hne, hw⟩ := waits_of_goTo (c := { c with waitingTask := c.sched.current }) id hw
      exact absurd (hund.alone hlooks count (update_self _ _ _) slot hw) hne
  · refine iff_of_true ?_ ?_
    · refine notForgotten_of_waits h rfl ?_ hpush
      intro slot hw
      exact (waits_of_goTo (c := { c with
        buffer := (c.buffer.popMany (min count.toNat c.buffer.len)).2 }) id hw).2
    · refine ⟨?_, fun heq => absurd heq hblock, fun ch heq => absurd heq (hpush ch)⟩
      intro _ count' hphase
      have hout : update c.phase c.sched.current Phase.outside c.sched.current
          = .recorded count' := hphase
      rw [update_self] at hout
      cases hout

/-- `block_current` makes the current task wait. -/
theorem block_iff (h : Inv c) {count : U64} (hphase : c.phase c.sched.current = .recorded count)
    (hblock : c.sched.blockCurrent .waiting = some s) :
    NotForgotten ⟨c, .block, (c.goTo (.blocked count)).withSched s⟩ ↔
      Undisturbed ⟨c, .block, (c.goTo (.blocked count)).withSched s⟩ := by
  obtain ⟨t, ht⟩ := Option.isSome_iff_exists.mp
    (h.present c.sched.current (by rw [hphase]; nofun))
  rw [blockCurrent_waiting (h.distinct.lt_maxTasks ht) ht] at hblock
  cases hblock
  constructor
  · intro hforgot
    refine ⟨fun hl => absurd hl id, ?_, nofun⟩
    intro _
    refine hforgot.recorded _ ⟨?_, { t with state := .blocked }, ?_, rfl⟩
    · show (update c.phase c.sched.current (.blocked count) c.sched.current).Inside
      rw [update_self]
      trivial
    · exact update_self _ _ _
  · intro hund
    refine ⟨?_, nofun⟩
    intro slot hw
    have hcell : c.waitingTask = c.sched.current := hund.stored rfl
    show c.waitingTask = slot
    by_cases heq : slot = c.sched.current
    · rw [hcell, heq]
    · refine h.recorded slot ?_
      obtain ⟨hin, t', ht', hb⟩ := hw
      refine ⟨?_, t', ?_, hb⟩
      · rwa [← show (c.goTo (.blocked count)).phase slot = c.phase slot from
          update_of_ne heq _ _]
      · rw [← ht']
        exact (update_of_ne heq _ _).symm

/-- A character wakes the one reader that is recorded, if `wake_task` finds it. -/
theorem push_iff (h : Inv c) (hstep : c.pushKeyboardChar ch = some c') :
    NotForgotten ⟨c, .push ch, c'⟩ ↔ Undisturbed ⟨c, .push ch, c'⟩ := by
  obtain ⟨hcell, hphase, hwake⟩ := pushKeyboardChar_eq_some hstep
  have hkept := kept_of_push hstep
  have hslot : ∀ {slot}, c.Waits slot → slot ≠ noTask := by
    rintro slot ⟨-, t, ht, -⟩ rfl
    exact absurd (h.distinct.lt_maxTasks ht) (by decide)
  constructor
  · intro hforgot
    refine ⟨fun hl => absurd hl id, nofun, ?_⟩
    intro _ _ slot u hw hu
    have hrec := h.recorded slot hw
    -- the reader's task is changed, so it is the one found under the slot
    have hne : c'.sched.tasks slot ≠ c.sched.tasks slot := by
      obtain ⟨v, hv, hready⟩ := hforgot.ready ch rfl slot hw
      obtain ⟨-, t, ht, hb⟩ := hw
      rw [hv, ht]
      rintro ⟨rfl⟩
      rw [hb] at hready
      cases hready
    rcases hwake with ⟨-, heq⟩ | ⟨-, hwake⟩
    · exact absurd (by rw [heq]) hne
    · obtain ⟨-, v, hv, hid⟩ := findTask_eq_some (findTask_of_tasks_ne hwake hne)
      rw [hu] at hv
      cases hv
      exact hid.trans hrec
  · intro hund
    have hready : ∀ slot, c.Waits slot →
        ∃ u, c'.sched.tasks slot = some u ∧ u.state = .ready := by
      intro slot hw
      have hrec := h.recorded slot hw
      rcases hwake with ⟨hno, -⟩ | ⟨-, hwake⟩
      · exact absurd (hrec.symm.trans hno) (hslot hw)
      · have hw' := hw
        obtain ⟨-, t, ht, hb⟩ := hw'
        have hid := hund.found ch rfl slot t hw ht
        have hfind : c.sched.findTask c.waitingTask = some slot := by
          rw [hrec, ← hid]
          exact hid ▸ h.distinct.findTask_eq ht
        have htasks := tasks_of_wakeTask hfind ht hwake
        refine ⟨t.woken, ?_, ?_⟩
        · rw [htasks, update_self]
        · rw [Task.woken, if_pos hb]
    refine ⟨?_, fun _ _ => hready⟩
    rintro slot ⟨hin, t', ht', hb⟩
    obtain ⟨t, ht, hb₀⟩ := hkept.blocked slot t' ht' hb
    obtain ⟨u, hu, hr⟩ := hready slot ⟨hphase ▸ hin, t, ht, hb₀⟩
    rw [ht'] at hu
    cases hu
    rw [hb] at hr
    cases hr

theorem notForgotten_step_iff (h : Inv c) (hstep : c.step e c') :
    NotForgotten ⟨c, e, c'⟩ ↔ Undisturbed ⟨c, e, c'⟩ := by
  cases e with
  | read buf count =>
    obtain ⟨hphase, t, -, rfl⟩ := hstep
    have hreturns : NotForgotten ⟨c, .read buf count, c⟩ ↔
        Undisturbed ⟨c, .read buf count, c⟩ := by
      refine iff_of_true (notForgotten_of_waits h rfl (fun _ => id) nofun) ⟨?_, nofun, nofun⟩
      intro _ count' hrec
      rw [show c.phase c.sched.current = .recorded count' from hrec] at hphase
      cases hphase
    unfold sysRead
    split_ifs
    · exact hreturns
    · exact hreturns
    · exact look_iff (e := .read buf count) h trivial count
  | again =>
    obtain ⟨count, -, rfl⟩ := hstep
    exact look_iff (e := .again) h trivial count
  | block =>
    obtain ⟨count, hphase, s, hblock, rfl⟩ := hstep
    exact block_iff h hphase hblock
  | switch regs framePtr =>
    obtain ⟨count, hphase, s, d, hresched, rfl⟩ := hstep
    refine iff_of_true (notForgotten_of_waits h rfl ?_ nofun)
      (undisturbed_of_other id nofun nofun)
    exact fun slot => waits_of_switch hphase (kept_reschedule hresched)
  | push ch => exact push_iff h hstep
  | pop =>
    cases hstep
    obtain ⟨hsched, hphase, hcell⟩ := sched_popKeyboardChar c
    refine iff_of_true (notForgotten_of_waits h hcell ?_ nofun)
      (undisturbed_of_other id nofun nofun)
    intro slot hw
    unfold Waits at hw ⊢
    rwa [hsched, hphase] at hw
  | kernel l =>
    obtain ⟨hout, s, hkernel, rfl⟩ := hstep
    refine iff_of_true (notForgotten_of_waits h rfl ?_ nofun)
      (undisturbed_of_other id nofun nofun)
    exact fun slot => waits_of_kernel hout hkernel

/-! ## Whole runs -/

/-- **No reader is forgotten as long as readers come one at a time and are not interrupted between
the store and the block**: in every run of the kernel, each reader that is blocked is recorded and
made ready by the next character exactly if each step is undisturbed. -/
theorem notForgotten_iff_undisturbed {τ : List (Transition Console Event)}
    (hrun : Run step new τ c) : (∀ t ∈ τ, NotForgotten t) ↔ ∀ t ∈ τ, Undisturbed t := by
  refine hrun.forall_iff inv_new ?_ ?_
  · intro m e m' hm hstep
    exact notForgotten_step_iff hm hstep
  · intro m e m' hm hstep hund
    have hforgot := (notForgotten_step_iff hm hstep).mpr hund
    have hframe := hm.frame.step hstep
    exact ⟨hforgot.recorded, hframe.present, hframe.distinct⟩

def spawnReader (name : String) : Event :=
  .kernel (.event (.spawn ⟨0, 0, 0⟩ (some 0x100000) 0x1000 0x2000 name 5))

/-- One reader, and a key once it is blocked. -/
theorem notForgotten_one_reader : ∃ c₁ c₂ c₃ c₄ c₅,
    step new (spawnReader "shell") c₁ ∧ step c₁ (.kernel .run) c₂ ∧
    step c₂ (.read 0x5000 1) c₃ ∧ step c₃ .block c₄ ∧ c₄.Waits 0 ∧ step c₄ (.push 97) c₅ ∧
    NotForgotten ⟨c₄, .push 97, c₅⟩ := by
  obtain ⟨c₁, c₂, c₃, c₄, c₅, h₁, h₂, h₃, h₄, hw, h₅, hnone, hcell, hphase, hid⟩ :
      ∃ c₁ c₂ c₃ c₄ c₅, step new (spawnReader "shell") c₁ ∧ step c₁ (.kernel .run) c₂ ∧
        step c₂ (.read 0x5000 1) c₃ ∧ step c₃ .block c₄ ∧ c₄.Waits 0 ∧ step c₄ (.push 97) c₅ ∧
        c₂.phase = (fun _ => .outside) ∧ c₃.waitingTask = c₃.sched.current ∧
        (∀ slot, slot ≠ 0 → c₄.phase slot = .outside) ∧
        (c₄.sched.tasks 0).map (·.id) = some 0 := by
    refine ⟨_, _, _, _, _, ⟨fun _ => rfl, _, ⟨none, rfl⟩, rfl⟩, ⟨fun _ => rfl, _, ⟨_, rfl⟩, rfl⟩,
      ⟨rfl, _, rfl, rfl⟩, ⟨1, rfl, _, rfl, rfl⟩, ⟨trivial, _, rfl, rfl⟩, rfl, rfl, rfl, ?_, rfl⟩
    intro slot hne
    exact (update_of_ne hne _ _).trans (update_of_ne hne _ _)
  have hrun : Run step new _ c₅ := Run.cons h₁ (Run.cons h₂ (Run.cons h₃ (Run.cons h₄
    (Run.single h₅))))
  refine ⟨c₁, c₂, c₃, c₄, c₅, h₁, h₂, h₃, h₄, hw, h₅, ?_⟩
  refine (notForgotten_iff_undisturbed hrun).mpr ?_ _ (by simp)
  simp only [List.forall_mem_cons]
  refine ⟨undisturbed_of_other id nofun nofun, undisturbed_of_other id nofun nofun,
    ⟨?_, nofun, nofun⟩, ⟨fun hl => absurd hl id, fun _ => hcell, nofun⟩,
    ⟨fun hl => absurd hl id, nofun, ?_⟩, List.forall_mem_nil _⟩
  · intro _ _ _ slot hw
    have hin := hw.1
    rw [hnone] at hin
    exact absurd hin id
  · intro _ _ slot u hw hu
    by_cases hslot : slot = 0
    · subst hslot
      rw [hu] at hid
      exact Option.some.inj hid
    · have hin := hw.1
      rw [hphase slot hslot] at hin
      exact absurd hin id

/-- Two readers and a key: the second one takes the cell, and the first stays blocked, recorded
nowhere. -/
theorem not_notForgotten_two_readers : ∃ c₁ c₂ c₃ c₄ c₅ c₆ c₇ c₈ c₉,
    step new (spawnReader "first") c₁ ∧ step c₁ (spawnReader "second") c₂ ∧
    step c₂ (.kernel .run) c₃ ∧ step c₃ (.read 0x5000 1) c₄ ∧ step c₄ .block c₅ ∧
    step c₅ (.switch default 0) c₆ ∧ step c₆ (.read 0x5000 1) c₇ ∧ step c₇ .block c₈ ∧
    step c₈ (.push 97) c₉ ∧ c₉.Waits 0 ∧ c₉.waitingTask = noTask ∧
    ¬ NotForgotten ⟨c₈, .push 97, c₉⟩ := by
  refine ⟨_, _, _, _, _, _, _, _, _, ⟨fun _ => rfl, _, ⟨none, rfl⟩, rfl⟩,
    ⟨fun _ => rfl, _, ⟨none, rfl⟩, rfl⟩, ⟨fun _ => rfl, _, ⟨_, rfl⟩, rfl⟩, ⟨rfl, _, rfl, rfl⟩,
    ⟨1, rfl, _, rfl, rfl⟩, ⟨1, rfl, _, _, rfl, rfl⟩, ⟨rfl, _, rfl, rfl⟩, ⟨1, rfl, _, rfl, rfl⟩,
    rfl, ⟨trivial, _, rfl, rfl⟩, rfl, fun hforgot => ?_⟩
  have h := hforgot.recorded 0 ⟨trivial, _, rfl, rfl⟩
  exact absurd h (by decide)

end Console

end BeastOs.Syscall
