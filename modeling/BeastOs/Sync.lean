import BeastOs.Lib.Runs

/-!
# The interrupt-safe spinlock

`Spinlock` of `kernel/src/sync.rs`, on one CPU, instruction by instruction. `lock` reads the
interrupt flag, disables interrupts if they were enabled and then takes the inner mutex; the guard
remembers what was read. Dropping a guard first runs `SpinlockGuard::drop`, which enables
interrupts if they were enabled at `lock`, and then drops the fields, which releases the mutex.

While interrupts are enabled one may arrive between any two instructions. Its handler starts with
interrupts disabled (the IDT holds interrupt gates), runs code of the same kind and returns with
`iretq`, which restores the interrupt flag. Guards may be nested and dropped in any order.

The lock is meant to keep a handler from spinning on a lock of the code it interrupted. It does so
exactly as long as no guard is dropped that was taken with interrupts enabled: `drop` enables them
while the mutex is still held.

Main result: `interruptSafe_iff`.
-/

namespace BeastOs.Sync

open List Lib

variable {L : Type}

/-! ## The CPU -/

structure SpinlockGuard (L : Type) where
  inner : L
  interruptsEnabled : Bool
  deriving DecidableEq, Repr

/-- Where a piece of code stands in `lock` and `drop`. -/
inductive Pc (L : Type) where
  | idle
  /-- in `lock`, after `are_enabled` -/
  | locking (lock : L) (interruptsEnabled : Bool)
  /-- in `lock`, at `inner.lock()` -/
  | acquiring (lock : L) (interruptsEnabled : Bool)
  /-- in the drop of a guard, after `SpinlockGuard::drop` -/
  | dropping (guard : SpinlockGuard L)
  deriving DecidableEq, Repr

/-- A piece of code: the kernel's, or a handler's. -/
structure Code (L : Type) where
  pc : Pc L
  guards : List (SpinlockGuard L)
  deriving DecidableEq, Repr

/-- The guards whose mutex the code holds. -/
def Code.held (c : Code L) : List (SpinlockGuard L) :=
  match c.pc with
  | .dropping g => g :: c.guards
  | _ => c.guards

/-- The code that runs, and below it the code it interrupted, innermost first. -/
structure Cpu (L : Type) where
  interruptFlag : Bool
  running : Code L
  interrupted : List (Code L)
  deriving DecidableEq, Repr

def Cpu.start (interruptFlag : Bool) : Cpu L := ⟨interruptFlag, ⟨.idle, []⟩, []⟩

/-- Whether the mutex `l` is taken. -/
def Cpu.locked [DecidableEq L] (s : Cpu L) (l : L) : Bool :=
  (s.running :: s.interrupted).any fun c => c.held.any fun g => g.inner = l

inductive Action (L : Type) where
  | areEnabled (lock : L)
  | disable
  | acquire
  | drop (guard : SpinlockGuard L)
  | release
  | interrupt
  | iretq
  deriving DecidableEq, Repr

/-- One instruction, or the arrival of an interrupt; `none` when it is not possible. Taking a mutex
that is locked is not possible: the code spins. -/
def Cpu.step [DecidableEq L] (s : Cpu L) : Action L → Option (Cpu L)
  | .areEnabled l =>
    match s.running.pc with
    | .idle => some { s with running.pc := .locking l s.interruptFlag }
    | _ => none
  | .disable =>
    match s.running.pc with
    | .locking l enabled => some { s with
        interruptFlag := if enabled then false else s.interruptFlag
        running.pc := .acquiring l enabled }
    | _ => none
  | .acquire =>
    match s.running.pc with
    | .acquiring l enabled =>
      if s.locked l then none
      else some { s with running := ⟨.idle, ⟨l, enabled⟩ :: s.running.guards⟩ }
    | _ => none
  | .drop g =>
    match s.running.pc with
    | .idle =>
      if g ∈ s.running.guards then some { s with
        interruptFlag := if g.interruptsEnabled then true else s.interruptFlag
        running := ⟨.dropping g, s.running.guards.erase g⟩ }
      else none
    | _ => none
  | .release =>
    match s.running.pc with
    | .dropping _ => some { s with running.pc := .idle }
    | _ => none
  | .interrupt =>
    if s.interruptFlag then
      some ⟨false, ⟨.idle, []⟩, s.running :: s.interrupted⟩
    else none
  | .iretq =>
    match s.running, s.interrupted with
    | ⟨.idle, []⟩, c :: rest => some ⟨true, c, rest⟩
    | _, _ => none

/-! ## Interrupt safety -/

/-- A handler is at the mutex of a lock that code it interrupted holds: it spins for ever. -/
def HandlerStuck (s : Cpu L) : Prop :=
  ∃ l enabled, s.running.pc = .acquiring l enabled ∧
    ∃ c ∈ s.interrupted, ∃ g ∈ c.held, g.inner = l

/-- Interrupts are not enabled while a lock is held that was taken with interrupts enabled. -/
def FlagSafe (s : Cpu L) : Prop :=
  s.interruptFlag = true →
    ∀ c ∈ s.running :: s.interrupted, ∀ g ∈ c.held, g.interruptsEnabled = false

def InterruptSafe (s : Cpu L) : Prop := ¬ HandlerStuck s ∧ FlagSafe s

/-- The transition is not the drop of a guard taken with interrupts enabled. -/
def DropsNoEnabled (t : Transition (Cpu L) (Action L)) : Prop :=
  ∀ g, t.label = .drop g → g.interruptsEnabled = false

/-- Code that an interrupt may find: it holds nothing, and a `lock` it is in has seen interrupts
enabled and not yet disabled them. -/
structure Interruptible (c : Code L) : Prop where
  held_eq : c.held = []
  not_acquiring : ∀ l enabled, c.pc ≠ .acquiring l enabled
  locking : ∀ l enabled, c.pc = .locking l enabled → enabled = true

/-- What holds as long as no guard taken with interrupts enabled is dropped. -/
structure Inv (s : Cpu L) : Prop where
  interrupted : ∀ c ∈ s.interrupted, Interruptible c
  running : s.interruptFlag = true → Interruptible s.running

variable {s s' : Cpu L} {a : Action L} {g : SpinlockGuard L}

theorem inv_start (b : Bool) : Inv (Cpu.start b : Cpu L) := by
  refine ⟨?_, fun _ => ⟨rfl, ?_, ?_⟩⟩
  · intro c hc
    cases hc
  · intro l enabled h
    cases h
  · intro l enabled h
    cases h

theorem Inv.interruptSafe (h : Inv s) : InterruptSafe s := by
  constructor
  · rintro ⟨l, enabled, -, c, hc, g, hg, -⟩
    rw [(h.interrupted c hc).held_eq] at hg
    cases hg
  · intro hflag c hc g hg
    rcases mem_cons.mp hc with rfl | hc
    · rw [(h.running hflag).held_eq] at hg
      cases hg
    · rw [(h.interrupted c hc).held_eq] at hg
      cases hg

theorem Code.held_ne_nil {c : Code L} (h : c.pc = .dropping g) :
    c.held ≠ [] := by
  simp [Code.held, h]

/-- With interrupts disabled only `iretq` touches what the invariant says. -/
theorem Inv.of_disabled (h : Inv s) (hflag : s'.interruptFlag = false)
    (hint : s'.interrupted = s.interrupted) : Inv s' := by
  refine ⟨?_, fun ht => ?_⟩
  · rw [hint]
    exact h.interrupted
  · rw [hflag] at ht
    cases ht

/-- Code that an interrupt must not find runs with interrupts disabled. -/
theorem Inv.disabled (h : Inv s) (hnot : ¬ Interruptible s.running) : s.interruptFlag = false :=
  Bool.eq_false_iff.mpr fun hflag => hnot (h.running hflag)

variable [DecidableEq L]

/-- What one step can be. -/
inductive Cpu.Moves (s : Cpu L) : Action L → Cpu L → Prop
  | areEnabled {l : L} : s.running.pc = .idle →
      Moves s (.areEnabled l) { s with running.pc := .locking l s.interruptFlag }
  | disable {l : L} {enabled : Bool} : s.running.pc = .locking l enabled →
      Moves s .disable { s with
        interruptFlag := if enabled then false else s.interruptFlag
        running.pc := .acquiring l enabled }
  | acquire {l : L} {enabled : Bool} : s.running.pc = .acquiring l enabled →
      Moves s .acquire { s with running := ⟨.idle, ⟨l, enabled⟩ :: s.running.guards⟩ }
  | drop {g : SpinlockGuard L} : s.running.pc = .idle → g ∈ s.running.guards →
      Moves s (.drop g) { s with
        interruptFlag := if g.interruptsEnabled then true else s.interruptFlag
        running := ⟨.dropping g, s.running.guards.erase g⟩ }
  | release {g : SpinlockGuard L} : s.running.pc = .dropping g →
      Moves s .release { s with running.pc := .idle }
  | interrupt : s.interruptFlag = true →
      Moves s .interrupt ⟨false, ⟨.idle, []⟩, s.running :: s.interrupted⟩
  | iretq {c : Code L} {rest : List (Code L)} : s.interrupted = c :: rest →
      Moves s .iretq ⟨true, c, rest⟩

theorem Cpu.moves_of_step (hstep : s.step a = some s') : s.Moves a s' := by
  cases a with
  | areEnabled l =>
    simp only [Cpu.step] at hstep
    split at hstep <;> cases hstep
    next hpc => exact .areEnabled hpc
  | disable =>
    simp only [Cpu.step] at hstep
    split at hstep <;> cases hstep
    next hpc => exact .disable hpc
  | acquire =>
    simp only [Cpu.step] at hstep
    split at hstep
    next hpc =>
      split at hstep <;> cases hstep
      exact .acquire hpc
    · cases hstep
  | drop g =>
    simp only [Cpu.step] at hstep
    split at hstep
    next hpc =>
      split at hstep <;> cases hstep
      next hmem => exact .drop hpc hmem
    · cases hstep
  | release =>
    simp only [Cpu.step] at hstep
    split at hstep <;> cases hstep
    next hpc => exact .release hpc
  | interrupt =>
    simp only [Cpu.step] at hstep
    split at hstep <;> cases hstep
    next hflag => exact .interrupt hflag
  | iretq =>
    simp only [Cpu.step] at hstep
    split at hstep <;> cases hstep
    next hint => exact .iretq hint

theorem Inv.step (h : Inv s) (hstep : s.step a = some s') (hdrop : DropsNoEnabled ⟨s, a, s'⟩) :
    Inv s' := by
  cases Cpu.moves_of_step hstep with
  | areEnabled hpc =>
    refine ⟨h.interrupted, fun hflag => ⟨?_, ?_, ?_⟩⟩
    · have hheld := (h.running hflag).held_eq
      simp only [Code.held, hpc] at hheld ⊢
      exact hheld
    · intro l' enabled hpc'
      cases hpc'
    · intro l' enabled hpc'
      cases hpc'
      exact hflag
  | @disable l enabled hpc =>
    refine h.of_disabled ?_ rfl
    -- a `lock` that saw interrupts disabled still runs with them disabled
    cases hflag : s.interruptFlag with
    | false => simp
    | true => simp [(h.running hflag).locking l enabled hpc]
  | @acquire l enabled hpc =>
    exact h.of_disabled (h.disabled fun hcode => hcode.not_acquiring l enabled hpc) rfl
  | @drop g hpc hmem =>
    have hflag : s.interruptFlag = false := by
      refine h.disabled fun hcode => ?_
      have hheld := hcode.held_eq
      simp only [Code.held, hpc] at hheld
      rw [hheld] at hmem
      cases hmem
    exact h.of_disabled (by simp [hdrop g rfl, hflag]) rfl
  | release hpc =>
    exact h.of_disabled (h.disabled fun hcode => Code.held_ne_nil hpc hcode.held_eq) rfl
  | interrupt hflag =>
    refine ⟨?_, nofun⟩
    intro c hc
    rcases mem_cons.mp hc with rfl | hc
    · exact h.running hflag
    · exact h.interrupted c hc
  | @iretq c rest hint =>
    have hbelow := h.interrupted
    rw [hint] at hbelow
    refine ⟨?_, fun _ => hbelow c mem_cons_self⟩
    intro c' hc'
    exact hbelow c' (mem_cons_of_mem _ hc')

/-- Dropping a guard taken with interrupts enabled enables them while its mutex is held. -/
theorem not_flagSafe_of_drop (hstep : s.step (.drop g) = some s')
    (hsaved : g.interruptsEnabled = true) : ¬ FlagSafe s' := by
  intro hsafe
  cases Cpu.moves_of_step hstep with
  | drop =>
    have hfalse := hsafe (by simp [hsaved]) _ mem_cons_self g (by simp [Code.held])
    rw [hsaved] at hfalse
    cases hfalse

/-- **Where the spinlock is interrupt safe.** A run keeps handlers from spinning on a lock of the
code they interrupted, and interrupts disabled while a lock taken with interrupts enabled is held,
exactly when it drops no guard that was taken with interrupts enabled. -/
theorem interruptSafe_iff {b : Bool} {τ : List (Transition (Cpu L) (Action L))}
    (hrun : Run (Steps Cpu.step) (Cpu.start b) τ s) :
    (∀ t ∈ τ, InterruptSafe t.dst) ↔ ∀ t ∈ τ, DropsNoEnabled t := by
  refine hrun.forall_iff (inv_start b) ?_ (fun m a m' hm hstep hdrop => hm.step hstep hdrop)
  intro m a m' hm hstep
  constructor
  · rintro ⟨-, hflag⟩ g rfl
    by_contra hsaved
    rw [Bool.not_eq_false] at hsaved
    exact not_flagSafe_of_drop hstep hsaved hflag
  · intro hdrop
    exact (hm.step hstep hdrop).interruptSafe

/-- An interrupt arrives, and its handler takes and drops two locks safely, in the wrong order. -/
theorem interruptSafe_handler : ∃ τ, ∃ s : Cpu Bool,
    Run (Steps Cpu.step) (Cpu.start true) τ s ∧ τ.length = 12 ∧ ∀ t ∈ τ, InterruptSafe t.dst := by
  obtain ⟨s, hperform⟩ : ∃ s : Cpu Bool, perform Cpu.step (Cpu.start true)
      [.interrupt, .areEnabled true, .disable, .acquire, .areEnabled false, .disable, .acquire,
        .drop ⟨true, false⟩, .release, .drop ⟨false, false⟩, .release, .iretq] = some s := ⟨_, rfl⟩
  obtain ⟨τ, hrun, hlabels⟩ := exists_run_of_perform hperform
  refine ⟨τ, s, hrun, ?_, (interruptSafe_iff hrun).mpr ?_⟩
  · rw [← length_map (·.label), hlabels]
    rfl
  · intro t ht g hg
    have hmem : Action.drop g ∈ τ.map (·.label) := hg ▸ mem_map_of_mem ht
    rw [hlabels] at hmem
    simp at hmem
    rcases hmem with rfl | rfl <;> rfl

/-- One lock, taken and dropped by the kernel with interrupts enabled: an interrupt between the two
halves of the drop leaves its handler spinning. -/
theorem handlerStuck_of_lock_drop : ∃ τ, ∃ s : Cpu Unit,
    Run (Steps Cpu.step) (Cpu.start true) τ s ∧ HandlerStuck s ∧ ∀ a, s.step a = none := by
  obtain ⟨s, hperform, hpc, hint, hflag⟩ : ∃ s : Cpu Unit,
      perform Cpu.step (Cpu.start true) [.areEnabled (), .disable, .acquire, .drop ⟨(), true⟩,
        .interrupt, .areEnabled (), .disable] = some s ∧
      s.running = ⟨.acquiring () false, []⟩ ∧ s.interrupted = [⟨.dropping ⟨(), true⟩, []⟩] ∧
      s.interruptFlag = false :=
    ⟨_, rfl, rfl, rfl, rfl⟩
  obtain ⟨τ, hrun, -⟩ := exists_run_of_perform hperform
  refine ⟨τ, s, hrun, ?_, ?_⟩
  · refine ⟨(), false, by rw [hpc], ⟨.dropping ⟨(), true⟩, []⟩, ?_, ⟨(), true⟩, mem_cons_self, rfl⟩
    rw [hint]
    exact mem_singleton_self _
  · intro a
    obtain ⟨flag, run, int⟩ := s
    subst hpc hint hflag
    cases a <;> rfl

end BeastOs.Sync
