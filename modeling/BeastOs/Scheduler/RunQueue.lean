import BeastOs.Scheduler.Operations

/-!
# Run-queue consistency

The operations the kernel performs on the scheduler, as events: spawning, the timer, blocking,
exiting, yielding, waking and `exec`. A block, an exit or a yield is one event together with the
context switch that follows it, since system calls run with interrupts masked. `Reachable` collects
the states the scheduler takes after `run`, and `runQueue_consistent` says what holds in all of
them: one running task, every ready task queued once, at its own level, and nothing else queued.
-/

namespace BeastOs.Scheduler

open Option Function Lib

/-! ## Events -/

/-- `phys` is what the allocation of the task's kernel stack answers, `regs` and `framePtr` are what
the interrupt that switches contexts finds on the stack. -/
inductive Event where
  | spawn (pf : Platform) (phys : Option U64) (cr3 entry : U64) (name : String) (priority : Nat)
  | spawnUser (pf : Platform) (phys : Option U64) (entry userStackTop : U64) (name : String)
      (priority : Nat) (pageTable trampoline : U64)
  | timer (regs : AllRegisters) (framePtr : U64)
  | block (reason : BlockReason) (regs : AllRegisters) (framePtr : U64)
  | exit (regs : AllRegisters) (framePtr : U64)
  | yield (regs : AllRegisters) (framePtr : U64)
  | wake (taskId : TaskId)
  | exec (pf : Platform) (phys : Option U64) (entry userStackTop : U64) (name : String)
      (pageTable argc argv : U64)

/-- What the callers keep to: user tasks are spawned at one of the priority levels, and a block
reason names slots of the task table. -/
def Event.Allowed : Event → Prop
  | .spawnUser _ _ _ _ _ priority _ _ => priority < priorityLevels
  | .block reason _ _ => reason.InRange
  | _ => True

/-- The events that can happen before the scheduler runs. -/
def Event.AtBoot : Event → Prop
  | .spawn .. | .spawnUser .. | .timer .. | .wake .. => True
  | _ => False

/-- One event; `none` is a panic, the second component says what the CPU continues with. -/
def step (s : Scheduler) : Event → Option (Scheduler × Option Dispatch)
  | .spawn pf phys cr3 entry name priority =>
    (s.spawn pf phys cr3 entry name priority).map fun p => (p.1, none)
  | .spawnUser pf phys entry userStackTop name priority pageTable trampoline =>
    (s.spawnUserWithPageTableAndTrampoline pf phys entry userStackTop name priority pageTable
      trampoline).map fun p => (p.1, none)
  | .timer regs framePtr => s.timerTick regs framePtr
  | .block reason regs framePtr => do (← s.blockCurrent reason).reschedule regs framePtr
  | .exit regs framePtr => do (← s.exitCurrent).reschedule regs framePtr
  | .yield regs framePtr => s.reschedule regs framePtr
  | .wake taskId => (s.wakeTask taskId).map (·, none)
  | .exec pf phys entry userStackTop name pageTable argc argv =>
    (s.replaceCurrentTask pf phys entry userStackTop name pageTable argc argv).map
      fun p => (p.1, some p.2)

variable {s s' : Scheduler} {slot : TaskId} {t : Task} {e : Event} {d : Option Dispatch}

/-! ## One event -/

theorem Grown.continues (h : Grown s s') (hcur : s'.current = s.current)
    (ht : s.tasks s.current = some t) : Continues s s' none := by
  refine ⟨hcur, ?_⟩
  rcases h.tasks s.current with heq | ⟨hnone, -⟩
  · rw [heq]
  · rw [ht] at hnone
    cases hnone

/-- Whether the event, if it is an `exec`, got memory for the new kernel stack. -/
def Event.StackAllocated : Event → Prop
  | .exec _ phys _ _ _ _ _ _ => phys.isSome
  | _ => True

/-- The event is a spawn. -/
def Event.Spawns : Event → Prop
  | .spawn .. | .spawnUser .. => True
  | _ => False

variable (h : Consistent s.tasks s.queues)

include h in
theorem step_grown (he : e.Allowed) (hspawns : e.Spawns) :
    ∃ s', s.step e = some (s', none) ∧ Consistent s'.tasks s'.queues ∧ s'.current = s.current ∧
      Grown s s' := by
  cases e with
  | spawn pf phys cr3 entry name priority =>
    obtain ⟨s', ho, hspec⟩ := (spawn_spawned s pf phys cr3 entry name priority).spec h
      (lt_of_le_of_lt (min_le_right _ _) (by decide))
    obtain ⟨⟨_, r⟩, hrun, rfl⟩ := map_eq_some_iff.mp ho
    exact ⟨_, by rw [step, hrun]; rfl, hspec⟩
  | spawnUser pf phys entry userStackTop name priority pageTable trampoline =>
    obtain ⟨s', ho, hspec⟩ := (spawnUser_spawned s pf phys entry userStackTop name priority
      pageTable trampoline).spec h he
    obtain ⟨⟨_, r⟩, hrun, rfl⟩ := map_eq_some_iff.mp ho
    exact ⟨_, by rw [step, hrun]; rfl, hspec⟩
  | _ => cases hspawns

/-- What an event does to a scheduler that has settled. The only panic is `exec`'s, for lack of
memory. -/
theorem step_spec (h : Settled s) (he : e.Allowed) (hmem : e.StackAllocated) :
    ∃ s' d, s.step e = some (s', d) ∧ Settled s' ∧ Continues s s' d := by
  obtain ⟨t, ht, -⟩ := h.exists_current
  cases e with
  | spawn | spawnUser =>
    obtain ⟨s', hrun, hcons, hcur, hgrown⟩ := step_grown h.consistent he trivial
    exact ⟨s', none, hrun, h.of_isRunning_iff hcons hcur fun slot => hgrown.inState_iff slot nofun,
      hgrown.continues hcur ht⟩
  | timer regs framePtr => exact timerTick_spec regs framePtr h
  | block reason regs framePtr =>
    obtain ⟨s₁, u, hrun₁, hleav, hcur, hu, hrep⟩ := blockCurrent_spec h he
    obtain ⟨s', d, hrun, hset, hcont⟩ := reschedule_spec regs framePtr hleav
    refine ⟨s', d, ?_, hset, ?_⟩
    · simp only [step, hrun₁, bind_eq_bind, bind_some, hrun]
    · cases d with
      | some d => exact hcont
      | none =>
        obtain ⟨hcur', hpt⟩ := hcont
        refine ⟨hcur'.trans hcur, ?_⟩
        rw [hcur] at hpt
        rw [hpt, hrep.kept.pageTable_eq, hu]
        simp [setTask]
  | exit regs framePtr =>
    obtain ⟨s₁, hrun₁, hleav, hcur⟩ := exitCurrent_spec h
    obtain ⟨s', d, hrun, hset, hcont⟩ := reschedule_spec regs framePtr hleav
    exact ⟨s', d, by simp only [step, hrun₁, bind_eq_bind, bind_some, hrun], hset,
      (kept_kill hrun₁).trans_continues hcur hcont⟩
  | yield regs framePtr => exact reschedule_spec regs framePtr h.leaving
  | wake taskId =>
    obtain ⟨s', hrun, hcons, hcur, hrunning⟩ := wakeTask_spec taskId h.consistent
    exact ⟨s', none, by simp only [step, hrun, map_some],
      h.of_isRunning_iff hcons hcur hrunning, (kept_wakeTask hrun).continues hcur⟩
  | exec pf phys entry userStackTop name pageTable argc argv =>
    obtain ⟨⟨s', d⟩, hrun⟩ : ∃ p, s.replaceCurrentTask pf phys entry userStackTop name pageTable
        argc argv = some p := by
      obtain ⟨p, rfl⟩ := isSome_iff_exists.mp hmem
      unfold replaceCurrentTask
      simp only [bind_eq_bind, taskAt_of_lt h.current_lt, bind_some, ht]
      exact ⟨_, rfl⟩
    obtain ⟨hset, hcur, hslot, hcr3, v, u, htasks, -, -, hpt⟩ := replaceCurrentTask_spec h hrun
    refine ⟨s', some d, by simp only [step, hrun, map_some], hset, ?_, u, ?_, ?_⟩
    · rw [hslot, hcur]
    · rw [htasks, hcur, update_self]
    · rw [hcr3, hpt]

/-- An `exec` that gets no memory for the new kernel stack panics. -/
theorem stackAllocated_of_step (hstep : s.step e = some (s', d)) : e.StackAllocated := by
  cases e with
  | exec pf phys entry userStackTop name pageTable argc argv =>
    cases phys with
    | some p => rfl
    | none =>
      obtain ⟨p, hrun, -⟩ := map_eq_some_iff.mp hstep
      obtain ⟨o, -, hrun⟩ := bind_eq_some_iff.mp hrun
      obtain ⟨u, -, hrun⟩ := bind_eq_some_iff.mp hrun
      cases hrun
  | _ => trivial

theorem step_keeps (h : Settled s) (he : e.Allowed) (hstep : s.step e = some (s', d)) :
    Settled s' ∧ Continues s s' d := by
  obtain ⟨s₁, d₁, hrun, hkeeps⟩ := step_spec h he (stackAllocated_of_step hstep)
  rw [hstep] at hrun
  cases hrun
  exact hkeeps

theorem step_booting (h : Booting s) (he : e.Allowed) (hboot : e.AtBoot)
    (hstep : s.step e = some (s', d)) : Booting s' := by
  cases e with
  | spawn | spawnUser =>
    obtain ⟨s₁, hrun, hcons, hcur, hgrown⟩ := step_grown h.consistent he trivial
    rw [hstep] at hrun
    cases hrun
    exact h.of_isRunning_iff hcons hcur fun slot => hgrown.inState_iff slot nofun
  | timer regs framePtr =>
    obtain ⟨s₁, hrun, hbooting⟩ := timerTick_booting regs framePtr h
    simp only [step, hrun] at hstep
    cases hstep
    exact hbooting
  | wake taskId =>
    obtain ⟨s₁, hrun, hcons, hcur, hrunning⟩ := wakeTask_spec taskId h.consistent
    simp only [step, hrun, map_some] at hstep
    cases hstep
    exact h.of_isRunning_iff hcons hcur hrunning
  | _ => cases hboot

/-! ## All runs -/

def bootStep (s : Scheduler) (e : Event) (s' : Scheduler) : Prop :=
  e.Allowed ∧ e.AtBoot ∧ ∃ d, s.step e = some (s', d)

def kernelStep (s : Scheduler) (e : Event) (s' : Scheduler) : Prop :=
  e.Allowed ∧ ∃ d, s.step e = some (s', d)

/-- The states of the scheduler after `run`: boot from the empty scheduler, start it, and perform
any events. -/
def Reachable (s : Scheduler) : Prop :=
  ∃ boot s₀ s₁ d after, Run bootStep Scheduler.new boot s₀ ∧ s₀.run = some (s₁, d) ∧
    Run kernelStep s₁ after s

/-- From boot on: events, and at some time the start of the scheduler. -/
inductive KernelEvent
  | run
  | event (e : Event)

def systemStep (s : Scheduler) (l : KernelEvent) (s' : Scheduler) : Prop :=
  match l with
  | .run => ∃ d, s.run = some (s', d)
  | .event e => ∃ d, s.step e = some (s', d)

theorem booting_new : Booting Scheduler.new := by
  refine ⟨⟨⟨?_, fun _ => List.nodup_nil⟩, ?_, fun _ => rfl⟩, rfl, ?_⟩
  · intro k j
    have hnone : levelOf Scheduler.new.tasks j = none := by
      unfold levelOf
      split <;> rfl
    rw [hnone]
    simp [Scheduler.new]
  · rintro slot t - ht
    cases ht
  · rintro slot - ⟨t, ht, -⟩
    cases ht

theorem settled_of_boot {boot : List (Transition Scheduler Event)} {d : Dispatch}
    (hboot : Run bootStep Scheduler.new boot s) (hrun : s.run = some (s', d)) :
    Settled s' ∧ Continues s s' (some d) := by
  have hbooting : Booting s := hboot.invariant' booting_new
    fun m e m' hm ⟨he, hat, _, hstep⟩ => step_booting hm he hat hstep
  exact run_spec hbooting hrun

theorem Reachable.settled (h : Reachable s) : Settled s := by
  obtain ⟨boot, s₀, s₁, d, after, hboot, hrun, hafter⟩ := h
  exact hafter.invariant' (settled_of_boot hboot hrun).1
    fun m e m' hm ⟨he, _, hstep⟩ => (step_keeps hm he hstep).1

/-! ## Run-queue consistency -/

/-- All queued slots, level by level. -/
def queued (s : Scheduler) : List TaskId :=
  (List.range priorityLevels).flatMap fun k => (s.queues k).toList

structure RunQueueConsistent (s : Scheduler) : Prop where
  current_running : s.current < maxTasks ∧ s.IsRunning s.current
  only_running : ∀ slot < maxTasks, s.IsRunning slot → slot = s.current
  ready_queued : ∀ slot < maxTasks, ∀ t, s.tasks slot = some t → t.state = .ready →
    t.priority < priorityLevels ∧ slot ∈ (s.queues t.priority).toList ∧ s.queued.count slot = 1
  others_not_queued : ∀ slot, (∀ t, slot < maxTasks → s.tasks slot = some t → t.state ≠ .ready) →
    slot ∉ s.queued
  nothing_lost : ∀ k, (s.queues k).lost = 0

theorem mem_queued (slot : TaskId) :
    slot ∈ s.queued ↔ ∃ k < priorityLevels, slot ∈ (s.queues k).toList := by
  simp [queued, List.mem_flatMap]

include h in
theorem Consistent.ready_queued (hlt : slot < maxTasks)
    (ht : s.tasks slot = some t) (hready : t.state = .ready) :
    t.priority < priorityLevels ∧ slot ∈ (s.queues t.priority).toList ∧
      s.queued.count slot = 1 := by
  have hp := h.priority_lt slot t hlt ht
  have hlevel : levelOf s.tasks slot = some t.priority := by
    rw [levelOf_of_lt hlt, ht, readyLevel_ready hready]
  exact ⟨hp, (h.mem_iff _ _).mpr hlevel,
    h.buckets.count_flatMap hlevel (List.mem_range.mpr hp) List.nodup_range⟩

include h in
theorem Consistent.not_queued
    (hother : ∀ t, slot < maxTasks → s.tasks slot = some t → t.state ≠ .ready) :
    slot ∉ s.queued := by
  intro hmem
  obtain ⟨k, -, hk⟩ := (mem_queued slot).mp hmem
  have hlevel := (h.mem_iff k slot).mp hk
  obtain ⟨t, ht, hready, -⟩ := ready_of_levelOf hlevel
  exact hother t (lt_of_levelOf hlevel) ht hready

/-- **The run queues are consistent** in every reachable state. -/
theorem runQueue_consistent (h : Reachable s) : RunQueueConsistent s := by
  have hset := h.settled
  refine ⟨⟨hset.current_lt, hset.exists_current⟩, ?_, ?_, ?_, hset.consistent.lost_eq⟩
  · intro slot hlt hr
    exact (hset.running_iff slot hlt).mp hr
  · intro slot hlt t ht hready
    exact hset.consistent.ready_queued hlt ht hready
  · intro slot hother
    exact hset.consistent.not_queued hother

/-- The calls that give a kernel its first tasks, in this order. -/
def spawnFirst : Event := .spawn ⟨0, 0, 0⟩ (some 0x100000) 0x1000 0x2000 "first" 5
def spawnSecond : Event := .spawn ⟨0, 0, 0⟩ (some 0x200000) 0x1000 0x3000 "second" 5

/-- The first of two tasks is started and yields to the second. -/
theorem runQueue_consistent_switch :
    ∃ s, Reachable s ∧ s.current = 1 ∧ RunQueueConsistent s := by
  obtain ⟨s₀, s₁, s₂, d, s₃, hfirst, hsecond, hrun, hyield, hcur⟩ : ∃ s₀ s₁ s₂ d s₃,
      bootStep Scheduler.new spawnFirst s₀ ∧ bootStep s₀ spawnSecond s₁ ∧
      s₁.run = some (s₂, d) ∧ kernelStep s₂ (.yield default 0) s₃ ∧ s₃.current = 1 :=
    ⟨_, _, _, _, _, ⟨trivial, trivial, none, rfl⟩, ⟨trivial, trivial, none, rfl⟩, rfl,
      ⟨trivial, _, rfl⟩, rfl⟩
  have hreach : Reachable s₃ :=
    ⟨_, s₁, s₂, d, _, .cons hfirst (.single hsecond), hrun, .single hyield⟩
  exact ⟨s₃, hreach, hcur, runQueue_consistent hreach⟩

end BeastOs.Scheduler
