import BeastOs.Scheduler.Quanta

/-!
# No task starves

Every 500 ticks all queued tasks are moved to level 0, so that a task that waits at a worse level is
not overtaken for ever. `noStarvation` collects what is behind this, over all runs of the scheduler
from its creation: the countdown says when the next boost comes, the boost moves every ready task
and loses none, since all queues together hold each slot once and so fit in one of them, and no task
waits at a level above 0 for 500 ticks.

A run of events is a run of the operations of `Quanta`, one tick for each timer event
(`lifeStep_ops`); what is known about counters there is used here.
-/

namespace BeastOs.Scheduler

open List Option Lib

variable {s s' : Scheduler} {slot k : Nat} {t : Task} {meter : TaskId → Nat}

/-! ## The countdown -/

def Op.isTick : Op → Bool
  | .tick _ => true
  | _ => false

/-- The calls of `tick`. -/
def tickOps (history : List (Transition Scheduler Op)) : Nat :=
  history.countP (·.label.isTick)

theorem boostCountdown_countdown (h : s.countdown = some s') :
    s'.boostCountdown = if s.Due then boostInterval else s.boostCountdown - 1 := by
  split
  · next hdue =>
      rw [countdown_of_due hdue] at h
      obtain ⟨s₁, -, rfl⟩ := map_eq_some_iff.mp h
      rfl
  · next hdue =>
      rw [countdown_of_not_due hdue] at h
      cases h
      rfl

theorem boostCountdown_tick {expired : Bool} (h : s.tick = some (s', expired)) :
    s'.boostCountdown = if s.Due then boostInterval else s.boostCountdown - 1 := by
  obtain ⟨s₁, hcount, -, heq⟩ := tick_eq_some h
  rw [heq]
  exact boostCountdown_countdown hcount

/-- The countdown after `n` ticks. -/
def countdownAt (n : Nat) : Nat := boostInterval - n % boostInterval

theorem countdownAt_succ (n : Nat) :
    countdownAt (n + 1) = if countdownAt n ≤ 1 then boostInterval else countdownAt n - 1 := by
  unfold countdownAt boostInterval
  split <;> omega

theorem boostCountdown_of_run {history : List (Transition Scheduler Op)}
    (h : Run opStep Scheduler.new history s) :
    s.boostCountdown = countdownAt (tickOps history) := by
  induction h with
  | nil => rfl
  | @snoc history m op s' hrun hstep ih =>
    have hticks : tickOps (history ++ [⟨m, op, s'⟩]) =
        tickOps history + if op.isTick then 1 else 0 := by
      unfold tickOps
      rw [countP_append, countP_singleton]
    rw [hticks]
    by_cases htick : ∃ expired, op = .tick expired
    · obtain ⟨expired, rfl⟩ := htick
      rw [boostCountdown_tick hstep]
      show _ = countdownAt (tickOps history + 1)
      rw [countdownAt_succ, ← ih]
      rfl
    · have htick : ∀ expired, op ≠ .tick expired := fun expired heq => htick ⟨expired, heq⟩
      have heffect := effect_op hstep (metered_of_run hrun).inTable htick
      have hno : op.isTick = false := by
        cases op with
        | tick expired => exact absurd rfl (htick expired)
        | _ => rfl
      rw [heffect.boostCountdown_eq, hno]
      exact ih

/-! ## Runs of events -/

/-- The scheduler is started once, and its events are allowed. -/
def KernelEvent.Orderly (s : Scheduler) : KernelEvent → Prop
  | .run => s.current = noTask
  | .event e => e.Allowed

def lifeStep (s : Scheduler) (l : KernelEvent) (s' : Scheduler) : Prop :=
  l.Orderly s ∧ systemStep s l s'

def KernelEvent.isTimer : KernelEvent → Bool
  | .event (.timer ..) => true
  | _ => false

/-- The timer interrupts, each of which calls `tick` once. -/
def timers (history : List (Transition Scheduler KernelEvent)) : Nat :=
  history.countP (·.label.isTimer)

/-- Every event is a few operations. -/
theorem lifeStep_ops {l : KernelEvent} (h : lifeStep s l s') :
    ∃ history, Run opStep s history s' ∧ tickOps history = if l.isTimer then 1 else 0 := by
  cases l with
  | run =>
    obtain ⟨-, d, hrun⟩ := h
    have hop : opStep s .run s' := ⟨d, hrun⟩
    exact ⟨_, .single hop, rfl⟩
  | event e =>
    obtain ⟨-, d, hstep⟩ := h
    cases e with
    | spawn pf phys cr3 entry name priority =>
      obtain ⟨⟨s₁, r⟩, hrun, heq⟩ := map_eq_some_iff.mp hstep
      cases heq
      have hop : opStep s (.spawn pf phys cr3 entry name priority) s₁ := ⟨r, hrun⟩
      exact ⟨_, .single hop, rfl⟩
    | spawnUser pf phys entry userStackTop name priority pageTable trampoline =>
      obtain ⟨⟨s₁, r⟩, hrun, heq⟩ := map_eq_some_iff.mp hstep
      cases heq
      have hop : opStep s (.spawnUser pf phys entry userStackTop name priority pageTable
        trampoline) s₁ := ⟨r, hrun⟩
      exact ⟨_, .single hop, rfl⟩
    | timer regs framePtr =>
      obtain ⟨⟨s₁, expired⟩, htick, hstep⟩ := bind_eq_some_iff.mp hstep
      have hfirst : opStep s (.tick expired) s₁ := htick
      dsimp only at hstep
      split at hstep
      · have hsecond : opStep s₁ (.reschedule regs framePtr) s' := ⟨d, hstep⟩
        exact ⟨_, .cons hfirst (.single hsecond), rfl⟩
      · cases hstep
        exact ⟨_, .single hfirst, rfl⟩
    | block reason regs framePtr =>
      obtain ⟨s₁, hblock, hstep⟩ := bind_eq_some_iff.mp hstep
      have hfirst : opStep s (.block reason) s₁ := hblock
      have hsecond : opStep s₁ (.reschedule regs framePtr) s' := ⟨d, hstep⟩
      exact ⟨_, .cons hfirst (.single hsecond), rfl⟩
    | exit regs framePtr =>
      obtain ⟨s₁, hexit, hstep⟩ := bind_eq_some_iff.mp hstep
      have hfirst : opStep s (.kill s.current) s₁ := hexit
      have hsecond : opStep s₁ (.reschedule regs framePtr) s' := ⟨d, hstep⟩
      exact ⟨_, .cons hfirst (.single hsecond), rfl⟩
    | yield regs framePtr =>
      have hop : opStep s (.reschedule regs framePtr) s' := ⟨d, hstep⟩
      exact ⟨_, .single hop, rfl⟩
    | wake taskId =>
      obtain ⟨s₁, hwake, heq⟩ := map_eq_some_iff.mp hstep
      cases heq
      have hop : opStep s (.wake taskId) s' := hwake
      exact ⟨_, .single hop, rfl⟩
    | exec pf phys entry userStackTop name pageTable argc argv =>
      obtain ⟨⟨s₁, r⟩, hrun, heq⟩ := map_eq_some_iff.mp hstep
      cases heq
      have hop : opStep s (.exec pf phys entry userStackTop name pageTable argc argv) s₁ :=
        ⟨r, hrun⟩
      exact ⟨_, .single hop, rfl⟩

theorem timers_snoc (history : List (Transition Scheduler KernelEvent)) (m : Scheduler)
    (l : KernelEvent) :
    timers (history ++ [⟨m, l, s'⟩]) = timers history + if l.isTimer then 1 else 0 := by
  unfold timers
  rw [countP_append, countP_singleton]

variable {history : List (Transition Scheduler KernelEvent)}
  (h : Run lifeStep Scheduler.new history s)

include h in
theorem ops_of_life :
    ∃ ops, Run opStep Scheduler.new ops s ∧ tickOps ops = timers history := by
  induction h with
  | nil => exact ⟨_, .nil, rfl⟩
  | @snoc history m l s' _ hstep ih =>
    obtain ⟨ops, hops, hticks⟩ := ih
    obtain ⟨more, hmore, hticks'⟩ := lifeStep_ops hstep
    refine ⟨_, hops.append hmore, ?_⟩
    rw [timers_snoc, ← hticks, ← hticks']
    exact countP_append

include h in
theorem boostCountdown_of_life :
    s.boostCountdown = countdownAt (timers history) := by
  obtain ⟨ops, hops, hticks⟩ := ops_of_life h
  rw [boostCountdown_of_run hops, hticks]

/-! ## The state between events -/

/-- Before `run` the scheduler is booting, afterwards it has settled. -/
def Alive (s : Scheduler) : Prop := Booting s ∨ Settled s

theorem Alive.consistent (h : Alive s) : Consistent s.tasks s.queues := by
  rcases h with h | h
  · exact h.consistent
  · exact h.consistent

theorem taskAt_noTask (s : Scheduler) : s.taskAt noTask = none := if_neg (by decide)

/-- Before `run` there is no current task to block, to exit, to yield or to replace. -/
theorem step_eq_none {e : Event} (hcur : s.current = noTask) (he : ¬ e.AtBoot) :
    s.step e = none := by
  cases e with
  | block reason regs framePtr =>
    simp only [step, blockCurrent, hcur, taskAt_noTask, bind_eq_bind, bind_none]
  | exit regs framePtr =>
    simp only [step, exitCurrent, kill, hcur, taskAt_noTask, bind_eq_bind, bind_none]
  | yield regs framePtr =>
    simp only [step, reschedule, requeueOld, hcur, taskAt_noTask, bind_eq_bind, bind_none]
  | exec pf phys entry userStackTop name pageTable argc argv =>
    simp only [step, replaceCurrentTask, hcur, taskAt_noTask, bind_eq_bind, bind_none, map_none]
  | _ => exact absurd trivial he

theorem lifeStep_alive {l : KernelEvent} (h : Alive s) (hstep : lifeStep s l s') : Alive s' := by
  cases l with
  | run =>
    obtain ⟨hcur, d, hrun⟩ := hstep
    rcases h with hboot | hset
    · exact .inr (run_spec hboot hrun).1
    · exact absurd hcur (ne_noTask hset.current_lt)
  | event e =>
    obtain ⟨he, d, hstep⟩ := hstep
    rcases h with hboot | hset
    · by_cases hat : e.AtBoot
      · exact .inl (step_booting hboot he hat hstep)
      · rw [step_eq_none hboot.current_eq hat] at hstep
        cases hstep
    · exact .inr (step_keeps hset he hstep).1

include h in
theorem alive_of_life : Alive s :=
  h.invariant' (.inl booting_new) fun _ _ _ hm hstep => lifeStep_alive hm hstep

/-! ## The boost -/

/-- What the boost makes of `s`. -/
structure Boosted (s s' : Scheduler) : Prop where
  emptied : ∀ k, 1 ≤ k → k < priorityLevels → (s'.queues k).toList = []
  concatenated : (s'.queues 0).toList = s.queued
  lost_eq : ∀ k < priorityLevels, (s'.queues k).lost = (s.queues k).lost
  states : ∀ slot, (s'.tasks slot).map (·.state) = (s.tasks slot).map (·.state)
  ready : ∀ slot < maxTasks, ∀ t, s'.tasks slot = some t → t.state = .ready →
    t.priority = 0 ∧ t.ticksUsed = 0

theorem queued_eq (s : Scheduler) : s.queued = (s.queues 0).toList ++ s.drainable := by
  unfold queued drainable
  rw [range_eq_range', show priorityLevels = priorityLevels - 1 + 1 from rfl,
    range'_succ, flatMap_cons]
  rfl

/-- All queues together fit in one. -/
theorem Consistent.length_queued_le (h : Consistent s.tasks s.queues) :
    s.queued.length ≤ maxTasks := by
  refine length_le_of_nodup (h.buckets.nodup_flatMap nodup_range) ?_
  intro slot hslot
  obtain ⟨k, -, hk⟩ := (mem_queued slot).mp hslot
  exact lt_of_levelOf ((h.mem_iff k slot).mp hk)

/-- A ready task above level 0 is among those that are moved. -/
theorem Consistent.mem_drainable (h : Consistent s.tasks s.queues) (hlt : slot < maxTasks)
    (ht : s.tasks slot = some t) (hready : t.state = .ready) (hp : t.priority ≠ 0) :
    slot ∈ s.drainable := by
  obtain ⟨hlevel, hmem, -⟩ := h.ready_queued hlt ht hready
  refine mem_flatMap.mpr ⟨t.priority, ?_, hmem⟩
  rw [mem_range'_1]
  omega

theorem boostAll_boosted (h : Alive s) (hm : Metered meter s) :
    ∃ s', s.boostAll = some s' ∧ Boosted s s' := by
  obtain ⟨s', hrun, hdrained⟩ := hm.inTable.boostAll_drained
  have hfits : (s.queues 0).toList.length + s.drainable.length ≤ maxTasks := by
    rw [← List.length_append, ← queued_eq]
    exact h.consistent.length_queued_le
  obtain ⟨hzero, hlost⟩ := hdrained.queue_zero hfits
  refine ⟨s', hrun, ?_, hzero.trans (queued_eq s).symm, ?_, ?_, ?_⟩
  · intro k hpos hk
    exact (hdrained.emptied k (List.mem_range'_1.mpr (by omega))).1
  · intro k hk
    by_cases hk0 : k = 0
    · rw [hk0, hlost]
    · exact (hdrained.emptied k (List.mem_range'_1.mpr (by omega))).2
  · intro slot
    rw [hdrained.tasks slot]
    split
    · rw [Option.map_map]
      rfl
    · rfl
  · intro slot hlt t ht hready
    rw [hdrained.tasks slot] at ht
    split at ht
    · obtain ⟨u, -, rfl⟩ := Option.map_eq_some_iff.mp ht
      exact ⟨rfl, rfl⟩
    · next hmem =>
        have hp : t.priority = 0 := by
          by_contra hp
          exact hmem (h.consistent.mem_drainable hlt ht hready hp)
        -- the quantum of level 0 is one tick
        obtain ⟨-, -, quantum, hq, hless⟩ := hm.tasks slot hlt t ht
        rw [hp] at hq
        cases hq
        exact ⟨hp, Nat.lt_one_iff.mp hless⟩

/-! ## Waiting -/

/-- The task in `slot` waits at a level above 0. -/
def WaitsAbove (s : Scheduler) (slot : TaskId) : Prop :=
  slot < maxTasks ∧ ∃ t, s.tasks slot = some t ∧ t.state = .ready ∧ 0 < t.priority

theorem Alive.current_ne (h : Alive s) (hwaits : s.WaitsAbove slot) : slot ≠ s.current := by
  obtain ⟨hlt, t, ht, hready, -⟩ := hwaits
  rcases h with h | h
  · rw [h.current_eq]
    exact ne_noTask hlt
  · rintro rfl
    obtain ⟨u, hu, hrun⟩ := h.exists_current
    rw [ht] at hu
    cases hu
    rw [hready] at hrun
    cases hrun

/-- Nobody waits above level 0 when the boost has fired. -/
theorem timer_boosts {regs : AllRegisters} {framePtr : U64}
    {d : Option Dispatch} (h : Alive s) (hm : Metered meter s) (hdue : s.Due)
    (hstep : s.timerTick regs framePtr = some (s', d)) (hwaits : s.WaitsAbove slot) :
    ¬ s'.WaitsAbove slot := by
  have hne := h.current_ne hwaits
  obtain ⟨hlt, t, ht, hready, hp⟩ := hwaits
  obtain ⟨s₁, hcount, -, htasks⟩ := countdown_tasks hm.inTable
  obtain ⟨s₁', s₂, expired, hcount', htick, hticked, -⟩ := tick_metered hm
  rw [hcount] at hcount'
  cases hcount'
  have hmem : slot ∈ s.dueSlots := by
    unfold dueSlots
    rw [if_pos hdue]
    exact h.consistent.mem_drainable hlt ht hready (Nat.pos_iff_ne_zero.mp hp)
  have hboosted : s₂.tasks slot = some t.boosted := by
    rw [hticked.others slot hne, htasks slot, if_pos hmem, ht]
    rfl
  unfold timerTick at hstep
  simp only [htick, bind_eq_bind, bind_some] at hstep
  have hprio : (s'.tasks slot).map (·.priority) = (s₂.tasks slot).map (·.priority) := by
    split at hstep
    · refine (writes_reschedule hstep).tasks.map_eq ?_ slot
      rintro u v ⟨state, context, awakePending, -⟩
      rfl
    · cases hstep
      rfl
  rintro ⟨-, u, hu, -, hpos⟩
  rw [hu, hboosted] at hprio
  have hzero : u.priority = 0 := some.inj hprio
  omega

/-- While a task waits above level 0 no boost fires, so that the countdown goes on. -/
theorem timers_add_boostCountdown {later : List (Transition Scheduler KernelEvent)}
    (hrun : Run lifeStep Scheduler.new history s) (hlater : Run lifeStep s later s')
    (hwaits : s.WaitsAbove slot) (hall : ∀ l ∈ later, l.dst.WaitsAbove slot) :
    timers later + s'.boostCountdown = s.boostCountdown ∧ s'.WaitsAbove slot := by
  induction hlater with
  | nil => exact ⟨Nat.zero_add _, hwaits⟩
  | @snoc later m l s' hprefix hstep ih =>
    obtain ⟨hsum, hm⟩ := ih fun l hl => hall l (mem_append_left _ hl)
    have hs' : s'.WaitsAbove slot := hall _ (mem_append_right _ (mem_singleton_self _))
    refine ⟨?_, hs'⟩
    have hto := hrun.append hprefix
    have hcount := boostCountdown_of_life hto
    have hcount' := boostCountdown_of_life (hto.snoc hstep)
    rw [timers_snoc] at hcount' ⊢
    cases htimer : l.isTimer with
    | false =>
      rw [htimer] at hcount'
      rw [hcount'.trans hcount.symm]
      exact hsum
    | true =>
      have hnot : ¬ m.Due := by
        intro hdue
        obtain ⟨ops, hops, -⟩ := ops_of_life hto
        cases l with
        | run => cases htimer
        | event e =>
          obtain ⟨-, d, hstep⟩ := hstep
          cases e with
          | timer regs framePtr =>
            exact timer_boosts (alive_of_life hto) (metered_of_run hops) hdue hstep hm hs'
          | _ => cases htimer
      unfold Due at hnot
      rw [htimer, if_pos rfl, countdownAt_succ, ← hcount, if_neg hnot] at hcount'
      rw [if_pos rfl]
      omega

/-! ## No starvation -/

/-- **Anti-starvation boost.** After any run of the scheduler, with `timers history` ticks in it:
the countdown is in range and the next tick boosts exactly if it is a 500th one; the boost, if it
happened now, would move every ready task to level 0 in order; and whatever happens next, no task
waits above level 0 for 500 ticks. -/
theorem noStarvation {history : List (Transition Scheduler KernelEvent)}
    (h : Run lifeStep Scheduler.new history s) :
    (1 ≤ s.boostCountdown ∧ s.boostCountdown ≤ boostInterval) ∧
    (s.countdown = if boostInterval ∣ timers history + 1 then
        (boostAll { s with tickCount := s.tickCount + 1, boostCountdown := 0 }).map
          fun s' => { s' with boostCountdown := boostInterval }
      else some { s with
        tickCount := s.tickCount + 1
        boostCountdown := s.boostCountdown - 1 }) ∧
    (∃ s', s.boostAll = some s' ∧ Boosted s s') ∧
    ∀ later s' slot, Run lifeStep s later s' → s.WaitsAbove slot →
      (∀ l ∈ later, l.dst.WaitsAbove slot) → timers later < boostInterval := by
  have hcount := boostCountdown_of_life h
  have hrange : 1 ≤ s.boostCountdown ∧ s.boostCountdown ≤ boostInterval := by
    rw [hcount]
    unfold countdownAt boostInterval
    omega
  refine ⟨hrange, ?_, ?_, ?_⟩
  · have hdue : s.Due ↔ boostInterval ∣ timers history + 1 := by
      unfold Due
      rw [hcount]
      unfold countdownAt boostInterval
      omega
    split
    · next hdvd => exact countdown_of_due (hdue.mpr hdvd)
    · next hdvd => exact countdown_of_not_due fun hd => hdvd (hdue.mp hd)
  · obtain ⟨ops, hops, -⟩ := ops_of_life h
    exact boostAll_boosted (alive_of_life h) (metered_of_run hops)
  · intro later s' slot hlater hwaits hall
    have hsum := (timers_add_boostCountdown h hlater hwaits hall).1
    have hpos : 1 ≤ s'.boostCountdown := by
      rw [boostCountdown_of_life (h.append hlater)]
      unfold countdownAt boostInterval
      omega
    omega

/-- Two tasks at level 5, one of which runs: the other one waits, but for less than 500 ticks. -/
theorem noStarvation_two_tasks :
    ∃ history s, Run lifeStep Scheduler.new history s ∧ timers history = 1 ∧ s.WaitsAbove 1 ∧
      (∃ s', s.boostAll = some s' ∧ Boosted s s') ∧
      ∀ later s', Run lifeStep s later s' → (∀ l ∈ later, l.dst.WaitsAbove 1) →
        timers later < boostInterval := by
  obtain ⟨s₀, s₁, s₂, s, hfirst, hsecond, hstart, htimer, t, ht, hready, hprio⟩ : ∃ s₀ s₁ s₂ s,
      lifeStep Scheduler.new (.event spawnFirst) s₀ ∧ lifeStep s₀ (.event spawnSecond) s₁ ∧
      lifeStep s₁ .run s₂ ∧ lifeStep s₂ (.event (.timer default 0)) s ∧
      ∃ t, s.tasks 1 = some t ∧ t.state = .ready ∧ t.priority = 5 :=
    ⟨_, _, _, _, ⟨trivial, none, rfl⟩, ⟨trivial, none, rfl⟩, ⟨rfl, _, rfl⟩, ⟨trivial, none, rfl⟩,
      _, rfl, rfl, rfl⟩
  have hhistory := Run.cons hfirst (.cons hsecond (.cons hstart (.single htimer)))
  have hwaits : s.WaitsAbove 1 := ⟨by decide, t, ht, hready, by rw [hprio]; decide⟩
  obtain ⟨-, -, hboost, hlater⟩ := noStarvation hhistory
  exact ⟨_, s, hhistory, rfl, hwaits, hboost,
    fun later s' hrun hall => hlater later s' 1 hrun hwaits hall⟩

end BeastOs.Scheduler
