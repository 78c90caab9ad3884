import BeastOs.Scheduler.Dead

/-!
# Which task runs next

`reschedule` puts the old task back, if it was running, and takes the next one from the best queue
that is not empty. `reschedule_bestFirst` says that this is the first of the ready tasks with the
best priority, and that the queues are otherwise as they were.

All that is asked of the state is that the queues are consistent, as they are whenever the kernel
calls `reschedule`: a ready task is queued once, in the queue of its priority, and nothing else is
queued. The old task may be running, or blocked or dead by then. If it is running and its priority
is no level at all, `reschedule` panics when it indexes the queues; no other panic is possible.
-/

namespace BeastOs.Scheduler

open List Function Lib

/-! ## Consistent queues -/

/-- The queues of `RunQueueConsistent`. -/
structure ReadyQueued (s : Scheduler) : Prop where
  ready : ∀ slot < maxTasks, ∀ t, s.tasks slot = some t → t.state = .ready →
    t.priority < priorityLevels ∧ slot ∈ (s.queues t.priority).toList ∧ s.queued.count slot = 1
  others : ∀ slot, (∀ t, slot < maxTasks → s.tasks slot = some t → t.state ≠ .ready) →
    slot ∉ s.queued

/-- The state in which `reschedule` is called. -/
structure Switching (s : Scheduler) : Prop where
  queued : ReadyQueued s
  current_lt : s.current < maxTasks
  current_task : ∃ t, s.tasks s.current = some t ∧ t.state ≠ .ready

/-- There is a queue for the old task, if it is to be put back. -/
def Requeueable (s : Scheduler) : Prop :=
  ∀ t, s.tasks s.current = some t → t.state = .running → t.priority < priorityLevels

variable {s s' : Scheduler} {slot : TaskId} {t : Task} {k : Nat} {regs : AllRegisters}

/-- Between a block or an exit and the context switch the queues are consistent as well. -/
theorem Leaving.switching (h : Leaving s) : Switching s :=
  ⟨⟨fun _ hlt _ ht hready => h.consistent.ready_queued hlt ht hready,
    fun _ hother => h.consistent.not_queued hother⟩, h.current_lt, h.current_task⟩

/-- The slots in a queue; there are no queues beyond the last level. -/
def listed (s : Scheduler) (k : Nat) : List TaskId :=
  if k < priorityLevels then (s.queues k).toList else []

theorem listed_of_lt (hk : k < priorityLevels) : s.listed k = (s.queues k).toList :=
  if_pos hk

theorem mem_listed : slot ∈ s.listed k ↔ k < priorityLevels ∧ slot ∈ (s.queues k).toList := by
  unfold listed
  split
  · next hk => simp [hk]
  · next hk => simp [hk]

theorem ReadyQueued.ready_of_listed (h : ReadyQueued s) (hslot : slot ∈ s.listed k) :
    slot < maxTasks ∧ ∃ t, s.tasks slot = some t ∧ t.state = .ready := by
  by_contra hnot
  refine h.others slot ?_ ((mem_queued slot).mpr ⟨k, mem_listed.mp hslot⟩)
  intro t hlt ht hready
  exact hnot ⟨hlt, t, ht, hready⟩

theorem ReadyQueued.buckets (h : ReadyQueued s) : Buckets (levelOf s.tasks) s.listed := by
  refine ⟨fun k slot => ⟨fun hslot => ?_, fun hlevel => ?_⟩, fun k => ?_⟩
  · obtain ⟨hlt, t, ht, hready⟩ := h.ready_of_listed hslot
    obtain ⟨hp, hmem, hcount⟩ := h.ready slot hlt t ht hready
    obtain ⟨hk, hslot⟩ := mem_listed.mp hslot
    rw [levelOf_of_lt hlt, ht, readyLevel_ready hready]
    by_contra hne
    have htwo := two_le_count_flatMap (q := fun k => (s.queues k).toList)
      (fun heq => hne (congrArg some heq)) (mem_range.mpr hp) (mem_range.mpr hk)
      hmem hslot
    unfold queued at hcount
    omega
  · obtain ⟨t, ht, hready, rfl⟩ := ready_of_levelOf hlevel
    obtain ⟨hp, hmem, -⟩ := h.ready slot (lt_of_levelOf hlevel) t ht hready
    exact mem_listed.mpr ⟨hp, hmem⟩
  · rw [nodup_iff_count_le_one]
    intro slot
    by_cases hslot : slot ∈ s.listed k
    · obtain ⟨hlt, t, ht, hready⟩ := h.ready_of_listed hslot
      obtain ⟨hk, -⟩ := mem_listed.mp hslot
      rw [← (h.ready slot hlt t ht hready).2.2, listed_of_lt hk]
      have hqueue := mem_map_of_mem (f := fun k => (s.queues k).toList) (mem_range.mpr hk)
      exact (sublist_flatten_of_mem hqueue).count_le slot
    · rw [count_eq_zero_of_not_mem hslot]
      exact Nat.zero_le 1

variable (h : Buckets (levelOf s.tasks) s.listed)

include h in
theorem readyQueues_of_buckets : ReadyQueues s :=
  fun k hk slot hslot => (h.mem_iff k slot).mp (mem_listed.mpr ⟨hk, hslot⟩)

theorem listed_setQueue (hk : k < priorityLevels) (q : TaskQueue) :
    (s.setQueue k q).listed = update s.listed k q.toList := by
  funext j
  unfold listed
  dsimp only [setQueue]
  by_cases hj : j = k
  · subst hj
    rw [if_pos hk, update_self, update_self]
  · simp only [update_of_ne hj]

/-- `pick_next` returns `NO_TASK` only if no task is ready. -/
def PicksReady (s : Scheduler) : Prop :=
  ∃ s' slot, s.pickNext = some (s', slot) ∧ (slot = noTask → ¬ s.HasReady)

include h in
theorem not_hasReady_of_listed
    (hempty : ∀ k < priorityLevels, (s.queues k).toList = []) : ¬ s.HasReady := by
  rintro ⟨slot, hlt, t, ht, hready⟩
  have hlevel : levelOf s.tasks slot = some t.priority := by
    rw [levelOf_of_lt hlt, ht, readyLevel_ready hready]
  obtain ⟨hp, hmem⟩ := mem_listed.mp ((h.mem_iff _ _).mpr hlevel)
  rw [hempty _ hp] at hmem
  cases hmem

include h in
theorem picksReady_of_buckets : PicksReady s := by
  obtain ⟨s', slot, hpick, hpicked⟩ := (readyQueues_of_buckets h).pickNext
  refine ⟨s', slot, hpick, fun hslot => ?_⟩
  cases hpicked with
  | nothing hempty => exact not_hasReady_of_listed h hempty
  | task _ _ _ _ hlt => exact absurd hslot (ne_noTask hlt)

/-! ## Putting the old task back -/

/-- The old task, which was `t`, is at the end of its queue if it was running. -/
structure Requeued (t : Task) (s s₁ : Scheduler) : Prop where
  current_eq : s₁.current = s.current
  tasks : ∃ u, s₁.tasks = Function.update s.tasks s.current (some u) ∧ u.priority = t.priority ∧
    u.state = if t.state = .running then .ready else t.state
  queues : ∀ k < priorityLevels, (s₁.queues k).toList =
    (s.queues k).toList ++ if t.state = .running ∧ t.priority = k then [s.current] else []

theorem requeueOld_requeued (regs : AllRegisters) (framePtr : U64)
    (h : Buckets (levelOf s.tasks) s.listed) (hlt : s.current < maxTasks)
    (ht : s.tasks s.current = some t) (hstate : t.state ≠ .ready)
    (hp : t.state = .running → t.priority < priorityLevels) :
    ∃ s₁, s.requeueOld regs framePtr = some s₁ ∧ Requeued t s s₁ ∧
      Buckets (levelOf s₁.tasks) s₁.listed := by
  have hnone : levelOf s.tasks s.current = none := by
    rw [levelOf_of_lt hlt, ht, readyLevel_not_ready hstate]
  unfold requeueOld
  simp only [Option.bind_eq_bind, taskAt_of_lt hlt, Option.bind_some, ht]
  by_cases hrun : t.state = .running
  · have hp := hp hrun
    rw [if_pos hrun, onQueue_of_lt hp]
    have hroom : (s.queues t.priority).toList.length < maxTasks := by
      rw [← listed_of_lt hp]
      refine length_lt_of_nodup_of_not_mem (h.nodup _) ?_ hlt (h.not_mem hnone _)
      exact fun j hj => lt_of_levelOf ((h.mem_iff _ j).mp hj)
    refine ⟨_, rfl, ⟨rfl, ⟨_, rfl, rfl, by rw [if_pos hrun]⟩, fun k hk => ?_⟩, ?_⟩
    · dsimp only [setQueue, setTask]
      by_cases hk' : k = t.priority
      · rw [hk', update_self, TaskQueue.toList_pushBack hroom, if_pos ⟨hrun, rfl⟩]
      · rw [update_of_ne hk', if_neg (fun hand => hk' hand.2.symm), append_nil]
    · rw [listed_setQueue hp]
      dsimp only [setQueue, setTask]
      rw [levelOf_update _ hlt, readyLevel_ready rfl]
      refine h.insert hnone ?_
      rw [listed_of_lt hp]
      exact TaskQueue.perm_pushBack hroom
  · rw [if_neg hrun]
    refine ⟨_, rfl, ⟨rfl, ⟨_, rfl, rfl, by rw [if_neg hrun]⟩, fun k _ => ?_⟩, ?_⟩
    · rw [if_neg (fun hand => hrun hand.1), append_nil]
      rfl
    · show Buckets (levelOf (update s.tasks s.current _)) s.listed
      rw [levelOf_update _ hlt, readyLevel_not_ready (by exact hstate), ← hnone, update_eq_self]
      exact h

/-! ## Switching to the next one -/

/-- From `s`, where the old task has been put back, to `s'`: the first of the best ready tasks runs,
and the others wait in the order in which they did. -/
structure BestFirst (s s' : Scheduler) : Prop where
  running : s'.IsRunning s'.current
  best : s.HasReady → ∃ t, s'.current < maxTasks ∧ s.tasks s'.current = some t ∧
    t.state = .ready ∧ (s.queues t.priority).toList.head? = some s'.current ∧
    ∀ slot < maxTasks, ∀ u, s.tasks slot = some u → u.state = .ready → t.priority ≤ u.priority
  order : ∀ k < priorityLevels,
    (s'.queues k).toList = (s.queues k).toList.filter (· ≠ s'.current)

include h in
/-- The first slot of the best queue that is not empty is taken from it. -/
theorem bestFirst_of_picked {q : TaskQueue} (hk : k < priorityLevels)
    (hbelow : ∀ j < k, (s.queues j).toList = []) (hlist : (s.queues k).toList = slot :: q.toList)
    (hlt : slot < maxTasks) (ht : s.tasks slot = some t) (hready : t.state = .ready)
    (hprio : t.priority = k) (hcur : s'.current = slot) (hrunning : s'.IsRunning slot)
    (hqueues : s'.queues = update s.queues k q) : BestFirst s s' := by
  have hslot : slot ∈ s.listed k := by
    rw [listed_of_lt hk, hlist]
    exact mem_cons_self
  refine ⟨by rw [hcur]; exact hrunning, fun _ => ⟨t, ?_⟩, fun j hj => ?_⟩
  · rw [hcur]
    refine ⟨hlt, ht, hready, by rw [hprio, hlist, head?_cons], ?_⟩
    intro j hj u hu huready
    by_contra hlow
    have hlevel : levelOf s.tasks j = some u.priority := by
      rw [levelOf_of_lt hj, hu, readyLevel_ready huready]
    obtain ⟨-, hmem⟩ := mem_listed.mp ((h.mem_iff _ _).mpr hlevel)
    rw [hbelow _ (by omega)] at hmem
    cases hmem
  · rw [hcur, hqueues]
    by_cases hjk : j = k
    · subst hjk
      have hnodup := h.nodup j
      rw [listed_of_lt hk, hlist] at hnodup
      rw [update_self, hlist, filter_cons_of_neg (by simp)]
      refine (filter_eq_self.mpr fun i hi => ?_).symm
      exact decide_eq_true fun heq => (nodup_cons.mp hnodup).1 (heq ▸ hi)
    · rw [update_of_ne hjk]
      refine (filter_eq_self.mpr fun i hi => ?_).symm
      refine decide_eq_true fun heq => hjk ?_
      exact h.bucket_unique (by rw [listed_of_lt hj, ← heq]; exact hi) hslot

include h in
theorem switchTo_bestFirst (hlt : s.current < maxTasks) (ht : s.tasks s.current = some t) :
    ∃ s' d, s.switchTo s.current = some (s', d) ∧ BestFirst s s' := by
  obtain ⟨s₁, newSlot, hpick, hpicked⟩ := (readyQueues_of_buckets h).pickNext
  cases hpicked with
  | nothing hempty =>
    refine ⟨_, none, switchTo_of_nothing hpick hlt ht, ⟨_, update_self _ _ _, rfl⟩, ?_,
      fun k hk => ?_⟩
    · exact fun hready => absurd hready (not_hasReady_of_listed h hempty)
    · show (s.queues k).toList = _
      rw [hempty k hk, filter_nil]
  | task hk hbelow hlist _ hnew hu hready hprio =>
    obtain ⟨s', d, hrun, rfl, -⟩ := switchTo_of_picked hnew hpick hu
    exact ⟨_, d, hrun, bestFirst_of_picked h hk (fun j hj => hbelow j hj (Nat.lt_trans hj hk))
      hlist hnew hu hready hprio rfl ⟨_, update_self _ _ _, rfl⟩ rfl⟩

theorem reschedule_eq_switchTo {framePtr : U64} {s₁ : Scheduler}
    (hrun : s.requeueOld regs framePtr = some s₁) :
    s.reschedule regs framePtr = s₁.switchTo s.current := by
  unfold reschedule
  rw [hrun]
  rfl

/-- The old task is put back and the best one runs. -/
theorem reschedule_of_requeueable (regs : AllRegisters) (framePtr : U64) (h : Switching s)
    (hq : s.Requeueable) : ∃ t s₁ s' d, s.tasks s.current = some t ∧
      s.requeueOld regs framePtr = some s₁ ∧ s.reschedule regs framePtr = some (s', d) ∧
      Requeued t s s₁ ∧ PicksReady s₁ ∧ BestFirst s₁ s' := by
  obtain ⟨t, ht, hstate⟩ := h.current_task
  obtain ⟨s₁, hrun₁, hrequeued, hbuckets₁⟩ :=
    requeueOld_requeued regs framePtr h.queued.buckets h.current_lt ht hstate (hq t ht)
  obtain ⟨u, htasks, -⟩ := hrequeued.tasks
  have hcur := hrequeued.current_eq
  have hu : s₁.tasks s₁.current = some u := by rw [htasks, hcur, update_self]
  obtain ⟨s', d, hrun, hbest⟩ :=
    switchTo_bestFirst hbuckets₁ (by rw [hcur]; exact h.current_lt) hu
  refine ⟨t, s₁, s', d, ht, hrun₁, ?_, hrequeued, picksReady_of_buckets hbuckets₁, hbest⟩
  rw [reschedule_eq_switchTo hrun₁, ← hcur]
  exact hrun

theorem requeueable_of_reschedule {framePtr : U64} (h : Switching s)
    (hsome : (s.reschedule regs framePtr).isSome) : s.Requeueable := by
  intro t ht hrun
  by_contra hp
  have hpanic : s.requeueOld regs framePtr = none := by
    unfold requeueOld
    simp only [Option.bind_eq_bind, taskAt_of_lt h.current_lt, Option.bind_some, ht]
    rw [if_pos hrun]
    exact if_neg hp
  unfold reschedule at hsome
  rw [hpanic] at hsome
  cases hsome

/-- **The scheduler runs the best task, first come first served.** -/
theorem reschedule_bestFirst (regs : AllRegisters) (framePtr : U64) (h : Switching s) :
    PicksReady s ∧ ((s.reschedule regs framePtr).isSome ↔ s.Requeueable) ∧
    ∀ s' d, s.reschedule regs framePtr = some (s', d) → ∃ t s₁, s.tasks s.current = some t ∧
      s.requeueOld regs framePtr = some s₁ ∧ Requeued t s s₁ ∧ PicksReady s₁ ∧ BestFirst s₁ s' := by
  refine ⟨picksReady_of_buckets h.queued.buckets, ⟨requeueable_of_reschedule h, fun hq => ?_⟩, ?_⟩
  · obtain ⟨t, s₁, s', d, -, -, hrun, -⟩ := reschedule_of_requeueable regs framePtr h hq
    rw [hrun]
    rfl
  · intro s' d hrun
    have hq := requeueable_of_reschedule h (Option.isSome_of_eq_some hrun)
    obtain ⟨t, s₁, s'', d', ht, hrun₁, hrun', hspec⟩ :=
      reschedule_of_requeueable regs framePtr h hq
    rw [hrun] at hrun'
    cases hrun'
    exact ⟨t, s₁, ht, hrun₁, hspec⟩

/-- Two tasks at one level, the first of which runs: when it yields, the second one runs. -/
theorem reschedule_bestFirst_two_tasks :
    ∃ s s' d t s₁, Switching s ∧ s.current = 0 ∧ s.reschedule default 0 = some (s', d) ∧
      s'.current = 1 ∧ s.tasks 0 = some t ∧ Requeued t s s₁ ∧ BestFirst s₁ s' := by
  obtain ⟨s₀, s₁, s, s', d, d', hfirst, hsecond, hrun, hyield, hcur, hcur'⟩ :
      ∃ s₀ s₁ s s' d d',
        bootStep Scheduler.new spawnFirst s₀ ∧ bootStep s₀ spawnSecond s₁ ∧
        s₁.run = some (s, d) ∧ s.reschedule default 0 = some (s', d') ∧
        s.current = 0 ∧ s'.current = 1 :=
    ⟨_, _, _, _, _, _, ⟨trivial, trivial, none, rfl⟩, ⟨trivial, trivial, none, rfl⟩, rfl, rfl, rfl,
      rfl⟩
  have hset := (settled_of_boot (.cons hfirst (.single hsecond)) hrun).1
  obtain ⟨-, -, hbest⟩ := reschedule_bestFirst default 0 hset.leaving.switching
  obtain ⟨t, s₂, ht, -, hrequeued, -, hfirst⟩ := hbest s' d' hyield
  rw [hcur] at ht
  exact ⟨s, s', d', t, s₂, hset.leaving.switching, hcur, hyield, hcur', ht, hrequeued, hfirst⟩

end BeastOs.Scheduler
