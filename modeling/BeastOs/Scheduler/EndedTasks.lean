import BeastOs.Scheduler.Dead

/-!
# Tasks that have ended

`kill` marks a task as dead and leaves it in the task table; nothing removes it later. So
`wait_task`, which waits until no task of the table has an id, never returns for a task that has
ended, and `find_free_slot` never finds the slot of one. All is well exactly until a task ends, and
that is the first exit while another task is ready.

Main result: `endedReleased_iff_noExitToReady`.
-/

namespace BeastOs.Scheduler

open Option Lib

/-- The test of `wait_task`. -/
def taskExists (s : Scheduler) (taskId : TaskId) : Bool :=
  (List.range maxTasks).any fun slot => ((s.tasks slot).map (·.id == taskId)).getD false

/-- The tasks that are not dead. -/
def alive (s : Scheduler) : Nat :=
  (List.range maxTasks).countP fun slot => (s.tasks slot).any (·.state ≠ .dead)

/-- Nobody waits for a task that has ended, and it does not keep its slot. -/
structure EndedReleased (s : Scheduler) : Prop where
  waiters : ∀ slot < maxTasks, ∀ t, s.tasks slot = some t → t.state = .dead →
    s.taskExists t.id = false
  slots : s.alive < maxTasks → s.findFreeSlot.isSome = true

/-- No task exits while another one is ready. -/
def NoExitToReady (t : Transition Scheduler Event) : Prop :=
  ∀ regs framePtr, t.label = .exit regs framePtr → ¬ t.src.HasReady

def NoneDead (s : Scheduler) : Prop := ∀ slot < maxTasks, ¬ s.IsDead slot

/-- The scheduler is booting, or settled, and no task has ended. -/
def Unended (stage : Scheduler → Prop) (s : Scheduler) : Prop := stage s ∧ NoneDead s

variable {s s' : Scheduler} {e : Event} {d : Option Dispatch}

theorem taskExists_of_task {slot : TaskId} {t : Task} (hlt : slot < maxTasks)
    (ht : s.tasks slot = some t) : s.taskExists t.id = true :=
  List.any_eq_true.mpr ⟨slot, List.mem_range.mpr hlt, by simp [ht]⟩

/-- **In one state**, ended tasks are released if and only if there are none. -/
theorem endedReleased_iff_noneDead (s : Scheduler) : EndedReleased s ↔ NoneDead s := by
  constructor
  · rintro ⟨hwaiters, -⟩ slot hlt ⟨t, ht, hdead⟩
    exact absurd (taskExists_of_task hlt ht) (by simp [hwaiters slot hlt t ht hdead])
  · intro hnone
    refine ⟨fun slot hlt t ht hdead => absurd ⟨t, ht, hdead⟩ (hnone slot hlt), fun halive => ?_⟩
    by_contra hfree
    -- every slot is taken, by a task that is not dead
    have hfull : ∀ slot ∈ List.range maxTasks, (s.tasks slot).any (·.state ≠ .dead) = true := by
      intro slot hslot
      have htaken := List.find?_eq_none.mp (not_isSome_iff_eq_none.mp hfree) slot hslot
      obtain ⟨t, ht⟩ := ne_none_iff_exists'.mp (by simpa using htaken)
      have hdead : t.state ≠ .dead :=
        fun hdead => hnone slot (List.mem_range.mp hslot) ⟨t, ht, hdead⟩
      simp [ht, hdead]
    rw [alive, List.countP_eq_length.mpr hfull, List.length_range] at halive
    exact Nat.lt_irrefl _ halive

theorem SameDead.noneDead_iff (h : SameDead s s') : NoneDead s' ↔ NoneDead s :=
  forall₂_congr fun slot _ => not_congr (h slot)

/-! ## Boot -/

theorem noneDead_bootStep (h : Booting s) (hnone : NoneDead s) (hstep : bootStep s e s') :
    NoneDead s' := by
  obtain ⟨he, hboot, d, hstep⟩ := hstep
  cases e with
  | spawn | spawnUser =>
    exact (grown_of_step h.consistent he trivial hstep).sameDead.noneDead_iff.mpr hnone
  | timer regs framePtr =>
    obtain ⟨s₁, hrun₁, -, hrep₁⟩ := countdown_spec h.consistent
    simp only [step, timerTick, tick, hrun₁, bind_eq_bind, bind_some,
      if_pos (hrep₁.current_eq.trans h.current_eq)] at hstep
    cases hstep
    exact hrep₁.sameDead.noneDead_iff.mpr hnone
  | wake taskId =>
    obtain ⟨s₁, hrun, hret⟩ := map_eq_some_iff.mp hstep
    cases hret
    exact (wakeTask_sameDead hrun).noneDead_iff.mpr hnone
  | _ => cases hboot

/-- Nothing ends before the scheduler runs. -/
theorem noneDead_of_boot {boot : List (Transition Scheduler Event)} {d : Dispatch}
    (hboot : Run bootStep Scheduler.new boot s) (hrun : s.run = some (s', d)) : NoneDead s' := by
  have hnew : Unended Booting Scheduler.new := by
    refine ⟨booting_new, ?_⟩
    rintro slot - ⟨t, ht, -⟩
    cases ht
  obtain ⟨hbooting, hnone⟩ : Unended Booting s := by
    refine hboot.invariant' hnew fun m e m' hm hstep => ⟨?_, noneDead_bootStep hm.1 hm.2 hstep⟩
    obtain ⟨he, hat, d, hstep⟩ := hstep
    exact step_booting hm.1 he hat hstep
  obtain ⟨s₁, newSlot, hpick, hpicked⟩ := pickNext_spec hbooting.consistent
  unfold run at hrun
  simp only [bind_eq_bind, hpick, bind_some] at hrun
  cases hpicked with
  | nothing => simp at hrun
  | @task _ k q u _ _ _ _ hnew hu hready _ =>
    have hu' : (s.setQueue k q).tasks newSlot = some u := hu
    simp only [ne_noTask hnew, if_false, taskAt_of_lt hnew, bind_some, hu'] at hrun
    cases hrun
    refine (SameDead.noneDead_iff ?_).mpr hnone
    exact SameDead.update rfl hu (by simp [hready])

/-! ## All runs -/

/-- **One event** of a scheduler none of whose tasks has ended. -/
theorem noneDead_step_iff (h : Settled s) (hnone : NoneDead s) (he : e.Allowed)
    (hstep : s.step e = some (s', d)) : NoneDead s' ↔ NoExitToReady ⟨s, e, s'⟩ := by
  by_cases hexit : ∃ regs framePtr, e = .exit regs framePtr
  · obtain ⟨regs, framePtr, rfl⟩ := hexit
    rcases step_exit h hstep with ⟨hready, -, hdead⟩ | ⟨hready, -, hdies⟩
    · exact iff_of_false (fun hnone' => hnone' _ h.current_lt hdead)
        fun hexits => hexits regs framePtr rfl hready
    · exact iff_of_true (fun slot hlt hdead => hnone slot hlt
    (hdies slot hdead)) fun _ _ _ => hready
  · have hnot : ∀ regs framePtr, e ≠ .exit regs framePtr :=
      fun regs framePtr heq => hexit ⟨regs, framePtr, heq⟩
    exact iff_of_true ((step_sameDead h he hstep hnot).noneDead_iff.mpr hnone)
      fun regs framePtr heq => absurd heq (hnot regs framePtr)

/-- **Tasks that have ended are released exactly as long as none has ended**: in the states of a run
of the started scheduler, exactly if no task exits while another one is ready. -/
theorem endedReleased_iff_noExitToReady {boot after : List (Transition Scheduler Event)}
    {s₀ s₁ : Scheduler} {d : Dispatch} (hboot : Run bootStep Scheduler.new boot s₀)
    (hrun : s₀.run = some (s₁, d)) (hafter : Run kernelStep s₁ after s) :
    (EndedReleased s₁ ∧ ∀ t ∈ after, EndedReleased t.dst) ↔ ∀ t ∈ after, NoExitToReady t := by
  have hnone₁ := noneDead_of_boot hboot hrun
  have hstart : Unended Settled s₁ := ⟨(settled_of_boot hboot hrun).1, hnone₁⟩
  have hiff : (∀ t ∈ after, EndedReleased t.dst) ↔ ∀ t ∈ after, NoExitToReady t := by
    refine hafter.forall_iff hstart ?_ ?_
    · rintro m e m' ⟨hm, hnone⟩ ⟨he, d, hstep⟩
      exact (endedReleased_iff_noneDead m').trans (noneDead_step_iff hm hnone he hstep)
    · rintro m e m' ⟨hm, hnone⟩ ⟨he, d, hstep⟩ hexits
      exact ⟨(step_keeps hm he hstep).1, (noneDead_step_iff hm hnone he hstep).mpr hexits⟩
  rw [hiff]
  exact and_iff_right ((endedReleased_iff_noneDead s₁).mpr hnone₁)

/-- The only task exits: it runs on, and so it has not ended. -/
theorem endedReleased_only_task : ∃ s₁ s, Run kernelStep s₁ [⟨s₁, .exit default 0, s⟩] s ∧
    EndedReleased s₁ ∧ EndedReleased s := by
  obtain ⟨s₀, s₁, d, s, hboot, hrun, hexit, hempty⟩ : ∃ s₀ s₁ d s,
      bootStep Scheduler.new spawnFirst s₀ ∧
      s₀.run = some (s₁, d) ∧ kernelStep s₁ (.exit default 0) s ∧
      ∀ k < priorityLevels, (s₁.queues k).toList = [] :=
    ⟨_, _, _, _, ⟨trivial, trivial, none, rfl⟩, rfl, ⟨trivial, none, rfl⟩, by decide⟩
  have hnone : ¬ s₁.HasReady :=
    not_hasReady_of_empty (settled_of_boot (Run.single hboot) hrun).1.consistent hempty
  have hafter : Run kernelStep s₁ [⟨s₁, .exit default 0, s⟩] s := Run.single hexit
  obtain ⟨hstart, hend⟩ := (endedReleased_iff_noExitToReady (Run.single hboot) hrun hafter).mpr
    (List.forall_mem_singleton.mpr fun _ _ _ => hnone)
  exact ⟨s₁, s, hafter, hstart, hend _ (List.mem_singleton_self _)⟩

/-- The first of two tasks exits: a third one still waits for it. -/
theorem not_endedReleased_two_tasks : ∃ boot s₀ s₁ d s t, Run bootStep Scheduler.new boot s₀ ∧
    s₀.run = some (s₁, d) ∧ Run kernelStep s₁ [⟨s₁, .exit default 0, s⟩] s ∧
    s.tasks 0 = some t ∧ t.state = .dead ∧ s.taskExists t.id = true ∧ ¬ EndedReleased s := by
  have hboot : Run bootStep Scheduler.new [⟨_, spawnFirst, _⟩, ⟨_, spawnSecond, _⟩] _ :=
    .cons ⟨trivial, trivial, none, rfl⟩ (.single ⟨trivial, trivial, none, rfl⟩)
  refine ⟨_, _, _, _, _, _, hboot, rfl, Run.single ⟨trivial, some _, rfl⟩, rfl, rfl, rfl,
    fun hreleased => ?_⟩
  have hgone := hreleased.waiters 0 (by decide) _ rfl rfl
  cases hgone

end BeastOs.Scheduler
