import BeastOs.Scheduler.RunQueue

/-!
# Slots and ids

Whoever waits for an event leaves the slot of its task behind, and `wake_task` takes it for an id.
The two are given out by different rules: the slot is the first free one, the id comes from a
counter. The counter is also advanced by a spawn that then gets no memory for its stack, and from
there on a new task's id is larger than its slot.

Main result: `slotsAreIds_iff_inOrder`.
-/

namespace BeastOs.Scheduler

open Function Lib Option

/-! ## Spawns -/

/-- What `pmm::alloc_contiguous` answers to a spawn. -/
def Event.stack : Event → Option (Option U64)
  | .spawn _ phys _ _ _ _ => some phys
  | .spawnUser _ phys _ _ _ _ _ _ => some phys
  | _ => none

def KernelEvent.stack : KernelEvent → Option (Option U64)
  | .run => none
  | .event e => e.stack

/-- The current task is to block. -/
def KernelEvent.Blocks : KernelEvent → Prop
  | .event (.block ..) => True
  | _ => False

/-- A spawn finds a free slot but no memory. -/
def SpawnFails (t : Transition Scheduler KernelEvent) : Prop :=
  t.label.stack = some none ∧ t.src.findFreeSlot.isSome

/-- A spawn finds a free slot and memory. -/
def SpawnSucceeds (t : Transition Scheduler KernelEvent) : Prop :=
  (∃ phys, t.label.stack = some (some phys)) ∧ t.src.findFreeSlot.isSome

/-- No spawn succeeds after one that has failed. -/
def InOrder (τ : List (Transition Scheduler KernelEvent)) : Prop :=
  τ.Pairwise fun t t' => SpawnFails t → ¬ SpawnSucceeds t'

/-! ## Waking by slot -/

def HasSlotIds (s : Scheduler) : Prop := ∀ slot t, s.tasks slot = some t → t.id = slot

/-- Every task has its slot as id, and `wake_task` on a slot acts on the task there and on no other.
-/
structure SlotsAreIds (s : Scheduler) : Prop where
  id_eq : HasSlotIds s
  wake : ∀ slot s', s.wakeTask slot = some s' →
    s'.tasks = Function.update s.tasks slot ((s.tasks slot).map Task.woken)

variable {s s' s'' : Scheduler} {slot n : Nat} {t u : Task} {e : Event} {d : Option Dispatch}
  {l : KernelEvent} {phys : Option U64} {blocks : Prop} {stack : Option (Option U64)}

/-- The task that `wake_task` changes is the one it finds. -/
theorem findTask_of_tasks_ne {taskId : TaskId} (h : s.wakeTask taskId = some s')
    (hne : s'.tasks slot ≠ s.tasks slot) : s.findTask taskId = some slot := by
  cases hfind : s.findTask taskId with
  | none =>
    cases (wakeTask_of_none hfind).symm.trans h
    exact absurd rfl hne
  | some j =>
    obtain ⟨-, t, ht, -⟩ := findTask_eq_some hfind
    by_cases hj : slot = j
    · rw [hj]
    · rw [tasks_of_wakeTask hfind ht h, update_of_ne hj] at hne
      exact absurd rfl hne

/-- With ids that are slots, `wake_task` finds the task in the slot. -/
theorem slotsAreIds_of_id_eq (hid : HasSlotIds s)
    (hlt : ∀ slot t, s.tasks slot = some t → slot < maxTasks) : SlotsAreIds s := by
  refine ⟨hid, ?_⟩
  intro slot s' h
  cases ht : s.tasks slot with
  | some t =>
    have hfind : s.findTask slot = some slot := by
      refine findTask_of_unique (hlt slot t ht) ht (hid slot t ht) ?_
      intro j u hu heq
      rw [← hid j u hu, heq]
    exact tasks_of_wakeTask hfind ht h
  | none =>
    have hfind : s.findTask slot = none := by
      cases hfind : s.findTask slot with
      | none => rfl
      | some j =>
        obtain ⟨-, u, hu, heq⟩ := findTask_eq_some hfind
        rw [← heq, hid j u hu, hu] at ht
        cases ht
    cases (wakeTask_of_none hfind).symm.trans h
    rw [map_none, ← ht, update_eq_self]

/-! ## What a step does to ids -/

/-- No task is added and none changes its id, and only the current one gets blocked, if `blocks`
allows it. -/
structure IdsKept (blocks : Prop) (s s' : Scheduler) : Prop where
  nextId_eq : s'.nextId = s.nextId
  id_eq : ∀ slot, (s'.tasks slot).map (·.id) = (s.tasks slot).map (·.id)
  blocked : ∀ slot t', s'.tasks slot = some t' → t'.state = .blocked →
    (blocks ∧ slot = s.current) ∨ ∃ t, s.tasks slot = some t ∧ t.state = .blocked

theorem Kept.id_eq (h : Kept s s') (slot : TaskId) :
    (s'.tasks slot).map (·.id) = (s.tasks slot).map (·.id) := by
  have hmap := congrArg (Option.map Prod.fst) (h.ident_eq slot)
  rwa [map_map, map_map] at hmap

theorem Kept.idsKept (h : Kept s s') : IdsKept blocks s s' :=
  ⟨h.nextId_eq, h.id_eq, fun slot t' ht' hb => Or.inr (h.blocked slot t' ht' hb)⟩

theorem IdsKept.trans_kept (h₁ : IdsKept blocks s s') (h₂ : Kept s' s'') :
    IdsKept blocks s s'' := by
  refine ⟨h₂.nextId_eq.trans h₁.nextId_eq, fun slot => (h₂.id_eq slot).trans (h₁.id_eq slot), ?_⟩
  intro slot t'' ht'' hb
  obtain ⟨t', ht', hb'⟩ := h₂.blocked slot t'' ht'' hb
  exact h₁.blocked slot t' ht' hb'

theorem IdsKept.isSome_eq (h : IdsKept blocks s s') (slot : TaskId) :
    (s'.tasks slot).isSome = (s.tasks slot).isSome := by
  rw [← isSome_map (f := (·.id)), h.id_eq slot, isSome_map]

theorem IdsKept.exists_id_eq (h : IdsKept blocks s s') (ht : s'.tasks slot = some t) :
    ∃ u, s.tasks slot = some u ∧ u.id = t.id := by
  have hid := h.id_eq slot
  rw [ht, map_some] at hid
  exact map_eq_some_iff.mp hid.symm

/-- Rewriting the current task. -/
theorem idsKept_setCurrent (ht : s.tasks s.current = some t) (hid : u.id = t.id)
    (hb : u.state = .blocked → blocks) : IdsKept blocks s (s.setTask s.current u) := by
  refine ⟨rfl, ?_, ?_⟩
  · intro j
    show (update s.tasks s.current (some u) j).map (·.id) = _
    by_cases hj : j = s.current
    · simp only [hj, update_self, ht, map_some, hid]
    · rw [update_of_ne hj]
  · intro j t' ht' hblocked
    dsimp only [setTask] at ht'
    rw [update_apply] at ht'
    split at ht'
    next hj =>
      cases ht'
      exact .inl ⟨hb hblocked, hj⟩
    · exact .inr ⟨t', ht', hblocked⟩

/-- An id is used up, or given to the task in a slot, or nothing happens to ids. -/
inductive IdStep (blocks : Prop) (s : Scheduler) (stack : Option (Option U64)) (s' : Scheduler) :
    Prop
  | kept : ¬ (stack.isSome ∧ s.findFreeSlot.isSome) → IdsKept blocks s s' →
      IdStep blocks s stack s'
  | fails : stack = some none → s.findFreeSlot.isSome → s'.nextId = s.nextId + 1 →
      s'.tasks = s.tasks → IdStep blocks s stack s'
  | succeeds {phys : U64} {slot : TaskId} {t : Task} : stack = some (some phys) →
      s.findFreeSlot = some slot → s'.nextId = s.nextId + 1 → t.id = s.nextId →
      t.state = .ready → s'.tasks = Function.update s.tasks slot (some t) →
      IdStep blocks s stack s'

namespace IdStep

variable (h : IdStep blocks s stack s')
include h

theorem nextId_le : s.nextId ≤ s'.nextId := by
  cases h with
  | kept _ hkept => exact hkept.nextId_eq.ge
  | fails _ _ hnext | succeeds _ _ hnext =>
    rw [hnext]
    exact Nat.le_succ _

/-- Tasks stay in their slots, under their ids. -/
theorem exists_task (ht : s.tasks slot = some t) : ∃ u, s'.tasks slot = some u ∧ u.id = t.id := by
  cases h with
  | kept _ hkept =>
    have hid := hkept.id_eq slot
    rw [ht, map_some] at hid
    exact map_eq_some_iff.mp hid
  | fails _ _ _ htasks => exact ⟨t, htasks ▸ ht, rfl⟩
  | succeeds _ hfree _ _ _ htasks =>
    refine ⟨t, ?_, rfl⟩
    rw [htasks, update_of_ne, ht]
    rintro rfl
    rw [(findFreeSlot_eq_some hfree).2] at ht
    cases ht

theorem exists_old (ht : s'.tasks slot = some t) :
    (∃ u, s.tasks slot = some u ∧ u.id = t.id) ∨ t.id = s.nextId := by
  cases h with
  | kept _ hkept => exact .inl (hkept.exists_id_eq ht)
  | fails _ _ _ htasks => exact .inl ⟨t, htasks ▸ ht, rfl⟩
  | succeeds _ _ _ hid _ htasks =>
    rw [htasks, update_apply] at ht
    split at ht
    · cases ht
      exact .inr hid
    · exact .inl ⟨t, ht, rfl⟩

/-- No task but the current one gets blocked, and that only if the step blocks it. -/
theorem blocked (ht : s'.tasks slot = some t) (hb : t.state = .blocked) :
    (blocks ∧ slot = s.current) ∨ ∃ u, s.tasks slot = some u ∧ u.state = .blocked := by
  cases h with
  | kept _ hkept => exact hkept.blocked slot t ht hb
  | fails _ _ _ htasks => exact .inr ⟨t, htasks ▸ ht, hb⟩
  | succeeds _ _ _ _ hready htasks =>
    rw [htasks, update_apply] at ht
    split at ht
    · cases ht
      rw [hready] at hb
      cases hb
    · exact .inr ⟨t, ht, hb⟩

end IdStep

theorem Spawned.idStep {k : Nat} (h : Spawned s phys k (some s')) :
    IdStep blocks s (some phys) s' := by
  cases h with
  | full hfree heq =>
    cases heq
    exact .kept (by simp [hfree]) (Kept.refl _).idsKept
  | fails hfree hphys heq =>
    cases heq
    exact .fails (congrArg some hphys) (by rw [hfree]; rfl) rfl rfl
  | places hfree hphys hfresh hqueue =>
    have hsame := sameTasks_onQueue hqueue.symm
    exact .succeeds (congrArg some hphys) hfree hsame.nextId_eq hfresh.id_eq hfresh.ready
      hsame.tasks_eq

theorem idsKept_replaceCurrentTask {pf : Platform} {entry userStackTop : U64}
    {name : String} {pageTable argc argv : U64} {d : Dispatch}
    (h : s.replaceCurrentTask pf phys entry userStackTop name pageTable argc argv = some (s', d)) :
    IdsKept blocks s s' := by
  obtain ⟨o, hat, h⟩ := bind_eq_some_iff.mp h
  obtain ⟨t, ho, h⟩ := bind_eq_some_iff.mp h
  obtain ⟨u, hu, h⟩ := bind_eq_some_iff.mp h
  cases h
  exact idsKept_setCurrent ((taskAt_eq_some hat).2.trans ho) (Task.newUser_fresh hu).id_eq nofun

theorem idsKept_blockCurrent {reason : BlockReason} (h : s.blockCurrent reason = some s') :
    IdsKept True s s' := by
  rcases blockCurrent_eq_some h with ⟨-, rfl⟩ | ⟨t, ht, hwrites⟩
  · exact (Kept.refl _).idsKept
  · have hset : IdsKept True s (s.setTask s.current { t with state := .blocked }) :=
      idsKept_setCurrent ht rfl fun _ => trivial
    exact hset.trans_kept (hwrites.kept Task.Adjusts.keeps)

/-- **What a step does to ids.** -/
theorem idStep_of_systemStep (h : systemStep s l s') : IdStep l.Blocks s l.stack s' := by
  cases l with
  | run =>
    obtain ⟨d, h⟩ := h
    exact .kept (by simp [KernelEvent.stack]) (kept_run h).idsKept
  | event e =>
    obtain ⟨d, h⟩ := h
    cases e with
    | spawn pf phys cr3 entry name priority =>
      obtain ⟨⟨s₁, r⟩, hspawn, h⟩ := map_eq_some_iff.mp h
      cases h
      have hspawned := spawn_spawned s pf phys cr3 entry name priority
      rw [hspawn] at hspawned
      exact hspawned.idStep
    | spawnUser pf phys entry userStackTop name priority pageTable trampoline =>
      obtain ⟨⟨s₁, r⟩, hspawn, h⟩ := map_eq_some_iff.mp h
      cases h
      have hspawned := spawnUser_spawned s pf phys entry userStackTop name priority pageTable
        trampoline
      rw [hspawn] at hspawned
      exact hspawned.idStep
    | timer regs framePtr =>
      exact .kept (by simp [KernelEvent.stack, Event.stack]) (kept_timerTick h).idsKept
    | block reason regs framePtr =>
      obtain ⟨s₁, h₁, h⟩ := bind_eq_some_iff.mp h
      exact .kept (by simp [KernelEvent.stack, Event.stack])
        ((idsKept_blockCurrent h₁).trans_kept (kept_reschedule h))
    | exit regs framePtr =>
      obtain ⟨s₁, h₁, h⟩ := bind_eq_some_iff.mp h
      exact .kept (by simp [KernelEvent.stack, Event.stack])
        ((kept_kill h₁).trans (kept_reschedule h)).idsKept
    | yield regs framePtr =>
      exact .kept (by simp [KernelEvent.stack, Event.stack]) (kept_reschedule h).idsKept
    | wake taskId =>
      obtain ⟨s₁, hwake, h⟩ := map_eq_some_iff.mp h
      cases h
      exact .kept (by simp [KernelEvent.stack, Event.stack]) (kept_wakeTask hwake).idsKept
    | exec pf phys entry userStackTop name pageTable argc argv =>
      obtain ⟨⟨s₁, d₁⟩, hexec, h⟩ := map_eq_some_iff.mp h
      cases h
      exact .kept (by simp [KernelEvent.stack, Event.stack]) (idsKept_replaceCurrentTask hexec)

/-! ## Ids are distinct -/

/-- The tasks are in the task table, and no two share an id. -/
structure DistinctIds (s : Scheduler) : Prop where
  lt_maxTasks : ∀ {slot t}, s.tasks slot = some t → slot < maxTasks
  id_lt : ∀ {slot t}, s.tasks slot = some t → t.id < s.nextId
  inj : ∀ {i j t u}, s.tasks i = some t → s.tasks j = some u → t.id = u.id → i = j

theorem distinctIds_new : DistinctIds Scheduler.new where
  lt_maxTasks h := by cases h
  id_lt h := by cases h
  inj h := by cases h

theorem DistinctIds.of_idsKept (h : DistinctIds s) (hkept : IdsKept blocks s s') :
    DistinctIds s' where
  lt_maxTasks ht := by
    obtain ⟨u, hu, -⟩ := hkept.exists_id_eq ht
    exact h.lt_maxTasks hu
  id_lt ht := by
    obtain ⟨u, hu, hid⟩ := hkept.exists_id_eq ht
    rw [← hid, hkept.nextId_eq]
    exact h.id_lt hu
  inj ht hu heq := by
    obtain ⟨t₀, ht₀, hid⟩ := hkept.exists_id_eq ht
    obtain ⟨u₀, hu₀, hid'⟩ := hkept.exists_id_eq hu
    exact h.inj ht₀ hu₀ (by rw [hid, hid', heq])

theorem DistinctIds.of_spawn (h : DistinctIds s) (hlt : slot < maxTasks)
    (hnext : s'.nextId = s.nextId + 1) (hid : t.id = s.nextId)
    (htasks : s'.tasks = update s.tasks slot (some t)) : DistinctIds s' := by
  -- a task of `s'` is the new one, or an old one with an id below the new one's
  have hcases : ∀ {j u}, s'.tasks j = some u → (j = slot ∧ u.id = s.nextId) ∨
      (s.tasks j = some u ∧ u.id < s.nextId) := by
    intro j u hu
    rw [htasks] at hu
    by_cases hj : j = slot
    · rw [hj, update_self] at hu
      cases hu
      exact .inl ⟨hj, hid⟩
    · rw [update_of_ne hj] at hu
      exact .inr ⟨hu, h.id_lt hu⟩
  refine ⟨?_, ?_, ?_⟩
  · intro j u hu
    rcases hcases hu with ⟨rfl, -⟩ | ⟨hu, -⟩
    · exact hlt
    · exact h.lt_maxTasks hu
  · intro j u hu
    rw [hnext]
    rcases hcases hu with ⟨-, heq⟩ | ⟨-, hlt⟩
    · rw [heq]
      exact Nat.lt_succ_self _
    · exact Nat.lt_succ_of_lt hlt
  · intro i j u v hu hv heq
    rcases hcases hu with ⟨hi, hu⟩ | ⟨hi, hu⟩ <;> rcases hcases hv with ⟨hj, hv⟩ | ⟨hj, hv⟩
    · rw [hi, hj]
    · rw [← heq, hu] at hv
      exact absurd hv (lt_irrefl _)
    · rw [heq, hv] at hu
      exact absurd hu (lt_irrefl _)
    · exact h.inj hi hj heq

theorem DistinctIds.step (h : DistinctIds s) (hstep : systemStep s l s') : DistinctIds s' := by
  cases idStep_of_systemStep hstep with
  | kept _ hkept => exact h.of_idsKept hkept
  | fails _ _ hnext htasks =>
    refine ⟨?_, ?_, ?_⟩ <;> simp only [htasks, hnext]
    · exact h.lt_maxTasks
    · exact fun ht => Nat.lt_succ_of_lt (h.id_lt ht)
    · exact h.inj
  | succeeds _ hfree hnext hid _ htasks =>
    exact h.of_spawn (findFreeSlot_eq_some hfree).1 hnext hid htasks

theorem DistinctIds.findTask_eq (h : DistinctIds s) (ht : s.tasks slot = some t) :
    s.findTask t.id = some slot :=
  findTask_of_unique (h.lt_maxTasks ht) ht rfl fun _ _ hu heq => h.inj hu ht heq

/-! ## The two counts -/

/-- The first `n` slots are taken, and at least as many ids. -/
structure Layout (s : Scheduler) (n : Nat) : Prop where
  isSome_iff : ∀ slot, (s.tasks slot).isSome ↔ slot < n
  le_maxTasks : n ≤ maxTasks
  le_nextId : n ≤ s.nextId

theorem layout_new : Layout Scheduler.new 0 :=
  ⟨fun slot => by simp [Scheduler.new], Nat.zero_le _, Nat.zero_le _⟩

theorem Layout.lt_maxTasks (h : Layout s n) (ht : s.tasks slot = some t) : slot < maxTasks :=
  lt_of_lt_of_le ((h.isSome_iff slot).mp (by rw [ht]; rfl)) h.le_maxTasks

/-- The first free slot is the number of those taken. -/
theorem Layout.findFreeSlot_eq (h : Layout s n) (hfree : s.findFreeSlot = some slot) :
    slot = n ∧ n < maxTasks := by
  obtain ⟨hnone, hmem, hbefore⟩ := List.find?_range_eq_some.mp hfree
  have hle : n ≤ slot := by
    by_contra hlt
    have hsome := (h.isSome_iff slot).mpr (Nat.lt_of_not_le hlt)
    rw [isNone_iff_eq_none.mp hnone] at hsome
    cases hsome
  have hge : slot ≤ n := by
    by_contra hlt
    have hsome := hbefore n (Nat.lt_of_not_le hlt)
    rw [not_isNone, (h.isSome_iff n)] at hsome
    exact lt_irrefl n hsome
  have heq : slot = n := le_antisymm hge hle
  exact ⟨heq, heq ▸ List.mem_range.mp hmem⟩

theorem Layout.of_idsKept (h : Layout s n) (hkept : IdsKept blocks s s') : Layout s' n := by
  refine ⟨?_, h.le_maxTasks, hkept.nextId_eq ▸ h.le_nextId⟩
  intro slot
  rw [hkept.isSome_eq slot]
  exact h.isSome_iff slot

theorem Layout.of_spawn (h : Layout s n) (hnext : s'.nextId = s.nextId + 1)
    (htasks : s'.tasks = update s.tasks n (some t)) (hlt : n < maxTasks) : Layout s' (n + 1) := by
  refine ⟨?_, hlt, ?_⟩
  · intro slot
    rw [htasks]
    by_cases hslot : slot = n
    · rw [hslot, update_self]
      simp
    · rw [update_of_ne hslot, h.isSome_iff slot]
      omega
  · rw [hnext]
    exact Nat.succ_le_succ h.le_nextId

theorem HasSlotIds.of_idsKept (h : HasSlotIds s) (hkept : IdsKept blocks s s') : HasSlotIds s' := by
  intro slot t ht
  obtain ⟨u, hu, heq⟩ := hkept.exists_id_eq ht
  rw [← heq]
  exact h slot u hu

theorem HasSlotIds.of_spawn (h : HasSlotIds s) (hid : t.id = n)
    (htasks : s'.tasks = update s.tasks n (some t)) : HasSlotIds s' := by
  intro slot u hu
  rw [htasks] at hu
  by_cases hslot : slot = n
  · rw [hslot, update_self] at hu
    cases hu
    rw [hid, hslot]
  · rw [update_of_ne hslot] at hu
    exact h slot u hu

/-! ## Along a run -/

section

variable {τ : List (Transition Scheduler KernelEvent)} {t : Transition Scheduler KernelEvent}

theorem inOrder_snoc :
    InOrder (τ ++ [t]) ↔ InOrder τ ∧ (SpawnSucceeds t → ¬ ∃ u ∈ τ, SpawnFails u) := by
  unfold InOrder
  rw [List.pairwise_append]
  simp only [List.pairwise_singleton, List.mem_singleton, forall_eq, true_and]
  refine and_congr_right fun _ => ?_
  constructor
  · rintro h hs ⟨u, hu, hfails⟩
    exact h u hu hfails hs
  · intro h u hu hfails hs
    exact h hs ⟨u, hu, hfails⟩

theorem exists_fails_snoc :
    (∃ u ∈ τ ++ [t], SpawnFails u) ↔ (∃ u ∈ τ, SpawnFails u) ∨ SpawnFails t := by
  simp only [List.mem_append, List.mem_singleton, or_and_right, exists_or, exists_eq_left]

/-- What the events so far say about the state: more ids than slots are taken exactly when a spawn
has failed, and as long as none has succeeded afterwards every task has its slot as id. -/
structure Accounted (τ : List (Transition Scheduler KernelEvent)) (s : Scheduler) (n : Nat) :
    Prop where
  layout : Layout s n
  fails_iff : (∃ t ∈ τ, SpawnFails t) ↔ n < s.nextId
  hasSlotIds : InOrder τ → HasSlotIds s

/-- The transition keeps the account, and whether the order still holds shows in the ids. -/
theorem Accounted.step (h : Accounted τ s n) (hstep : systemStep s l s') :
    (∃ m, Accounted (τ ++ [⟨s, l, s'⟩]) s' m) ∧
      (InOrder τ → HasSlotIds s' → InOrder (τ ++ [⟨s, l, s'⟩])) := by
  cases idStep_of_systemStep hstep with
  | kept hno hkept =>
    have hfails : ¬ SpawnFails ⟨s, l, s'⟩ := fun hf => hno ⟨by rw [hf.1]; rfl, hf.2⟩
    have hsucceeds : ¬ SpawnSucceeds ⟨s, l, s'⟩ := by
      rintro ⟨⟨phys, hphys⟩, hfree⟩
      exact hno ⟨by rw [hphys]; rfl, hfree⟩
    refine ⟨⟨n, h.layout.of_idsKept hkept, ?_, ?_⟩, ?_⟩
    · rw [exists_fails_snoc, or_iff_left hfails, hkept.nextId_eq]
      exact h.fails_iff
    · intro hord
      exact (h.hasSlotIds (inOrder_snoc.mp hord).1).of_idsKept hkept
    · intro hord _
      exact inOrder_snoc.mpr ⟨hord, fun hs => absurd hs hsucceeds⟩
  | fails hstack hfree hnext htasks =>
    have hsucceeds : ¬ SpawnSucceeds ⟨s, l, s'⟩ := by
      rintro ⟨⟨phys, hphys⟩, -⟩
      rw [hstack] at hphys
      cases hphys
    refine ⟨⟨n, ⟨?_, h.layout.le_maxTasks, ?_⟩, ?_, ?_⟩, ?_⟩
    · rw [htasks]
      exact h.layout.isSome_iff
    · rw [hnext]
      exact Nat.le_succ_of_le h.layout.le_nextId
    · have hlt : n < s'.nextId := hnext ▸ Nat.lt_succ_of_le h.layout.le_nextId
      exact iff_of_true (exists_fails_snoc.mpr (.inr ⟨hstack, hfree⟩)) hlt
    · intro hord
      unfold HasSlotIds
      rw [htasks]
      exact h.hasSlotIds (inOrder_snoc.mp hord).1
    · intro hord _
      exact inOrder_snoc.mpr ⟨hord, fun hs => absurd hs hsucceeds⟩
  | @succeeds phys slot t hstack hfree hnext hid _ htasks =>
    have hfails : ¬ SpawnFails ⟨s, l, s'⟩ := by
      rintro ⟨hf, -⟩
      rw [hstack] at hf
      cases hf
    have hsucceeds : SpawnSucceeds ⟨s, l, s'⟩ := ⟨⟨phys, hstack⟩, by rw [hfree]; rfl⟩
    obtain ⟨rfl, hlt⟩ := h.layout.findFreeSlot_eq hfree
    -- the new task's id is its slot exactly when no spawn has failed before
    have hord_iff : (¬ ∃ u ∈ τ, SpawnFails u) ↔ s.nextId = slot := by
      have hle := h.layout.le_nextId
      rw [h.fails_iff]
      omega
    refine ⟨⟨slot + 1, h.layout.of_spawn hnext htasks hlt, ?_, ?_⟩, ?_⟩
    · rw [exists_fails_snoc, or_iff_left hfails, hnext, h.fails_iff]
      exact (Nat.add_lt_add_iff_right).symm
    · intro hord
      obtain ⟨hord, hnone⟩ := inOrder_snoc.mp hord
      have heq := hord_iff.mp (hnone hsucceeds)
      exact (h.hasSlotIds hord).of_spawn (hid.trans heq) htasks
    · intro hord hids
      refine inOrder_snoc.mpr ⟨hord, fun _ => hord_iff.mpr ?_⟩
      rw [← hid]
      apply hids
      rw [htasks, update_self]

theorem accounted_new : Accounted [] Scheduler.new 0 :=
  ⟨layout_new, by simp [Scheduler.new], nofun⟩

theorem exists_accounted (hrun : Run systemStep Scheduler.new τ s) : ∃ n, Accounted τ s n := by
  induction hrun with
  | nil => exact ⟨0, accounted_new⟩
  | snoc _ hstep ih =>
    obtain ⟨n, hn⟩ := ih
    exact (hn.step hstep).1

/-- **Slots are ids as long as no spawn succeeds after one that failed**: in any run from boot on,
every state it reaches wakes by slot exactly then. -/
theorem slotsAreIds_iff_inOrder (hrun : Run systemStep Scheduler.new τ s) :
    (∀ t ∈ τ, SlotsAreIds t.dst) ↔ InOrder τ := by
  induction hrun with
  | nil => exact iff_of_true (by simp) List.Pairwise.nil
  | @snoc τ m l s' hrun hstep ih =>
    obtain ⟨n, hn⟩ := exists_accounted hrun
    obtain ⟨⟨k, hk⟩, horder⟩ := hn.step hstep
    rw [List.forall_mem_append, List.forall_mem_singleton, ih]
    constructor
    · rintro ⟨hord, hids⟩
      exact horder hord hids.id_eq
    · intro hord
      refine ⟨(inOrder_snoc.mp hord).1, ?_⟩
      exact slotsAreIds_of_id_eq (hk.hasSlotIds hord) fun _ _ => hk.layout.lt_maxTasks

/-- A spawn with memory for the stack, and then one without. -/
theorem slotsAreIds_one_task : ∃ s₁ s₂,
    systemStep Scheduler.new (.event (.spawn ⟨0, 0, 0⟩ (some 0x100000) 0x1000 0x2000 "idle" 5)) s₁ ∧
    systemStep s₁ (.event (.spawn ⟨0, 0, 0⟩ none 0x1000 0x2000 "next" 5)) s₂ ∧
    s₂.nextId = 2 ∧ SlotsAreIds s₂ := by
  obtain ⟨s₁, s₂, h₁, h₂, hnext⟩ : ∃ s₁ s₂,
      systemStep Scheduler.new
        (.event (.spawn ⟨0, 0, 0⟩ (some 0x100000) 0x1000 0x2000 "idle" 5)) s₁ ∧
      systemStep s₁ (.event (.spawn ⟨0, 0, 0⟩ none 0x1000 0x2000 "next" 5)) s₂ ∧ s₂.nextId = 2 :=
    ⟨_, _, ⟨none, rfl⟩, ⟨none, rfl⟩, rfl⟩
  refine ⟨s₁, s₂, h₁, h₂, hnext, ?_⟩
  have hrun := Run.cons h₁ (Run.single h₂)
  have hids := (slotsAreIds_iff_inOrder hrun).mpr (List.pairwise_pair.mpr fun hfails => by
    cases hfails.1)
  exact hids _ (List.mem_cons_of_mem _ (List.mem_singleton_self _))

/-- A spawn without memory for the stack, and then one with: the task in slot 0 has id 1, and to
wake slot 0 wakes nobody. -/
theorem not_slotsAreIds_after_failure : ∃ s₁ s₂ t,
    systemStep Scheduler.new (.event (.spawn ⟨0, 0, 0⟩ none 0x1000 0x2000 "idle" 5)) s₁ ∧
    systemStep s₁ (.event (.spawn ⟨0, 0, 0⟩ (some 0x100000) 0x1000 0x2000 "next" 5)) s₂ ∧
    s₂.tasks 0 = some t ∧ t.id = 1 ∧ s₂.wakeTask 0 = some s₂ ∧ ¬ SlotsAreIds s₂ := by
  refine ⟨_, _, _, ⟨none, rfl⟩, ⟨none, rfl⟩, rfl, rfl, rfl, fun hids => ?_⟩
  have h := hids.id_eq 0 _ rfl
  cases h

end

end BeastOs.Scheduler
