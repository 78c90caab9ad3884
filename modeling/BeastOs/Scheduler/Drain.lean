import BeastOs.Scheduler.Mlfq

/-!
# What the boost of all tasks does

`boost_all` empties the queues 1 to 5 in turn, writes priority and used quantum of every task it
finds there, and pushes it to queue 0. `Drained` says what has come of that when some levels are
done: exactly the slots `ids` were moved, in this order. Two results only ask that the slots are in
the task table, whatever tasks they hold: the boost does not panic, and it resets just these tasks.
The push drops a slot when queue 0 is full, so that the order is kept only while everything fits.

Main result: `boostAll_drained`.
-/

namespace BeastOs.Scheduler

open List Function Lib

variable {s s' s'' : Scheduler} {slot k : Nat} {t : Task} {P : Scheduler → Prop}

/-- The task at level 0, with a fresh quantum. -/
def Task.boosted (t : Task) : Task := { t with priority := 0, ticksUsed := 0 }

/-- The slots `ids`, which is what the queues `levels` held, have been moved to queue 0. -/
structure Drained (levels : List Nat) (ids : List TaskId) (s s' : Scheduler) : Prop where
  rest : s' = { s with tasks := s'.tasks, queues := s'.queues }
  tasks : ∀ slot, s'.tasks slot =
    if slot ∈ ids then (s.tasks slot).map Task.boosted else s.tasks slot
  emptied : ∀ k ∈ levels, (s'.queues k).toList = [] ∧ (s'.queues k).lost = (s.queues k).lost
  others : ∀ k, k ∉ levels → k ≠ 0 → s'.queues k = s.queues k
  queue_zero : (s.queues 0).toList.length + ids.length ≤ maxTasks →
    (s'.queues 0).toList = (s.queues 0).toList ++ ids ∧ (s'.queues 0).lost = (s.queues 0).lost

/-- Moving one slot. -/
def moveToZero (s : Scheduler) (k : Nat) (q : TaskQueue) (slot : TaskId) : Scheduler :=
  { s with
    tasks := Function.update s.tasks slot ((s.tasks slot).map Task.boosted)
    queues := Function.update (Function.update s.queues k q) 0
      ((Function.update s.queues k q 0).pushBack slot) }

/-- Moving the first slot of a queue keeps `P`. -/
def KeptByMoves (P : Scheduler → Prop) : Prop :=
  ∀ s k slot q, k ≠ 0 → (s.queues k).toList = slot :: q.toList → q.lost = (s.queues k).lost →
    P s → P (s.moveToZero k q slot)

theorem taskAt_of_lt (h : slot < maxTasks) : s.taskAt slot = some (s.tasks slot) := if_pos h

theorem boostLevel_succ {n : Nat} {q : TaskQueue} (hpop : (s.queues k).popFront = some (slot, q))
    (hlt : slot < maxTasks) : boostLevel k (n + 1) s = boostLevel k n (s.moveToZero k q slot) := by
  rw [boostLevel, hpop]
  simp only [Option.bind_eq_bind, taskAt_of_lt hlt, Option.bind_some]
  cases ht : (s.setQueue k q).tasks slot with
  | none =>
    have ht' : s.tasks slot = none := ht
    dsimp only
    unfold moveToZero
    rw [ht', Option.map_none, ← ht', update_eq_self]
    rfl
  | some t =>
    have ht' : s.tasks slot = some t := ht
    unfold moveToZero
    rw [ht']
    rfl

theorem tasks_moveToZero (s : Scheduler) (k : Nat) (q : TaskQueue) (slot j : TaskId) :
    (s.moveToZero k q slot).tasks j =
      if j = slot then (s.tasks j).map Task.boosted else s.tasks j := by
  unfold moveToZero
  dsimp only
  rw [update_apply]
  split
  · next hj => rw [hj]
  · rfl

section MoveToZero

variable (s : Scheduler) (q : TaskQueue) (slot : TaskId)

theorem queues_moveToZero_source (hk : k ≠ 0) : (s.moveToZero k q slot).queues k = q := by
  show update (update s.queues k q) 0 _ k = q
  rw [update_of_ne hk, update_self]

theorem queues_moveToZero_zero (hk : k ≠ 0) :
    (s.moveToZero k q slot).queues 0 = (s.queues 0).pushBack slot := by
  unfold moveToZero
  dsimp only
  rw [update_self, update_of_ne hk.symm]

theorem queues_moveToZero_of_ne {j : Nat} (hj : j ≠ k) (hj0 : j ≠ 0) :
    (s.moveToZero k q slot).queues j = s.queues j := by
  show update (update s.queues k q) 0 _ j = s.queues j
  rw [update_of_ne hj0, update_of_ne hj]

end MoveToZero

/-- By induction on the queue: its first slot is moved, then the others are. -/
theorem boostLevel_drained (hP : KeptByMoves P) (hk : k ≠ 0) (ids : List TaskId) :
    ∀ s : Scheduler, P s → (s.queues k).toList = ids → (∀ slot ∈ ids, slot < maxTasks) →
      ∃ s', boostLevel k ids.length s = some s' ∧ P s' ∧ Drained [k] ids s s' := by
  induction ids with
  | nil =>
    intro s hs hq _
    refine ⟨s, rfl, hs, rfl, fun _ => rfl, ?_, fun _ _ _ => rfl, fun _ => ?_⟩
    · intro j hj
      rw [mem_singleton.mp hj]
      exact ⟨hq, rfl⟩
    · exact ⟨(append_nil _).symm, rfl⟩
  | cons slot ids ih =>
    intro s hs hq hids
    obtain ⟨q, hpop, hqids, hlost⟩ := TaskQueue.popFront_eq_some hq
    have hlt := hids slot mem_cons_self
    have hqk := queues_moveToZero_source s q slot hk
    obtain ⟨s', hrun, hs', hrest, htasks, hempty, hothers, hzero⟩ :=
      ih (s.moveToZero k q slot) (hP s k slot q hk (by rw [hq, hqids]) hlost hs)
        (by rw [hqk]; exact hqids) (fun j hj => hids j (mem_cons_of_mem slot hj))
    refine ⟨s', by rw [length_cons, boostLevel_succ hpop hlt, hrun], hs', hrest, ?_, ?_, ?_, ?_⟩
    · intro j
      rw [htasks j, tasks_moveToZero]
      simp only [mem_cons]
      by_cases hj : j = slot
      · rw [if_pos hj, if_pos (Or.inl hj), Option.map_map]
        split <;> rfl
      · simp only [hj, if_false, false_or]
    · intro j hj
      obtain ⟨hlist, hlost'⟩ := hempty j hj
      rw [mem_singleton.mp hj] at hlost' ⊢
      rw [mem_singleton.mp hj] at hlist
      exact ⟨hlist, hlost'.trans (by rw [hqk, hlost])⟩
    · intro j hj hj0
      rw [hothers j hj hj0]
      exact queues_moveToZero_of_ne s q slot (fun heq => hj (mem_singleton.mpr heq)) hj0
    · intro hfits
      rw [length_cons] at hfits
      have hroom : (s.queues 0).toList.length < maxTasks := by omega
      have hback : ((s.queues 0).pushBack slot).toList = (s.queues 0).toList ++ [slot] :=
        TaskQueue.toList_pushBack hroom
      rw [queues_moveToZero_zero s q slot hk, hback, TaskQueue.lost_pushBack hroom,
        append_assoc] at hzero
      refine hzero ?_
      rw [length_append, length_singleton]
      omega

theorem Drained.cons {levels : List Nat} {ids ids' : List TaskId} (h : Drained [k] ids s s')
    (h' : Drained levels ids' s' s'') (hk : k ∉ levels) (hk0 : k ≠ 0) (h0 : 0 ∉ levels) :
    Drained (k :: levels) (ids ++ ids') s s'' := by
  refine ⟨?_, ?_, ?_, ?_, ?_⟩
  · rw [h'.rest, h.rest]
  · intro slot
    rw [h'.tasks, h.tasks]
    simp only [mem_append]
    by_cases hslot : slot ∈ ids
    · rw [if_pos hslot, if_pos (Or.inl hslot), Option.map_map]
      split <;> rfl
    · simp only [hslot, if_false, false_or]
  · intro j hj
    rcases mem_cons.mp hj with rfl | hj
    · rw [h'.others j hk hk0]
      exact h.emptied j mem_cons_self
    · obtain ⟨hlist, hlost⟩ := h'.emptied j hj
      refine ⟨hlist, hlost.trans ?_⟩
      rw [h.others j ?_ ?_]
      · exact fun hmem => hk (mem_singleton.mp hmem ▸ hj)
      · exact fun hzero => h0 (hzero ▸ hj)
  · intro j hj hj0
    rw [mem_cons, not_or] at hj
    rw [h'.others j hj.2 hj0, h.others j (fun hmem => hj.1 (mem_singleton.mp hmem)) hj0]
  · intro hfits
    rw [length_append] at hfits
    obtain ⟨hlist, hlost⟩ := h.queue_zero (by omega)
    obtain ⟨hlist', hlost'⟩ := h'.queue_zero (by
      rw [hlist, length_append]
      omega)
    exact ⟨by rw [hlist', hlist, append_assoc], hlost'.trans hlost⟩

/-- The levels are drained one after the other, which leaves those still to come as they are. -/
theorem boostLevels_drained (hP : KeptByMoves P) (ks : List Nat) :
    ∀ s : Scheduler, P s → ks.Nodup → 0 ∉ ks →
      (∀ k ∈ ks, ∀ slot ∈ (s.queues k).toList, slot < maxTasks) →
      ∃ s', ks.foldlM (fun s level => boostLevel level (s.queues level).len s) s = some s' ∧
        P s' ∧ Drained ks (ks.flatMap fun k => (s.queues k).toList) s s' := by
  induction ks with
  | nil =>
    intro s hs _ _ _
    refine ⟨s, rfl, hs, rfl, fun _ => rfl, ?_, fun _ _ _ => rfl, fun _ => ?_⟩
    · rintro k ⟨⟩
    · exact ⟨(append_nil _).symm, rfl⟩
  | cons k ks ih =>
    intro s hs hnodup hzero hin
    obtain ⟨hk, hnodup⟩ := nodup_cons.mp hnodup
    rw [mem_cons, not_or] at hzero
    obtain ⟨s₁, hrun₁, hs₁, hdrained₁⟩ :=
      boostLevel_drained hP (Ne.symm hzero.1) (s.queues k).toList s hs rfl (hin k mem_cons_self)
    have hsame : ∀ j ∈ ks, s₁.queues j = s.queues j := fun j hj => hdrained₁.others j
      (fun hmem => hk (mem_singleton.mp hmem ▸ hj)) (fun heq => hzero.2 (heq ▸ hj))
    have hids : (ks.flatMap fun k => (s₁.queues k).toList) =
        ks.flatMap fun k => (s.queues k).toList :=
      flatMap_congr fun j hj => by rw [hsame j hj]
    obtain ⟨s', hrun, hs', hdrained⟩ := ih s₁ hs₁ hnodup hzero.2 (fun j hj => by
      rw [hsame j hj]
      exact hin j (mem_cons_of_mem k hj))
    rw [TaskQueue.length_toList] at hrun₁
    rw [hids] at hdrained
    refine ⟨s', ?_, hs', hdrained₁.cons hdrained hk (Ne.symm hzero.1) hzero.2⟩
    rw [foldlM_cons, hrun₁]
    exact hrun

/-- The slots `boost_all` moves, in the order in which it does. -/
def drainable (s : Scheduler) : List TaskId :=
  (List.range' 1 (priorityLevels - 1)).flatMap fun k => (s.queues k).toList

theorem boostAll_drained (hP : KeptByMoves P) (hs : P s)
    (hin : ∀ k, ∀ slot ∈ (s.queues k).toList, slot < maxTasks) :
    ∃ s', s.boostAll = some s' ∧ P s' ∧
      Drained (List.range' 1 (priorityLevels - 1)) s.drainable s s' :=
  boostLevels_drained hP _ s hs (by decide) (by decide) fun k _ => hin k

end BeastOs.Scheduler
