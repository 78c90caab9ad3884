import Mathlib.Data.List.Basic

/-!
# Runs of a labelled transition relation

A system is a relation `R s l s'`: in state `s` the event `l` can lead to `s'`. A **run** is a
finite sequence of such transitions, and its **trace** lists them in order. Two ways of reasoning
about all runs at once are packaged here:

* `Run.invariant` — a property of states that every (admissible) transition preserves holds at the
  end of every run, hence, since a prefix of a run is a run, in every state a run passes through.
* `Run.forall_iff` — two properties of transitions that agree as long as an invariant holds, where
  either keeps the invariant going, agree on whole runs.
-/

namespace BeastOs.Lib

open List

variable {σ ℓ : Type} {R : σ → ℓ → σ → Prop} {s s' : σ} {Inv : σ → Prop}

/-- One transition of a run: where it started, the event, where it led. -/
structure Transition (σ ℓ : Type) where
  src : σ
  label : ℓ
  dst : σ

/-- `Run R s τ s'`: the transitions `τ`, taken in order, lead from `s` to `s'`. -/
inductive Run (R : σ → ℓ → σ → Prop) (s : σ) : List (Transition σ ℓ) → σ → Prop
  | nil : Run R s [] s
  | snoc {τ m l s'} : Run R s τ m → R m l s' → Run R s (τ ++ [⟨m, l, s'⟩]) s'

variable {τ : List (Transition σ ℓ)}

/-- A run of one transition. -/
theorem Run.single {l : ℓ} (h : R s l s') : Run R s [⟨s, l, s'⟩] s' :=
  Run.snoc Run.nil h

/-- Runs compose. -/
theorem Run.append {s₁ s₂ : σ} {τ₂ : List (Transition σ ℓ)}
    (h₁ : Run R s τ s₁) (h₂ : Run R s₁ τ₂ s₂) : Run R s (τ ++ τ₂) s₂ := by
  induction h₂ with
  | nil => simpa using h₁
  | snoc _ hr ih =>
    rw [← append_assoc]
    exact Run.snoc ih hr

/-- A run of one relation is a run of another that allows its transitions. -/
theorem Run.imp {R' : σ → ℓ → σ → Prop} (hrun : Run R s τ s')
    (himp : ∀ t ∈ τ, R t.src t.label t.dst → R' t.src t.label t.dst) : Run R' s τ s' := by
  induction hrun with
  | nil => exact Run.nil
  | snoc _ hr ih =>
    refine Run.snoc (ih fun t ht => himp t (mem_append_left _ ht)) ?_
    exact himp ⟨_, _, _⟩ (by simp) hr

/-- **The invariant rule.** What holds at the start and is preserved by every transition that meets
the side condition `C` holds at the end of every run whose transitions all meet `C`. -/
theorem Run.invariant {C : Transition σ ℓ → Prop} (hinit : Inv s)
    (hstep : ∀ m l m', Inv m → R m l m' → C ⟨m, l, m'⟩ → Inv m') (hrun : Run R s τ s')
    (hC : ∀ t ∈ τ, C t) : Inv s' := by
  induction hrun with
  | nil => exact hinit
  | snoc _ hr ih =>
    have hm := ih (fun t ht => hC t (mem_append_left _ ht))
    exact hstep _ _ _ hm hr (hC _ (by simp))

/-- The invariant rule without a side condition. -/
theorem Run.invariant' (hinit : Inv s) (hstep : ∀ m l m', Inv m → R m l m' → Inv m')
    (hrun : Run R s τ s') : Inv s' :=
  hrun.invariant (C := fun _ => True) hinit (fun m l m' hm hr _ => hstep m l m' hm hr)
    (fun _ _ => trivial)

/-- The invariant rule for a property of the transitions. -/
theorem Run.forall_of_invariant {C P : Transition σ ℓ → Prop} (hinit : Inv s)
    (hstep : ∀ m l m', Inv m → R m l m' → C ⟨m, l, m'⟩ → Inv m' ∧ P ⟨m, l, m'⟩)
    (hrun : Run R s τ s') (hC : ∀ t ∈ τ, C t) : ∀ t ∈ τ, P t := by
  induction hrun with
  | nil => simp
  | @snoc τ m l s' hτ hr ih =>
    rw [forall_mem_append, forall_mem_singleton] at hC ⊢
    have hm : Inv m := hτ.invariant hinit (fun m l m' hm hr hC => (hstep m l m' hm hr hC).1) hC.1
    exact ⟨ih hC.1, (hstep m l s' hm hr hC.2).2⟩

/-- Every transition of a run starts in a state with the invariant. -/
theorem Run.forall_mem (hinit : Inv s) (hstep : ∀ m l m', Inv m → R m l m' → Inv m')
    (hrun : Run R s τ s') : ∀ t ∈ τ, Inv t.src ∧ R t.src t.label t.dst := by
  induction hrun with
  | nil => simp
  | @snoc τ m l s' hτ hr ih =>
    intro t ht
    rcases mem_append.mp ht with h | h
    · exact ih t h
    · rw [mem_singleton.mp h]
      exact ⟨hτ.invariant' hinit hstep, hr⟩

/-- **Two properties of transitions that agree under an invariant agree on runs.** The invariant
need only be kept by the transitions that have the property. -/
theorem Run.forall_iff {P Q : Transition σ ℓ → Prop} (hinit : Inv s)
    (hiff : ∀ m l m', Inv m → R m l m' → (P ⟨m, l, m'⟩ ↔ Q ⟨m, l, m'⟩))
    (hstep : ∀ m l m', Inv m → R m l m' → Q ⟨m, l, m'⟩ → Inv m') (hrun : Run R s τ s') :
    (∀ t ∈ τ, P t) ↔ (∀ t ∈ τ, Q t) := by
  -- the invariant at the end of the run is what lets the next transition be compared
  have key : ((∀ t ∈ τ, P t) ↔ ∀ t ∈ τ, Q t) ∧ ((∀ t ∈ τ, Q t) → Inv s') := by
    induction hrun with
    | nil => exact ⟨by simp, fun _ => hinit⟩
    | @snoc τ m l s' _ hr ih =>
      obtain ⟨ih₁, ih₂⟩ := ih
      refine ⟨?_, ?_⟩
      · constructor
        · intro hP t ht
          have hQτ := ih₁.mp (fun u hu => hP u (mem_append_left _ hu))
          rcases mem_append.mp ht with h | h
          · exact hQτ t h
          · rw [mem_singleton.mp h]
            exact (hiff m l s' (ih₂ hQτ) hr).mp (hP _ (by simp))
        · intro hQ t ht
          have hQτ : ∀ u ∈ τ, Q u := fun u hu => hQ u (mem_append_left _ hu)
          rcases mem_append.mp ht with h | h
          · exact ih₁.mpr hQτ t h
          · rw [mem_singleton.mp h]
            exact (hiff m l s' (ih₂ hQτ) hr).mpr (hQ _ (by simp))
      · intro hQ
        have hm := ih₂ (fun u hu => hQ u (mem_append_left _ hu))
        exact hstep m l s' hm hr (hQ _ (by simp))
  exact key.1

/-! ## Runs of a step function -/

/-- Perform the events `ls` in order; `none` when one of them is not possible. -/
def perform (step : σ → ℓ → Option σ) (s : σ) : List ℓ → Option σ
  | [] => some s
  | l :: ls => (step s l).bind fun m => perform step m ls

/-- The transition relation of a step function. -/
def Steps (step : σ → ℓ → Option σ) (s : σ) (l : ℓ) (s' : σ) : Prop := step s l = some s'

theorem Run.cons {l : ℓ} {m : σ} (h : R s l m) (hrun : Run R m τ s') :
    Run R s (⟨s, l, m⟩ :: τ) s' :=
  (Run.single h).append hrun

/-- What can be performed is a run. -/
theorem exists_run_of_perform {step : σ → ℓ → Option σ} {ls : List ℓ}
    (h : perform step s ls = some s') : ∃ τ, Run (Steps step) s τ s' ∧ τ.map (·.label) = ls := by
  induction ls generalizing s with
  | nil =>
    cases h
    exact ⟨[], Run.nil, rfl⟩
  | cons l ls ih =>
    obtain ⟨m, hm, hrest⟩ := Option.bind_eq_some_iff.mp h
    obtain ⟨τ, hrun, hlabels⟩ := ih hrest
    exact ⟨⟨s, l, m⟩ :: τ, Run.cons hm hrun, congrArg (l :: ·) hlabels⟩

/-- What holds of the events of a run holds of its transitions' labels. -/
theorem forall_label {ls : List ℓ} {P : ℓ → Prop} (hlabels : τ.map (·.label) = ls)
    (h : ∀ l ∈ ls, P l) : ∀ t ∈ τ, P t.label := by
  intro t ht
  apply h
  rw [← hlabels]
  exact mem_map_of_mem ht

end BeastOs.Lib
