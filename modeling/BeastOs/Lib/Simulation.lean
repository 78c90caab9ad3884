import Mathlib.Data.List.Basic
import Mathlib.Order.Basic

/-!
# Computations with state and errors

What `x >>= f` comes to in `EStateM` (`bind_eq_ok`), what a computation does not change (`Keeps`)
and what it does not let grow (`Descends`).
-/

namespace BeastOs.Lib

variable {ε σ α β : Type} {x : EStateM ε σ α} {f : α → EStateM ε σ β} {s s' : σ}

theorem toOption_eq_some {e : Except ε α} {a : α} : e.toOption = some a ↔ e = .ok a := by
  cases e <;> simp [Except.toOption]

theorem bind_of_ok {a : α} (h : x s = .ok a s') : (x >>= f) s = f a s' := by
  show EStateM.bind x f s = f a s'
  unfold EStateM.bind
  rw [h]

theorem bind_of_error {e : ε} (h : x s = .error e s') : (x >>= f) s = .error e s' := by
  show EStateM.bind x f s = .error e s'
  unfold EStateM.bind
  rw [h]

/-- A computation that returns has parts that return. -/
theorem bind_eq_ok {b : β} :
    (x >>= f) s = .ok b s' ↔ ∃ a s₁, x s = .ok a s₁ ∧ f a s₁ = .ok b s' := by
  constructor
  · intro h
    cases hx : x s with
    | ok a s₁ => exact ⟨a, s₁, rfl, (bind_of_ok hx).symm.trans h⟩
    | error e s₁ =>
      rw [bind_of_error hx] at h
      cases h
  · rintro ⟨a, s₁, hx, hf⟩
    rw [bind_of_ok hx, hf]

/-- Something of the state. -/
def gets (f : σ → α) : EStateM ε σ α := fun s => .ok (f s) s

theorem gets_bind (f : σ → α) (g : α → EStateM ε σ β) (s : σ) : (gets f >>= g) s = g (f s) s :=
  rfl

/-! ## Frames -/

/-- A computation that returns leaves `f` of the state as it was. -/
def Keeps {γ : Type} (f : σ → γ) (x : EStateM ε σ α) : Prop :=
  ∀ ⦃s a s'⦄, x s = .ok a s' → f s' = f s

namespace Keeps

variable {γ : Type} {f : σ → γ} {x : EStateM ε σ α}

theorem pure (a : α) : Keeps f (pure a : EStateM ε σ α) := by
  intro s b s' h
  cases h
  rfl

/-- A computation that leaves the state as it was. -/
theorem of_id (h : Keeps id x) : Keeps f x := fun _ _ _ hok => congrArg f (h hok)

theorem throw (e : ε) : Keeps f (throw e : EStateM ε σ α) := nofun

theorem gets (g : σ → α) : Keeps f (gets g : EStateM ε σ α) := by
  intro s b s' h
  cases h
  rfl

theorem modify {g : σ → σ} (h : ∀ s, f (g s) = f s) : Keeps f (modify g : EStateM ε σ PUnit) := by
  intro s b s' hok
  cases hok
  exact h s

theorem bind {g : α → EStateM ε σ β} (hx : Keeps f x) (hg : ∀ a, Keeps f (g a)) :
    Keeps f (x >>= g) := by
  intro s b s' h
  obtain ⟨a, s₁, hok, hok'⟩ := bind_eq_ok.mp h
  exact (hg a hok').trans (hx hok)

end Keeps

/-! ## Quantities that do not grow -/

/-- Whether a computation returns or fails, `f` of the state has not grown. -/
structure Descends {γ : Type} [Preorder γ] (f : σ → γ) (x : EStateM ε σ α) : Prop where
  ok : ∀ ⦃s a s'⦄, x s = .ok a s' → f s' ≤ f s
  error : ∀ ⦃s e s'⦄, x s = .error e s' → f s' ≤ f s

namespace Descends

variable {γ : Type} [Preorder γ] {f : σ → γ} {x y : EStateM ε σ α}

theorem gets (g : σ → α) : Descends f (gets g : EStateM ε σ α) where
  ok := by
    intro s a s' h
    cases h
    exact le_rfl
  error := nofun

theorem pure (a : α) : Descends f (pure a : EStateM ε σ α) := .gets fun _ => a

theorem throw (e : ε) : Descends f (throw e : EStateM ε σ α) where
  ok := nofun
  error := by
    intro s e' s' h
    cases h
    exact le_rfl

theorem modify {g : σ → σ} (h : ∀ s, f (g s) ≤ f s) :
    Descends f (modify g : EStateM ε σ PUnit) where
  ok := by
    intro s a s' hok
    cases hok
    exact h s
  error := nofun

theorem bind {g : α → EStateM ε σ β} (hx : Descends f x) (hg : ∀ a, Descends f (g a)) :
    Descends f (x >>= g) where
  ok := by
    intro s b s' h
    obtain ⟨a, s₁, hok, hok'⟩ := bind_eq_ok.mp h
    exact ((hg a).ok hok').trans (hx.ok hok)
  error := by
    intro s e s' h
    cases hs : x s with
    | ok a s₁ =>
      rw [bind_of_ok hs] at h
      exact ((hg a).error h).trans (hx.ok hs)
    | error e₁ s₁ =>
      rw [bind_of_error hs] at h
      cases h
      exact hx.error hs

theorem ite {c : Prop} [Decidable c] (hx : Descends f x) (hy : Descends f y) :
    Descends f (if c then x else y) := by
  split
  · exact hx
  · exact hy

theorem forM {l : List β} {g : β → EStateM ε σ PUnit} (h : ∀ b ∈ l, Descends f (g b)) :
    Descends f (l.forM g) := by
  induction l with
  | nil => exact .pure PUnit.unit
  | cons b l ih =>
    refine .bind (h b (List.mem_cons_self ..)) fun _ => ih fun c hc => ?_
    exact h c (List.mem_cons_of_mem b hc)

end Descends

end BeastOs.Lib
