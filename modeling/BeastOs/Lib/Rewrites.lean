import Mathlib.Logic.Function.Basic
import Mathlib.Logic.Relation

/-!
# Tables that are rewritten entry by entry

A table is a partial function. `Rewrites W f g` says that `g` has entries where `f` has, and that
each comes from the old one by steps `W`, as many as there were and in whatever order the entries
were rewritten. What every step keeps is kept (`Rewrites.map_eq`), and what one step can do to an
entry is all one has to know about it.
-/

namespace BeastOs.Lib

open Function Relation

variable {ι α β : Type} {W : α → α → Prop} {f g h : ι → Option α} {i : ι} {a b : α}

def Rewrites (W : α → α → Prop) (f g : ι → Option α) : Prop :=
  ∀ i, Option.Rel (ReflTransGen W) (f i) (g i)

namespace Rewrites

theorem refl (f : ι → Option α) : Rewrites W f f := by
  intro i
  cases f i with
  | none => exact .none
  | some a => exact .some .refl

theorem exists_new (hfg : Rewrites W f g) (ha : f i = some a) :
    ∃ b, g i = some b ∧ ReflTransGen W a b := by
  have hi := hfg i
  rw [ha] at hi
  generalize g i = o at hi
  cases hi with
  | some hab => exact ⟨_, rfl, hab⟩

theorem exists_old (hfg : Rewrites W f g) (hb : g i = some b) :
    ∃ a, f i = some a ∧ ReflTransGen W a b := by
  have hi := hfg i
  rw [hb] at hi
  generalize f i = o at hi
  cases hi with
  | some hab => exact ⟨_, rfl, hab⟩

theorem trans (hfg : Rewrites W f g) (hgh : Rewrites W g h) : Rewrites W f h := by
  intro i
  cases hf : f i with
  | none =>
    have hg := hfg i
    rw [hf] at hg
    have hh := hgh i
    generalize g i = o at hg hh
    cases hg
    exact hh
  | some a =>
    obtain ⟨b, hb, hab⟩ := hfg.exists_new hf
    obtain ⟨c, hc, hbc⟩ := hgh.exists_new hb
    rw [hc]
    exact .some (hab.trans hbc)

/-- One entry is rewritten. -/
theorem update [DecidableEq ι] (ha : f i = some a) (hab : W a b) :
    Rewrites W f (update f i (some b)) := by
  intro j
  by_cases hj : j = i
  · rw [hj, ha, update_self]
    exact .some (.single hab)
  · rw [update_of_ne hj]
    exact refl f j

/-- What no step changes of an entry is the same in both tables. -/
theorem map_eq {φ : α → β} (hφ : ∀ a b, W a b → φ b = φ a) (hfg : Rewrites W f g) (i : ι) :
    (g i).map φ = (f i).map φ := by
  have hi := hfg i
  generalize f i = o at hi
  generalize g i = o' at hi
  cases hi with
  | none => rfl
  | some hab =>
    simp only [Option.map_some]
    congr 1
    induction hab with
    | refl => rfl
    | tail _ hbc ih => exact (hφ _ _ hbc).trans ih

end Rewrites

end BeastOs.Lib
