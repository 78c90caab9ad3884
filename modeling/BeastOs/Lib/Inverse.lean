import Mathlib.Logic.Function.Basic

/-!
# Partial functions that invert each other

`f` and `g` are inverse if `g v = some k` says the same as `f k = some v`. An entry can be dropped
from both sides at once. An entry put on both sides keeps them inverse exactly if it displaces no
other entry on either side.

Main results: `Inverse.put_iff` and `Inverse.rekey_iff`.
-/

namespace BeastOs.Lib

open Function

variable {κ ν : Type} {f : κ → Option ν} {g : ν → Option κ} {k : κ} {v : ν}

def Inverse (f : κ → Option ν) (g : ν → Option κ) : Prop := ∀ k v, g v = some k ↔ f k = some v

theorem inverse_none : Inverse (fun _ : κ => (none : Option ν)) (fun _ => none) := by
  intro k v
  simp

variable [DecidableEq κ] [DecidableEq ν]

/-- Dropping an entry. -/
theorem Inverse.drop (h : Inverse f g) (hk : f k = some v) :
    Inverse (update f k none) (update g v none) := by
  intro k' v'
  have hg : g v = some k := (h k v).mpr hk
  have hkv := h k' v'
  by_cases hk' : k' = k <;> by_cases hv' : v' = v
  · simp [hk', hv']
  · subst hk'
    simp [hv', hkv, hk, Ne.symm hv']
  · subst hv'
    simp [hk', ← hkv, hg, Ne.symm hk']
  · simp [hk', hv', hkv]

/-- **Putting an entry** on both sides: neither side may have another entry for it. -/
theorem Inverse.put_iff (h : Inverse f g) : Inverse (update f k (some v)) (update g v (some k)) ↔
      (∀ v', f k = some v' → v' = v) ∧ ∀ k', g v = some k' → k' = k := by
  constructor
  · intro hput
    constructor
    · -- an old value of `k` would still point back to `k`
      intro v' hv'
      by_contra hne
      have hback := (hput k v').mp (by simp [hne, (h k v').mpr hv'])
      simp [Ne.symm hne] at hback
    · intro k' hk'
      by_contra hne
      have hforth := (hput k' v).mpr (by simp [hne, (h k' v).mp hk'])
      simp [Ne.symm hne] at hforth
  · rintro ⟨hvalue, hkey⟩ k' v'
    have hkv := h k' v'
    by_cases hk' : k' = k <;> by_cases hv' : v' = v
    · simp [hk', hv']
    · subst hk'
      have hno : f k' ≠ some v' := fun heq => hv' (hvalue v' heq)
      simp [hv', hkv, hno, Ne.symm hv']
    · subst hv'
      have hno : g v' ≠ some k' := fun heq => hk' (hkey k' heq)
      simp [hk', ← hkv, hno, Ne.symm hk']
    · simp [hk', hv', hkv]

/-- **Giving a value another key**: the key must not have another value. -/
theorem Inverse.rekey_iff (h : Inverse f g) (hk : f k = some v) (k' : κ) :
    Inverse (update (update f k none) k' (some v))
        (update g v (some k')) ↔ ∀ v', f k' = some v' → v' = v := by
  have hput := (h.drop hk).put_iff (k := k') (v := v)
  rw [update_idem] at hput
  rw [hput]
  by_cases hkk : k' = k
  · subst hkk
    simp [hk]
  · simp [hkk]

end BeastOs.Lib
