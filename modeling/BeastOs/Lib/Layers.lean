import Mathlib.Logic.Basic

/-!
# Layers

Partial functions can be put on top of each other. Where several of them have a value, the one on
top counts, which is the last.

`stack_eq_iff` says when a layer can be seen at a point although others are on top of it.
-/

namespace BeastOs.Lib

variable {α β : Type} {layers : Nat → α → Option β} {n i : Nat} {x : α} {b d : β}

/-- The first `n` layers, each on top of those before it. -/
def stack (layers : Nat → α → Option β) : Nat → α → Option β
  | 0, _ => none
  | n + 1, x => (layers n x).or (stack layers n x)

theorem stack_succ (layers : Nat → α → Option β) (n : Nat) :
    stack layers (n + 1) = fun x => (layers n x).or (stack layers n x) := rfl

/-- Something is seen where some layer has a value. -/
theorem exists_stack_eq (hi : i < n) (hb : layers i x = some b) :
    ∃ c, stack layers n x = some c := by
  induction n with
  | zero => exact absurd hi (Nat.not_lt_zero i)
  | succ n ih =>
    rw [stack_succ]
    dsimp only
    cases hn : layers n x with
    | some c => exact ⟨c, rfl⟩
    | none =>
      have hne : i ≠ n := by
        rintro rfl
        rw [hb] at hn
        cases hn
      exact ih (Nat.lt_of_le_of_ne (Nat.lt_succ_iff.mp hi) hne)

/-- Where all layers on top of it are blank, a layer is seen if it is blank itself, or there are
none. -/
theorem stack_eq_iff (hi : i < n) (hb : layers i x = some b)
    (hblank : ∀ j, i < j → j < n → layers j x = none ∨ layers j x = some d) :
    stack layers n x = some b ↔ (b ≠ d → ∀ j, i < j → j < n → layers j x = none) := by
  induction n with
  | zero => exact absurd hi (Nat.not_lt_zero i)
  | succ n ih =>
    rw [stack_succ]
    dsimp only
    rcases Nat.lt_succ_iff_lt_or_eq.mp hi with hlt | rfl
    · have hbefore := ih hlt fun j hij hj => hblank j hij (Nat.lt_succ_of_lt hj)
      rcases hblank n hlt (Nat.lt_succ_self n) with hnone | hsome
      · rw [hnone, Option.none_or, hbefore]
        refine imp_congr_right fun _ => ⟨fun h j hij hj => ?_, fun h j hij hj => ?_⟩
        · rcases Nat.lt_succ_iff_lt_or_eq.mp hj with hj | rfl
          · exact h j hij hj
          · exact hnone
        · exact h j hij (Nat.lt_succ_of_lt hj)
      · rw [hsome, Option.some_or, Option.some_inj]
        refine ⟨fun heq hne => absurd heq.symm hne, fun h => not_not.mp fun hne => ?_⟩
        have hnone := h (fun heq => hne heq.symm) n hlt (Nat.lt_succ_self n)
        rw [hsome] at hnone
        cases hnone
    · rw [hb, Option.some_or]
      refine iff_of_true rfl fun _ j hij hj => ?_
      exact absurd (Nat.lt_succ_iff.mp hj) (Nat.not_le.mpr hij)

end BeastOs.Lib
