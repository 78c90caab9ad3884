import Mathlib.Data.BitVec
import Mathlib.Logic.Function.Basic

/-!
# Words on a stack

A stack of eight-byte words that grows towards lower addresses, in a memory that is addressed by
words. `Holds mem sp vs` says that the words `vs` lie from `sp` upwards, top of the stack first. A
push below `sp` adds a word and disturbs none, as long as the stack is shorter than the memory.
-/

namespace BeastOs.Lib.Stack

open Function

variable {α : Type} {mem : BitVec 64 → α} {sp a : BitVec 64} {vs : List α}

def Holds (mem : BitVec 64 → α) (sp : BitVec 64) : List α → Prop
  | [] => True
  | v :: vs => mem sp = v ∧ Holds mem (sp + 8) vs

/-- A write elsewhere leaves the words on the stack. -/
theorem Holds.update (h : Holds mem sp vs) (x : α)
    (hne : ∀ i < vs.length, sp + BitVec.ofNat 64 (8 * i) ≠ a) :
    Holds (Function.update mem a x) sp vs := by
  induction vs generalizing sp with
  | nil => trivial
  | cons v vs ih =>
    obtain ⟨hv, hvs⟩ := h
    have hsp : sp ≠ a := by simpa using hne 0 (Nat.zero_lt_succ _)
    refine ⟨by rw [Function.update_of_ne hsp, hv], ih hvs ?_⟩
    intro i hi
    have hnext := hne (i + 1) (Nat.succ_lt_succ hi)
    have heq : sp + BitVec.ofNat 64 (8 * (i + 1)) = sp + 8 + BitVec.ofNat 64 (8 * i) := by
      rw [Nat.mul_succ, Nat.add_comm, BitVec.ofNat_add, BitVec.add_assoc]
      rfl
    rwa [heq] at hnext

theorem Holds.push (h : Holds mem sp vs) (x : α) (hlen : vs.length < 2 ^ 61) :
    Holds (Function.update mem (sp - 8) x) (sp - 8) (x :: vs) := by
  refine ⟨Function.update_self _ _ _, ?_⟩
  rw [BitVec.sub_add_cancel]
  refine h.update x ?_
  intro i hi
  have hlt : i < 2 ^ 61 - 1 := by omega
  bv_omega

/-- The memory and the stack pointer after the words have been pushed, the first one first. -/
def pushAll (mem : BitVec 64 → α) (sp : BitVec 64) : List α → (BitVec 64 → α) × BitVec 64
  | [] => (mem, sp)
  | v :: vs => pushAll (Function.update mem (sp - 8) v) (sp - 8) vs

theorem Holds.pushAll {ws : List α} (h : Holds mem sp ws) (hlen : vs.length + ws.length < 2 ^ 61) :
    Holds (pushAll mem sp vs).1 (pushAll mem sp vs).2 (vs.reverse ++ ws) := by
  induction vs generalizing mem sp ws with
  | nil => exact h
  | cons v vs ih =>
    rw [List.length_cons] at hlen
    rw [List.reverse_cons, List.append_assoc]
    exact ih (h.push v (by omega)) (by rw [List.length_append, List.length_singleton]; omega)

end BeastOs.Lib.Stack
