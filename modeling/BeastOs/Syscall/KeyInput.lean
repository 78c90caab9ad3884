import BeastOs.Syscall.Keyboard

/-!
# What is typed is read

The bytes that `sys_read` on descriptor 0 and `pop_keyboard_char` hand out, over the interleavings
of `Keyboard`. Every step hands out a front part of the pending bytes and appends what is typed at
the end (`delivered_append`), so over a run nothing is lost, doubled or reordered, except that a
byte that is typed while 256 are pending is dropped.

Main result: `delivered_eq_typed`.
-/

namespace BeastOs.Syscall

open List Lib Scheduler

namespace KeyboardBuffer

theorem toList_push (b : KeyboardBuffer) (ch : U8) :
    (b.push ch).toList = b.toList ++ if b.len < 256 then [ch] else [] := by
  unfold push
  split
  next hroom => exact CircularBuffer.toList_pushBack ch hroom
  next hfull => rw [CircularBuffer.pushBack_full ch hfull, append_nil]

/-- The copying loop takes the first bytes off. -/
theorem popMany_spec (n : Nat) (b : KeyboardBuffer) :
    (b.popMany n).1 = b.toList.take n ∧ (b.popMany n).2.toList = b.toList.drop n := by
  induction n generalizing b with
  | zero => simp [popMany]
  | succ n ih =>
    rw [popMany, pop]
    cases hb : b.toList with
    | nil => simp [CircularBuffer.popFront_eq_none hb, hb]
    | cons ch chs =>
      obtain ⟨b', hpop, rfl⟩ := CircularBuffer.popFront_eq_some hb
      simp [hpop, ih b']

end KeyboardBuffer

namespace Console

variable {c c' : Console} {e : Event} {count : U64}

/-- What a round of the loop of `sys_read` copies out and returns; `none` when it blocks. -/
def lookResult (c : Console) (count : U64) : Option (List U8 × Int) :=
  if c.buffer.isEmpty then none
  else
    let toCopy := min count.toNat c.buffer.len
    some ((c.buffer.popMany toCopy).1, toCopy)

/-- The same for `sys_read(0, buf, count)` up to its first block. -/
def sysReadResult (c : Console) (pageTable buf count : U64) : Option (List U8 × Int) :=
  if buf = 0 ∨ count = 0 then some ([], -22)
  else if pageTable = 0 then some ([], -1)
  else c.lookResult count

/-- What the current task's call copies out and returns in this step. -/
def readResult (c : Console) : Event → Option (List U8 × Int)
  | .read buf count => (c.sched.tasks c.sched.current).bind fun t =>
      c.sysReadResult t.pageTable buf count
  | .again =>
    match c.phase c.sched.current with
    | .switched count => c.lookResult count
    | _ => none
  | _ => none

/-- The bytes a step hands out. -/
def delivered (t : Transition Console Event) : List U8 :=
  match t.label with
  | .pop => (t.src.buffer.pop.map Prod.fst).toList
  | e => ((t.src.readResult e).map Prod.fst).getD []

/-- The byte a step types, if it finds room. -/
def typed (t : Transition Console Event) : List U8 :=
  match t.label with
  | .push ch => if t.src.buffer.len < 256 then [ch] else []
  | _ => []

/-- The step looks at the buffer for a reader of `count` bytes. -/
def LooksFor (c : Console) (count : U64) : Event → Prop
  | .read buf n => n = count ∧ buf ≠ 0 ∧ count ≠ 0 ∧
      ∃ t, c.sched.tasks c.sched.current = some t ∧ t.pageTable ≠ 0
  | .again => c.phase c.sched.current = .switched count
  | _ => False

theorem look_append (c : Console) (count : U64) :
    ((c.lookResult count).map Prod.fst).getD [] ++ (c.look count).buffer.toList =
      c.buffer.toList := by
  unfold lookResult look
  split
  · rfl
  · obtain ⟨htake, hdrop⟩ := KeyboardBuffer.popMany_spec (min count.toNat c.buffer.len) c.buffer
    simp [goTo, htake, hdrop]

/-- **One step.** It hands out the oldest bytes and appends what is typed. -/
theorem delivered_append (hstep : c.step e c') :
    delivered ⟨c, e, c'⟩ ++ c'.buffer.toList = c.buffer.toList ++ typed ⟨c, e, c'⟩ := by
  cases e with
  | read buf count =>
    obtain ⟨-, t, ht, rfl⟩ := hstep
    simp only [delivered, typed, readResult, ht, Option.bind_some, sysReadResult, sysRead,
      append_nil]
    split_ifs
    · rfl
    · rfl
    · exact look_append c count
  | again =>
    obtain ⟨count, hphase, rfl⟩ := hstep
    simp only [delivered, typed, readResult, hphase, append_nil]
    exact look_append c count
  | block =>
    obtain ⟨count, -, s, -, rfl⟩ := hstep
    exact (append_nil _).symm
  | switch =>
    obtain ⟨count, -, s, d, -, rfl⟩ := hstep
    exact (append_nil _).symm
  | push ch =>
    have hbuffer : c'.buffer = c.buffer.push ch := by
      change c.pushKeyboardChar ch = some c' at hstep
      unfold pushKeyboardChar at hstep
      split_ifs at hstep
      · obtain ⟨s, -, rfl⟩ := Option.map_eq_some_iff.mp hstep
        rfl
      · cases hstep
        rfl
    rw [hbuffer, KeyboardBuffer.toList_push]
    rfl
  | pop =>
    cases hstep
    simp only [delivered, typed, popKeyboardChar, KeyboardBuffer.pop, append_nil]
    cases hb : c.buffer.toList with
    | nil => simp [CircularBuffer.popFront_eq_none hb, hb]
    | cons ch chs =>
      obtain ⟨b', hpop, rfl⟩ := CircularBuffer.popFront_eq_some hb
      simp [hpop]
  | kernel l =>
    obtain ⟨-, s, -, rfl⟩ := hstep
    exact (append_nil _).symm

theorem lookResult_of_ne (count : U64) (hsome : c.buffer.len ≠ 0) :
    ∃ bytes, c.lookResult count = some (bytes, bytes.length) ∧
      bytes.length = min count.toNat c.buffer.len := by
  refine ⟨c.buffer.toList.take (min count.toNat c.buffer.len), ?_, by simp⟩
  simp [lookResult, KeyboardBuffer.isEmpty, hsome, KeyboardBuffer.popMany_spec]

/-- A reader that finds bytes gets as many as it asks for and there are. -/
theorem readResult_of_looksFor (hlooks : c.LooksFor count e) (hsome : c.buffer.len ≠ 0) :
    c.readResult e = some (delivered ⟨c, e, c'⟩, ((delivered ⟨c, e, c'⟩).length : Int)) ∧
      (delivered ⟨c, e, c'⟩).length = min count.toNat c.buffer.len := by
  obtain ⟨bytes, hlook, hlength⟩ := lookResult_of_ne count hsome
  cases e with
  | read buf n =>
    obtain ⟨rfl, hbuf, hcount, t, ht, htable⟩ := hlooks
    have hresult : c.readResult (.read buf n) = c.lookResult n := by
      rw [readResult, ht, Option.bind_some, sysReadResult, if_neg (not_or.mpr ⟨hbuf, hcount⟩),
        if_neg htable]
    simp [delivered, hresult, hlook, hlength]
  | again =>
    have hphase : c.phase c.sched.current = .switched count := hlooks
    have hresult : c.readResult .again = c.lookResult count := by simp [readResult, hphase]
    simp [delivered, hresult, hlook, hlength]
  | _ => cases hlooks

/-- **Keyboard input is delivered in order.** At the end of every run the bytes handed out so far,
followed by those that are pending, are the bytes typed while there was room. And a reader that
finds bytes returns with as many as it asks for and there are. -/
theorem delivered_eq_typed {τ : List (Transition Console Event)} (hrun : Run step new τ c) :
    τ.flatMap delivered ++ c.buffer.toList = τ.flatMap typed ∧
      ∀ t ∈ τ, ∀ count, t.src.LooksFor count t.label → t.src.buffer.len ≠ 0 →
        t.src.readResult t.label = some (delivered t, ((delivered t).length : Int)) ∧
        (delivered t).length = min count.toNat t.src.buffer.len := by
  refine ⟨?_, fun t _ count hlooks hsome => readResult_of_looksFor hlooks hsome⟩
  induction hrun with
  | nil => rfl
  | snoc _ hstep ih =>
    rw [flatMap_append, flatMap_append, flatMap_singleton, flatMap_singleton,
      append_assoc, delivered_append hstep, ← append_assoc, ih]

/-- Two keys are pressed, and a task that asks for eight bytes gets both. -/
theorem delivered_twoKeys : ∃ c₁ c₂ c₃ c₄ c₅, step new (spawnReader "shell") c₁ ∧
    step c₁ (.kernel .run) c₂ ∧ step c₂ (.push 104) c₃ ∧ step c₃ (.push 105) c₄ ∧
    step c₄ (.read 0x5000 8) c₅ ∧ delivered ⟨c₄, .read 0x5000 8, c₅⟩ = [104, 105] := by
  obtain ⟨c₁, c₂, c₃, c₄, c₅, h₁, h₂, h₃, h₄, h₅, hfirst, hsecond, hempty⟩ : ∃ c₁ c₂ c₃ c₄ c₅,
      step new (spawnReader "shell") c₁ ∧ step c₁ (.kernel .run) c₂ ∧ step c₂ (.push 104) c₃ ∧
      step c₃ (.push 105) c₄ ∧ step c₄ (.read 0x5000 8) c₅ ∧
      typed ⟨c₂, .push 104, c₃⟩ = [104] ∧ typed ⟨c₃, .push 105, c₄⟩ = [105] ∧
      c₅.buffer.toList = [] :=
    ⟨_, _, _, _, _, ⟨fun _ => rfl, _, ⟨none, rfl⟩, rfl⟩, ⟨fun _ => rfl, _, ⟨_, rfl⟩, rfl⟩, rfl, rfl,
      ⟨rfl, _, rfl, rfl⟩, rfl, rfl, rfl⟩
  have hrun : Run step new _ c₅ := .cons h₁ (.cons h₂ (.cons h₃ (.cons h₄ (.single h₅))))
  refine ⟨c₁, c₂, c₃, c₄, c₅, h₁, h₂, h₃, h₄, h₅, ?_⟩
  have heq : (delivered ⟨c₄, .read 0x5000 8, c₅⟩ ++ []) ++ c₅.buffer.toList =
      typed ⟨c₂, .push 104, c₃⟩ ++ (typed ⟨c₃, .push 105, c₄⟩ ++ []) := (delivered_eq_typed hrun).1
  rw [hfirst, hsecond, hempty, append_nil, append_nil] at heq
  exact heq

end Console

end BeastOs.Syscall
