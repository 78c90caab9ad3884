import Mathlib.Data.BitVec
import Mathlib.Logic.Function.Basic

/-!
# The shell's command history

`Shell` keeps the last ten lines in a ring addressed by the number of all lines stored so far, and
`read_line` walks over it with a signed index. In the specification the keys move a position over
the list of the stored lines, newest first.

Main result: `press_eq_remembered`.
-/

namespace BeastOs.Userland

abbrev U8 := BitVec 8

/-- What the history needs of the shell's state. -/
structure Shell where
  /-- `input_buffer[..buffer_len]` -/
  input : List U8
  /-- `history[i][..history_lens[i]]`, for `i < 10` -/
  history : Nat → List U8
  historyCount : Nat
  historyIndex : Int

/-- The keys 0x80 and 0x81 of `read_line`. -/
inductive Key
  | up
  | down

namespace Shell

def new : Shell := ⟨[], fun _ => [], 0, -1⟩

def addToHistory (s : Shell) (line : List U8) : Shell :=
  if line = [] then s
  else if 0 < s.historyCount ∧ s.history ((s.historyCount - 1) % 10) = line then s
  else { s with
    history := Function.update s.history (s.historyCount % 10) (line.take 255)
    historyCount := s.historyCount + 1 }

/-- What `read_line` does before the first key. -/
def readLine (s : Shell) : Shell := { s with input := [], historyIndex := -1 }

def clearCurrentLine (s : Shell) : Shell := { s with input := [] }

/-- The result is `none` where `history_count - 1 - history_index` would underflow. -/
def loadHistory (s : Shell) : Option Shell :=
  if s.historyIndex < 0 then some s
  else if s.historyCount < 1 + s.historyIndex.toNat then none
  else
    let idx := (s.historyCount - 1 - s.historyIndex.toNat) % 10
    some { s.clearCurrentLine with input := s.history idx }

/-- The arms of `read_line` for the two keys. -/
def press (s : Shell) : Key → Option Shell
  | .up =>
    if 0 < s.historyCount ∧ s.historyIndex + 1 < min s.historyCount 10 then
      loadHistory { s with historyIndex := s.historyIndex + 1 }
    else some s
  | .down =>
    if 0 < s.historyIndex then loadHistory { s with historyIndex := s.historyIndex - 1 }
    else if s.historyIndex = 0 then some { s with historyIndex := -1 }.clearCurrentLine
    else some s

end Shell

/-! ## What is recalled -/

/-- Store a line unless the line stored last equals it. -/
def store (H : List (List U8)) (line : List U8) : List (List U8) :=
  if H.head? = some line then H else line :: H

/-- The entered lines without those equal to their stored predecessor, newest first. -/
def remembered (lines : List (List U8)) : List (List U8) := lines.foldl store []

/-- How a key moves the position when `limit` lines can be recalled. -/
def move (limit k : Nat) : Key → Nat
  | .up => min (k + 1) limit
  | .down => k - 1

/-- The ring holds the ten newest of the lines `H`. -/
structure Recent (H : List (List U8)) (s : Shell) : Prop where
  count : s.historyCount = H.length
  slot : ∀ i < 10, ∀ line, H[i]? = some line → s.history ((H.length - 1 - i) % 10) = line

/-- The shell is inside `read_line` and shows position `k`: the empty input, then `H`. -/
structure Shows (H : List (List U8)) (k : Nat) (s : Shell) : Prop extends Recent H s where
  index : s.historyIndex = k - 1
  le_ten : k ≤ 10
  input : ([] :: H)[k]? = some s.input

variable {H : List (List U8)} {s : Shell}

theorem Recent.last_eq_iff (h : Recent H s) (line : List U8) :
    (0 < s.historyCount ∧ s.history ((s.historyCount - 1) % 10) = line) ↔ H.head? = some line := by
  cases H with
  | nil => simp [h.count]
  | cons last older =>
    have hlast : s.history ((s.historyCount - 1) % 10) = last := by
      simpa [h.count] using h.slot 0 (by simp) last rfl
    rw [hlast, h.count]
    simp

/-- Storing a line overwrites the oldest slot, which is none of the nine newest. -/
theorem Recent.addToHistory (h : Recent H s) {line : List U8} (hne : line ≠ [])
    (hlen : line.length ≤ 255) :
    Recent (store H line) (s.addToHistory line) := by
  simp only [store, Shell.addToHistory, hne, h.last_eq_iff line, List.take_of_length_le hlen,
    ite_false]
  split
  · exact h
  refine ⟨by simp [h.count], fun i hi x hx => ?_⟩
  cases i with
  | zero => simpa [h.count] using hx
  | succ i =>
    have hlt := (List.getElem?_eq_some_iff.mp hx).1
    rw [List.length_cons] at hlt ⊢
    have hslot := h.slot i (by omega) x (by simpa using hx)
    have hother : (H.length + 1 - 1 - (i + 1)) % 10 ≠ s.historyCount % 10 := by
      rw [h.count]
      omega
    simp only [Function.update_of_ne hother, ← hslot]
    congr 2
    omega

theorem Recent.foldl (h : Recent H s) (lines : List (List U8))
    (hlines : ∀ line ∈ lines, 1 ≤ line.length ∧ line.length ≤ 255) :
    Recent (lines.foldl store H) (lines.foldl Shell.addToHistory s) := by
  induction lines generalizing H s with
  | nil => exact h
  | cons line lines ih =>
    obtain ⟨hline, hrest⟩ := List.forall_mem_cons.mp hlines
    exact ih (h.addToHistory (List.ne_nil_of_length_pos hline.1) hline.2) hrest

/-- Within the ten newest lines the subtraction of `load_history` is defined. -/
theorem Recent.load (h : Recent H s) {i : Nat} (hi : i < 10) {line : List U8}
    (hline : H[i]? = some line) :
    ∃ s', Shell.loadHistory { s with historyIndex := i } = some s' ∧ Shows H (i + 1) s' := by
  have hlt := (List.getElem?_eq_some_iff.mp hline).1
  refine ⟨{ s with input := line, historyIndex := i }, ?_, ⟨h.count, h.slot⟩, by simp, hi, hline⟩
  have hcount : ¬ H.length < 1 + i := by omega
  have hindex : ¬ (i : Int) < 0 := by omega
  simp [Shell.loadHistory, Shell.clearCurrentLine, hcount, hindex, h.count, h.slot i hi line hline]

/-- One key keeps the input at the recall position it moves to. -/
theorem Shows.press {k : Nat} (h : Shows H k s) (key : Key) :
    ∃ s', s.press key = some s' ∧ Shows H (move (min 10 H.length) k key) s' := by
  have hk := (List.getElem?_eq_some_iff.mp h.input).1
  have hten := h.le_ten
  have hcount := h.count
  rw [List.length_cons] at hk
  cases key with
  | up =>
    have hindex : s.historyIndex + 1 = k := by simp [h.index]
    simp only [Shell.press, move, hindex]
    by_cases hmore : k < min 10 H.length
    · rw [if_pos (by omega), show min (k + 1) (min 10 H.length) = k + 1 by omega]
      exact h.load (i := k) (by omega) (List.getElem?_eq_getElem (by omega))
    · rw [if_neg (by omega), show min (k + 1) (min 10 H.length) = k by omega]
      exact ⟨s, rfl, h⟩
  | down =>
    simp only [Shell.press, move, h.index]
    match k with
    | 0 => exact ⟨s, by simp, h⟩
    | 1 =>
      refine ⟨{ s with input := [], historyIndex := -1 }, ?_, ⟨h.count, h.slot⟩, rfl, by simp, rfl⟩
      simp [Shell.clearCurrentLine]
    | k + 2 =>
      have hback : ((k + 2 : Nat) : Int) - 1 - 1 = k := by omega
      rw [if_pos (by omega), hback]
      exact h.load (i := k) (by omega) (List.getElem?_eq_getElem (by omega))

theorem Shows.foldlM {k : Nat} (h : Shows H k s) (keys : List Key) :
    ∃ s', keys.foldlM Shell.press s = some s' ∧
      Shows H (keys.foldl (move (min 10 H.length)) k) s' := by
  induction keys generalizing k s with
  | nil => exact ⟨s, rfl, h⟩
  | cons key keys ih =>
    obtain ⟨mid, hmid, hshows⟩ := h.press key
    simpa [hmid] using ih hshows

/-- **Recall.** Whatever was entered and whichever keys follow, no index underflows, and at position
`k` the input is the `k`-th newest stored line, or empty for `k = 0`. -/
theorem press_eq_remembered (lines : List (List U8))
    (hlines : ∀ line ∈ lines, 1 ≤ line.length ∧ line.length ≤ 255) (keys : List Key) :
    ∃ s, keys.foldlM Shell.press (lines.foldl Shell.addToHistory Shell.new).readLine = some s ∧
      let k := keys.foldl (move (min 10 (remembered lines).length)) 0
      s.historyIndex = k - 1 ∧ ([] :: remembered lines)[k]? = some s.input := by
  have hnew : Recent [] Shell.new := ⟨rfl, fun i _ line h => by simp at h⟩
  have hstored := hnew.foldl lines hlines
  have hstart : Shows (remembered lines) 0 (lines.foldl Shell.addToHistory Shell.new).readLine :=
    ⟨⟨hstored.count, hstored.slot⟩, rfl, by simp, rfl⟩
  obtain ⟨s, hs, hshows⟩ := hstart.foldlM keys
  exact ⟨s, hs, hshows.index, hshows.input⟩

/-- A line entered twice is stored once, so that the third Up changes nothing. -/
theorem press_eq_remembered_repeated :
    ∃ s, [Key.up, .up, .up, .down].foldlM Shell.press
        ([[1], [1], [2]].foldl Shell.addToHistory Shell.new).readLine = some s ∧ s.input = [2] := by
  obtain ⟨s, hs, -, hinput⟩ := press_eq_remembered [[1], [1], [2]] (by decide) _
  exact ⟨s, hs, (Option.some.inj hinput).symm⟩

end BeastOs.Userland
