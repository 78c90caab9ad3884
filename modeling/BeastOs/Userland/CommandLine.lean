import BeastOs.Userland.History

/-!
# Command lines

`Shell::execute_command` and `Terminal::execute_input` cut a line into words and hand them to
`commands::execute`. Both copy text into buffers of 128 bytes on the way: the shell its words, the
terminal the line it shows. A call is the command with its arguments; the result of a parser is
`none` when it panics and `some none` when it calls nothing.

Main result: `parsedAlike_iff`.
-/

namespace BeastOs.Userland

abbrev Call := List U8 × List (List U8)

/-- `split_whitespace`, on lines whose only whitespace are spaces. -/
def words (line : List U8) : List (List U8) := (line.splitOn 32).filter (· ≠ [])

/-- A word as the shell reads it back from a zeroed buffer of 128 bytes that takes 127 of them. -/
def argText (word : List U8) : List U8 := (word.take 127 ++ [0]).takeWhile (· ≠ 0)

/-- The command's copy needs a slice of its own length and has one of 127 bytes at most. -/
def executeCommand (line : List U8) : Option (Option Call) :=
  match words line with
  | [] => some none
  | cmd :: args =>
    let cmdLen := min cmd.length 127
    if cmd.length = cmdLen then some (some (cmd, (args.take 8).map argText)) else none

def ascii (s : String) : List U8 := s.toList.map fun c => .ofNat 8 c.toNat

/-- The text of `update_prompt`, when `getcwd` has left `cwd` in the buffer. -/
def prompt (cwd : List U8) : List U8 :=
  let path := if cwd = [] then ascii "~" else cwd.take 96
  (ascii "beast@beastos:" ++ path ++ ascii " $ ").take 127

/-- A row of the terminal takes 128 bytes, the line it is to show has up to 255. -/
def executeInput (prompt line : List U8) : Option (Option Call) :=
  if line = [] then some none
  else if 128 < ((prompt.take 100 ++ line.take 155).take 255).length then none
  else match words line with
    | [] => some none
    | cmd :: args => some (some (cmd, args.take 8))

/-- The first word and the next eight. -/
def call (line : List U8) : Option Call :=
  match words line with
  | [] => none
  | cmd :: args => some (cmd, args.take 8)

/-- Both parsers run to the end and make the call of the line. -/
abbrev ParsedAlike (cwd line : List U8) : Prop :=
  executeCommand line = some (call line) ∧ executeInput (prompt cwd) line = some (call line)

/-- What can be typed: up to 255 printable bytes. -/
abbrev Typed (line : List U8) : Prop :=
  1 ≤ line.length ∧ line.length ≤ 255 ∧ ∀ b ∈ line, 32 ≤ b ∧ b ≤ 126

theorem mem_of_mem_splitOn (x : U8) (line : List U8) : ∀ w ∈ line.splitOn x, ∀ b ∈ w, b ∈ line := by
  induction line with
  | nil => simp
  | cons a line ih =>
    rw [List.splitOn, List.splitOnP_cons_eq_if_modifyHead, ← List.splitOn]
    cases hsplit : line.splitOn x with
    | nil => simp
    | cons first rest =>
      rw [hsplit] at ih
      rw [List.modifyHead_cons]
      split <;> grind

theorem argText_eq {word : List U8} (h : 0 ∉ word) : argText word = word.take 127 := by
  rw [argText, List.takeWhile_append_of_pos]
  · simp
  · intro b hb
    have hne : b ≠ 0 := fun h0 => h (h0 ▸ List.mem_of_mem_take hb)
    simpa using hne

theorem map_take_eq_self (ws : List (List U8)) :
    ws.map (List.take 127) = ws ↔ ∀ w ∈ ws, w.length ≤ 127 := by
  induction ws with
  | nil => simp
  | cons w ws ih => simp [ih]

theorem executeCommand_eq_iff {line : List U8} (h : Typed line) :
    executeCommand line = some (call line) ↔ ∀ w ∈ (words line).take 9, w.length ≤ 127 := by
  have hword : ∀ w ∈ words line, 0 ∉ w := by
    intro w hw hzero
    have hmem := mem_of_mem_splitOn 32 line w (List.mem_of_mem_filter hw) 0 hzero
    exact absurd (h.2.2 0 hmem).1 (by decide)
  unfold executeCommand call
  cases hwords : words line with
  | nil => simp
  | cons cmd args =>
    rw [hwords, List.forall_mem_cons] at hword
    have hargs : (args.take 8).map argText = (args.take 8).map (List.take 127) :=
      List.map_congr_left fun w hw => argText_eq (hword.2 w (List.mem_of_mem_take hw))
    simp only [hargs, List.take_succ_cons, List.forall_mem_cons, ← map_take_eq_self]
    split <;> simp <;> omega

theorem length_shown (cwd line : List U8) : ((cwd.take 100 ++ line.take 155).take 255).length =
    min cwd.length 100 + min line.length 155 := by
  simp
  omega

/-- **Which lines are parsed alike**: those with words of at most 127 bytes, as far as they are
used, that fit into a row of the terminal behind the prompt. -/
theorem parsedAlike_iff (cwd : List U8) {line : List U8} (h : Typed line) :
    ParsedAlike cwd line ↔ (∀ w ∈ (words line).take 9, w.length ≤ 127) ∧
      min (prompt cwd).length 100 + min line.length 155 ≤ 128 := by
  have hne : line ≠ [] := List.ne_nil_of_length_pos h.1
  refine and_congr (executeCommand_eq_iff h) ?_
  unfold executeInput call
  rw [if_neg hne, length_shown]
  split
  · simpa
  · rename_i hfits
    refine iff_of_true ?_ (not_lt.mp hfits)
    cases words line <;> rfl

/-- The line `ls /` is parsed alike by both. -/
theorem parsedAlike_twoWords : Typed (ascii "ls /") ∧ ParsedAlike [] (ascii "ls /") := by
  have htyped : Typed (ascii "ls /") := by decide
  exact ⟨htyped, (parsedAlike_iff [] htyped).mpr (by decide)⟩

/-- A command of 128 letters. -/
theorem not_parsedAlike_longCommand : Typed (List.replicate 128 97) ∧
    executeCommand (List.replicate 128 97) = none ∧
    executeInput (prompt []) (List.replicate 128 97) = none ∧
    ¬ ParsedAlike [] (List.replicate 128 97) := by
  decide +kernel

end BeastOs.Userland
