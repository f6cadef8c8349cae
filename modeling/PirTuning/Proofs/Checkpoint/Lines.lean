import Mathlib.Data.List.DropRight
import PirTuning.Proofs.Checkpoint.Rows

/-!
# Reading a text in two parts

A text that stops at a line end is read on its own, whatever follows it
(`readText_append`).  The rest of a text, behind its last line end, is one line; a row
that is written behind it becomes a part of that line.
-/

namespace PirTuning.Checkpoint

variable {front rest last : List Char}

/-! ## Lines of a text -/

theorem endLines_append (lines : List (List Char)) {rest : List (List Char)} (ne : rest ≠ []) :
    endLines (lines ++ rest) = lines.map dropReturn ++ endLines rest := by
  induction lines with
  | nil => rfl
  | cons line lines ih =>
    cases tail : lines ++ rest with
    | nil => exact absurd (List.append_eq_nil_iff.mp tail).2 ne
    | cons next others =>
      rw [List.cons_append, tail, endLines, ← tail, ih, List.map_cons, List.cons_append]
      simp

theorem textLines_append (body rest : List Char) :
    textLines (body ++ '\n' :: rest) =
      (body.splitOn '\n').map dropReturn ++ textLines rest := by
  rw [textLines, List.splitOn_append_cons_self, endLines_append _ (List.splitOn_ne_nil _ _)]
  rfl

theorem textLines_of_not_mem (one : '\n' ∉ last) : textLines last = [last] := by
  rw [textLines, List.splitOn_eq_singleton one]
  rfl

theorem dropReturn_concat (cs : List Char) {c : Char} (ne : c ≠ '\r') :
    dropReturn (cs ++ [c]) = cs ++ [c] := by
  simp [dropReturn, ne]

/-! ## Reading a text -/

/-- The rows of a text, given by its characters. -/
def readText (text : List Char) : Except String (List Row) :=
  parseLines ((textLines text).filter fun line => !isBlankLine line)

theorem parseRows_eq (text : String) : parseRows text = readText text.toList := rfl

theorem readText_nil : readText [] = .ok [] := rfl

theorem parseLines_append (lines rest : List (List Char)) :
    parseLines (lines ++ rest) =
      (parseLines lines).bind fun rows => (parseLines rest).map (rows ++ ·) := by
  induction lines with
  | nil =>
    rw [List.nil_append]
    cases parseLines rest <;> rfl
  | cons line lines ih =>
    rw [List.cons_append, parseLines, parseLines, ih]
    cases Row.parse? line with
    | none => rfl
    | some row => cases parseLines lines with
      | error bad => rfl
      | ok rows => cases parseLines rest <;> rfl

/-- A text stops at a line end, or has not begun. -/
def Ended (text : List Char) : Prop :=
  text = [] ∨ ∃ body, text = body ++ ['\n']

/-- What stops at a line end is read first, and what follows it is read on its own. -/
theorem readText_append (ended : Ended front) (rest : List Char) :
    readText (front ++ rest) =
      (readText front).bind fun rows => (readText rest).map (rows ++ ·) := by
  cases ended with
  | inl empty =>
    rw [empty, List.nil_append, readText_nil]
    cases readText rest <;> rfl
  | inr ended =>
    obtain ⟨body, rfl⟩ := ended
    have alone : readText (body ++ ['\n']) =
        parseLines (((body.splitOn '\n').map dropReturn).filter fun line => !isBlankLine line) := by
      rw [readText, textLines_append, List.filter_append]
      exact congrArg parseLines (List.append_nil _)
    rw [alone, List.append_assoc, List.singleton_append, readText, textLines_append,
      List.filter_append, parseLines_append]
    rfl

/-- A line that is not blank is read first. -/
theorem readText_line {c : Char} (cs : List Char) (one : '\n' ∉ cs ++ [c]) (plain : Plain c)
    (rest : List Char) :
    readText (cs ++ [c] ++ '\n' :: rest) =
      match Row.parse? (cs ++ [c]) with
      | none => .error (String.ofList (cs ++ [c]))
      | some row => (readText rest).map (row :: ·) := by
  have shown : isBlankLine (cs ++ [c]) = false := by simp [isBlankLine, plain.1]
  rw [readText, textLines_append, List.splitOn_eq_singleton one, List.map_singleton,
    dropReturn_concat cs plain.2.2.2, List.singleton_append,
    List.filter_cons_of_pos (by rw [shown]; rfl)]
  rfl

/-- A row behind the last line end of a text becomes a part of its last line. -/
theorem readText_row (row : Row) (one : '\n' ∉ last) (rest : List Char) :
    readText (last ++ row.render.toList ++ rest) =
      match Row.parse? (last ++ row.line.toList) with
      | none => .error (String.ofList (last ++ row.line.toList))
      | some row => (readText rest).map (row :: ·) := by
  -- the line ends in a digit, so nothing is dropped from it and it is not blank
  obtain ⟨digits, c, ends, plain⟩ := row.exists_concat_line
  have whole : '\n' ∉ last ++ digits ++ [c] := by
    rw [List.append_assoc, ← ends, List.mem_append]
    exact fun member => member.elim one row.newline_not_mem_line
  have read := readText_line (last ++ digits) whole plain rest
  rw [List.append_assoc last, ← ends] at read
  rw [← read, row.render_eq]
  simp

/-- Rows that were written are read back. -/
theorem readText_renderRows {rows : List Row} (fit : ∀ row ∈ rows, row.Fits) :
    readText (renderRows rows).toList = .ok rows := by
  induction rows with
  | nil => rfl
  | cons row rows ih =>
    have read := @readText_row [] row List.not_mem_nil (renderRows rows).toList
    rw [List.nil_append, List.nil_append, row.parse?_line_self (fit row List.mem_cons_self),
      ih fun other member => fit other (List.mem_cons_of_mem row member)] at read
    rwa [renderRows, List.map_cons, String.join_cons, String.toList_append]

/-! ## The unfinished line -/

/-- What follows the last line end of a text, which is the whole text if it has none. -/
def unended (text : List Char) : List Char :=
  text.rtakeWhile (· ≠ '\n')

theorem newline_not_mem_unended (text : List Char) : '\n' ∉ unended text :=
  fun member => by simpa using List.mem_rtakeWhile_imp member

theorem exists_ended (text : List Char) :
    ∃ front, Ended front ∧ text = front ++ unended text := by
  induction text using List.reverseRecOn with
  | nil => exact ⟨[], .inl rfl, rfl⟩
  | append_singleton text c ih =>
    by_cases stop : c = '\n'
    · refine ⟨text ++ [c], .inr ⟨text, by rw [stop]⟩, ?_⟩
      simp [unended, stop]
    · obtain ⟨front, ended, split⟩ := ih
      have longer : unended (text ++ [c]) = unended text ++ [c] := by
        simp [unended, stop]
      exact ⟨front, ended, by rw [longer, ← List.append_assoc, ← split]⟩

end PirTuning.Checkpoint
