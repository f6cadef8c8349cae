import PirTuning.Checkpoint.Place
import PirTuning.Proofs.Checkpoint.Lines

/-!
# What is read back after rows were added

`load_append` describes a checkpoint file whose content was read before rows were
added to it, whoever wrote that content.  If it stops at a line end, or has only blanks
behind its last one, the new rows are read after the old ones.  If not, the first new
row becomes a part of the unfinished line, which is the line that is reported then.
-/

namespace PirTuning.Checkpoint

variable {rows : List Row}

/-! ## Texts in files -/

theorem fromUTF8?_toUTF8 (text : String) : String.fromUTF8? text.toUTF8 = some text := by
  rw [String.toUTF8_eq_toByteArray, String.fromUTF8?, dif_pos text.isValidUTF8]
  rfl

theorem renderRows_append (rows more : List Row) :
    renderRows (rows ++ more) = renderRows rows ++ renderRows more := by
  simp [renderRows]

namespace Place

/-- What stands in front of new rows, where rows can be added. -/
def content? : Place → Option ByteArray
  | blocked _ => none
  | free => some ByteArray.empty
  | file content => some content

theorem append_of_content {place : Place} {old : ByteArray} (content : place.content? = some old)
    (rows : List Row) : place.append rows = .ok (.file (old ++ (renderRows rows).toUTF8)) := by
  cases place with
  | blocked cause => cases content
  | free =>
    cases content
    rw [append_free, ByteArray.empty_append]
  | file before =>
    cases content
    rfl

theorem append_toUTF8 (text : String) (rows : List Row) :
    (file text.toUTF8).append rows = .ok (.file (text ++ renderRows rows).toUTF8) := by
  simp only [append_file, String.toUTF8_eq_toByteArray, String.toByteArray_append]

theorem load_toUTF8 (text : String) :
    (file text.toUTF8).load = (readText text.toList).mapError .malformed := by
  simp only [load, fromUTF8?_toUTF8, parseRows_eq]
  cases readText text.toList <;> rfl

theorem load_toUTF8_eq_ok_iff (text : String) :
    (file text.toUTF8).load = .ok rows ↔ readText text.toList = .ok rows := by
  rw [load_toUTF8]
  cases readText text.toList <;> simp [Except.mapError]

end Place

/-! ## Rows behind a text -/

section Behind

variable {last : List Char} {first : Row} {more : List Row}

theorem readText_last (one : '\n' ∉ last) :
    readText last = if isBlankLine last then .ok [] else parseLines [last] := by
  rw [readText, textLines_of_not_mem one]
  cases blank : isBlankLine last <;> simp [blank, parseLines]

theorem toList_renderRows_cons (first : Row) (more : List Row) :
    (renderRows (first :: more)).toList = first.render.toList ++ (renderRows more).toList := by
  rw [renderRows, List.map_cons, String.join_cons, String.toList_append]
  rfl

theorem readText_blank_rows (one : '\n' ∉ last) (blank : isBlankLine last = true)
    (fit : ∀ row ∈ first :: more, row.Fits) :
    readText (last ++ (renderRows (first :: more)).toList) = .ok (first :: more) := by
  have behind : readText (renderRows more).toList = .ok more :=
    readText_renderRows fun row member => fit row (List.mem_cons_of_mem first member)
  rw [toList_renderRows_cons, ← List.append_assoc, readText_row first one,
    Row.parse?_line blank (fit first List.mem_cons_self), behind]
  rfl

theorem readText_unfinished_rows (one : '\n' ∉ last) (shown : isBlankLine last = false)
    (read : readText last = .ok rows) (fits : first.Fits) :
    readText (last ++ (renderRows (first :: more)).toList) =
      .error (String.ofList (last ++ first.line.toList)) := by
  rw [readText_last one, shown, if_neg Bool.false_ne_true, parseLines] at read
  cases parsed : Row.parse? last with
  | none => simp [parsed] at read
  | some row =>
    rw [toList_renderRows_cons, ← List.append_assoc, readText_row first one,
      Row.parse?_two_lines parsed fits]

/-- Rows that are written behind a text are read after the rows of the text, unless the
    text ends in a line that is neither ended nor blank. -/
theorem readText_append_rows {text : List Char} (read : readText text = .ok rows)
    (fit : ∀ row ∈ first :: more, row.Fits) :
    readText (text ++ (renderRows (first :: more)).toList) =
      if isBlankLine (unended text) then .ok (rows ++ first :: more)
      else .error (String.ofList (unended text ++ first.line.toList)) := by
  obtain ⟨front, ended, split⟩ := exists_ended text
  have one := newline_not_mem_unended text
  generalize unended text = last at split one ⊢
  subst split
  -- up to its last line end the text reads as before; only the rest meets the new rows
  rw [readText_append ended] at read
  rw [List.append_assoc, readText_append ended]
  cases front_read : readText front with
  | error line => simp [front_read, Except.bind] at read
  | ok before =>
    cases last_read : readText last with
    | error line => simp [front_read, last_read, Except.bind, Except.map] at read
    | ok behind =>
      have whole : before ++ behind = rows := by
        simpa [front_read, last_read, Except.bind, Except.map] using read
      cases blank : isBlankLine last with
      | true =>
        have none_behind : behind = [] := by simpa [readText_last one, blank] using last_read.symm
        rw [readText_blank_rows one blank fit, ← whole, none_behind, List.append_nil]
        rfl
      | false =>
        rw [readText_unfinished_rows one blank last_read (fit first List.mem_cons_self)]
        rfl

end Behind

/-! ## Rows added again and again -/

theorem foldlM_append (rows : List Row) (batches : List (List Row)) :
    batches.foldlM Place.append (.file (renderRows rows).toUTF8) =
      .ok (.file (renderRows (rows ++ batches.flatten)).toUTF8) := by
  induction batches generalizing rows with
  | nil => simp [pure, Except.pure]
  | cons batch batches ih =>
    rw [List.foldlM_cons, Place.append_toUTF8, ← renderRows_append, List.flatten_cons,
      ← List.append_assoc]
    exact ih (rows ++ batch)

/-! ## The law of a checkpoint file -/

/-- A text has no line that still needs an end: it is empty, it stops at a line end, or
    there are only blanks behind its last one. -/
def EndsLine (text : String) : Prop :=
  text = "" ∨ (∃ body, text = body ++ "\n") ∨ isBlankLine (unended text.toList) = true

theorem endsLine_iff (text : String) :
    EndsLine text ↔ isBlankLine (unended text.toList) = true := by
  constructor
  · intro ends
    obtain rfl | ⟨body, rfl⟩ | blank := ends
    · rfl
    · simp [unended, isBlankLine]
    · exact blank
  · exact fun blank => .inr (.inr blank)

instance (text : String) : Decidable (EndsLine text) :=
  decidable_of_iff _ (endsLine_iff text).symm

/-- What was written is read back: after rows were added to a text that could be read, and
    after any number of additions to a place that was free. -/
theorem load_append :
    (∀ (text : String) (rows : List Row) (first : Row) (more : List Row),
      (Place.file text.toUTF8).load = .ok rows → (∀ row ∈ first :: more, row.Fits) →
      ∃ place, (Place.file text.toUTF8).append (first :: more) = .ok place ∧
        place.text? =
          some (text ++ String.join ((first :: more).map fun row => row.line ++ "\n")) ∧
        (EndsLine text → place.load = .ok (rows ++ first :: more)) ∧
        (¬ EndsLine text → place.load =
          .error (.malformed (String.ofList (unended text.toList) ++ first.line)))) ∧
    (∀ (batch : List Row) (later : List (List Row)),
      (∀ rows ∈ batch :: later, ∀ row ∈ rows, row.Fits) →
      ∃ place, (batch :: later).foldlM Place.append .free = .ok place ∧
        place.load = .ok (batch :: later).flatten) := by
  constructor
  · intro text rows first more loads fit
    have read := readText_append_rows ((Place.load_toUTF8_eq_ok_iff text).mp loads) fit
    rw [← String.toList_append] at read
    refine ⟨_, Place.append_toUTF8 text _, fromUTF8?_toUTF8 _, ?_, ?_⟩
    · intro ends
      rw [if_pos ((endsLine_iff text).mp ends)] at read
      exact (Place.load_toUTF8_eq_ok_iff _).mpr read
    · intro unfinished
      rw [if_neg fun blank => unfinished ((endsLine_iff text).mpr blank)] at read
      rw [Place.load_toUTF8, read, String.ofList_append, String.ofList_toList]
      rfl
  · intro batch later fit
    refine ⟨_, foldlM_append batch later, (Place.load_toUTF8_eq_ok_iff _).mpr ?_⟩
    refine readText_renderRows fun row member => ?_
    obtain ⟨rows, among, member⟩ := List.mem_flatten.mp (List.flatten_cons ▸ member)
    exact fit rows among row member

/-- Two rows run into each other when the first one was left without its line end. -/
theorem load_append_unfinished :
    ∃ place, (Place.file "1,2,3,4".toUTF8).append [⟨5, 6, 7, 8⟩] = .ok place ∧
      place.load = .error (.malformed "1,2,3,45,6,7,8") := by
  have loads : (Place.file "1,2,3,4".toUTF8).load = .ok [⟨1, 2, 3, 4⟩] :=
    (Place.load_toUTF8_eq_ok_iff _).mpr (by rfl)
  obtain ⟨place, added, -, -, unfinished⟩ :=
    load_append.1 "1,2,3,4" [⟨1, 2, 3, 4⟩] ⟨5, 6, 7, 8⟩ [] loads (by decide)
  exact ⟨place, added, unfinished (by decide)⟩

end PirTuning.Checkpoint
