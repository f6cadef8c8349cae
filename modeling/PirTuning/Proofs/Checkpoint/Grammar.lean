import Mathlib.Algebra.Group.Nat.Defs
import Mathlib.Data.List.Forall2
import Mathlib.Data.List.TakeWhile
import PirTuning.Checkpoint.Place
import PirTuning.Proofs.Checkpoint.Appending

/-!
# The grammar of checkpoint files

What a checkpoint file may look like, said without a reader: numerals are made of digits,
fields of a numeral and white space, rows of four fields, and a text of lines.  The reader
accepts exactly what the grammar allows (`load_accepts_grammar`), and where it does not, it
reports the first line that is no row.
-/

namespace PirTuning

/-! ## Numerals -/

namespace Decimal

variable {cs : List Char} {n : Nat}

/-- A numeral and the number it denotes: one or more digits, which may follow a plus.
    Leading zeros are digits like any other. -/
inductive Numeral : List Char → Nat → Prop where
  | bare {digits : List Char} (some_digit : digits ≠ []) (all_digits : ∀ c ∈ digits, c.isDigit) :
      Numeral digits (Nat.ofDigitChars 10 digits 0)
  | plus {digits : List Char} (some_digit : digits ≠ []) (all_digits : ∀ c ∈ digits, c.isDigit) :
      Numeral ('+' :: digits) (Nat.ofDigitChars 10 digits 0)

theorem Numeral.ne_nil (numeral : Numeral cs n) : cs ≠ [] := by
  cases numeral with
  | bare some_digit => exact some_digit
  | plus => exact List.cons_ne_nil _ _

theorem isDigit_of_digit? {c : Char} {d : Nat} (read : digit? c = some d) : c.isDigit = true := by
  unfold digit? at read
  split at read
  next bounds => exact Char.isDigit_iff_toNat.mpr bounds
  next => cases read

theorem isDigit_of_digitsOn {acc : Nat} (read : digitsOn acc cs = some n) :
    ∀ c ∈ cs, c.isDigit = true := by
  induction cs generalizing acc with
  | nil => simp
  | cons c cs ih =>
    rw [digitsOn] at read
    cases digit : digit? c with
    | none => simp [digit] at read
    | some d =>
      rw [digit] at read
      intro other member
      rcases List.mem_cons.mp member with rfl | later
      · exact isDigit_of_digit? digit
      · exact ih read other later

theorem digits?_eq_some_iff :
    digits? cs = some n ↔
      cs ≠ [] ∧ (∀ c ∈ cs, c.isDigit = true) ∧ Nat.ofDigitChars 10 cs 0 = n := by
  cases cs with
  | nil => simp [digits?]
  | cons c cs =>
    constructor
    · intro read
      have digits := isDigit_of_digitsOn read
      rw [digits?, digitsOn_eq digits, Option.some.injEq] at read
      exact ⟨List.cons_ne_nil c cs, digits, read⟩
    · rintro ⟨-, digits, rfl⟩
      exact digitsOn_eq digits 0

theorem unsigned?_eq_some_iff : unsigned? cs = some n ↔ Numeral cs n := by
  constructor
  · intro read
    unfold unsigned? at read
    split at read
    next digits =>
      obtain ⟨some_digit, all_digits, rfl⟩ := digits?_eq_some_iff.mp read
      exact .plus some_digit all_digits
    next =>
      obtain ⟨some_digit, all_digits, rfl⟩ := digits?_eq_some_iff.mp read
      exact .bare some_digit all_digits
  · intro numeral
    cases numeral with
    | bare some_digit all_digits => exact unsigned?_eq some_digit all_digits
    | plus some_digit all_digits =>
      exact digits?_eq_some_iff.mpr ⟨some_digit, all_digits, rfl⟩

theorem word64?_eq_some_iff : word64? cs = some n ↔ Numeral cs n ∧ n < 2 ^ 64 := by
  rw [← unsigned?_eq_some_iff, word64?]
  cases unsigned? cs with
  | none => simp
  | some m =>
    have bound : m ≤ maxWord64 ↔ m < 2 ^ 64 := Nat.le_sub_one_iff_lt (Nat.two_pow_pos 64)
    simp only [Option.ite_none_right_eq_some, Option.some.injEq, bound]
    grind

end Decimal

namespace Checkpoint

/-! ## White space -/

/-- The code points with the property `White_Space`. -/
def whiteSpace : List Nat :=
  [0x09, 0x0a, 0x0b, 0x0c, 0x0d, 0x20, 0x85, 0xa0, 0x1680, 0x2000, 0x2001, 0x2002, 0x2003, 0x2004,
    0x2005, 0x2006, 0x2007, 0x2008, 0x2009, 0x200a, 0x2028, 0x2029, 0x202f, 0x205f, 0x3000]

/-- A character with the property `White_Space`. -/
def White (c : Char) : Prop :=
  c.toNat ∈ whiteSpace

instance (c : Char) : Decidable (White c) :=
  inferInstanceAs (Decidable (c.toNat ∈ whiteSpace))

theorem isBlank_iff {c : Char} : isBlank c = true ↔ White c := by
  simp [isBlank, White, whiteSpace]
  omega

theorem not_white_of_numeral {cs : List Char} {n : Nat} (numeral : Decimal.Numeral cs n) :
    ∀ c ∈ cs, isBlank c = false := by
  cases numeral with
  | bare _ all_digits => exact fun c member => (plain_of_isDigit (all_digits c member)).1
  | plus _ all_digits =>
    intro c member
    rcases List.mem_cons.mp member with rfl | digit
    · rfl
    · exact (plain_of_isDigit (all_digits c digit)).1

/-! ## Trimming -/

section

variable {left right cs : List Char}

/-- What is trimmed off is blank. -/
theorem exists_trim (cs : List Char) :
    ∃ left right, isBlankLine left = true ∧ isBlankLine right = true ∧
      cs = left ++ trim cs ++ right := by
  have blank (xs : List Char) : isBlankLine (xs.takeWhile isBlank) = true :=
    List.all_eq_true.mpr fun c member => List.mem_takeWhile_imp member
  have front : cs = cs.takeWhile isBlank ++ trimLeft cs := List.takeWhile_append_dropWhile.symm
  have back : (trimLeft cs).reverse =
      (trimLeft cs).reverse.takeWhile isBlank ++ trimLeft (trimLeft cs).reverse :=
    List.takeWhile_append_dropWhile.symm
  have middle : trimLeft cs = trim cs ++ ((trimLeft cs).reverse.takeWhile isBlank).reverse := by
    rw [trim, ← List.reverse_append, ← back, List.reverse_reverse]
  refine ⟨cs.takeWhile isBlank, ((trimLeft cs).reverse.takeWhile isBlank).reverse, blank cs, ?_, ?_⟩
  · rw [isBlankLine, List.all_reverse]
    exact blank _
  · rw [List.append_assoc, ← middle]
    exact front

theorem trimLeft_append (blank : isBlankLine left = true) (some_char : cs ≠ [])
    (plain : ∀ c ∈ cs, isBlank c = false) : trimLeft (left ++ cs ++ right) = cs ++ right := by
  rw [trimLeft, List.append_assoc, List.dropWhile_append_of_pos (List.all_eq_true.mp blank)]
  cases cs with
  | nil => exact absurd rfl some_char
  | cons c cs => exact List.dropWhile_cons_of_neg (by simp [plain c List.mem_cons_self])

/-- Blanks are trimmed off both sides. -/
theorem trim_between (left_blank : isBlankLine left = true) (right_blank : isBlankLine right = true)
    (some_char : cs ≠ []) (plain : ∀ c ∈ cs, isBlank c = false) :
    trim (left ++ cs ++ right) = cs := by
  have back : trimLeft (cs ++ right).reverse = cs.reverse := by
    have blank : isBlankLine right.reverse = true := by rwa [isBlankLine, List.all_reverse]
    have turned := @trimLeft_append right.reverse [] cs.reverse blank
      (List.reverse_ne_nil_iff.mpr some_char) fun c member => plain c (List.mem_reverse.mp member)
    rwa [List.append_nil, List.append_nil, ← List.reverse_append] at turned
  rw [trim, trimLeft_append left_blank some_char plain, back, List.reverse_reverse]

theorem isBlankLine_iff : isBlankLine cs = true ↔ ∀ c ∈ cs, White c := by
  simp only [isBlankLine, List.all_eq_true, isBlank_iff]

end

/-! ## Fields and rows -/

/-- A field and its number: a numeral that fits a word, with white space on both sides. -/
inductive Field : List Char → Nat → Prop where
  | mk {left numeral right : List Char} {n : Nat} (left_white : ∀ c ∈ left, White c)
      (denotes : Decimal.Numeral numeral n) (fits : n < 2 ^ 64)
      (right_white : ∀ c ∈ right, White c) : Field (left ++ numeral ++ right) n

theorem word64?_trim_eq_some_iff {field : List Char} {n : Nat} :
    Decimal.word64? (trim field) = some n ↔ Field field n := by
  rw [Decimal.word64?_eq_some_iff]
  constructor
  · rintro ⟨denotes, fits⟩
    obtain ⟨left, right, left_blank, right_blank, split⟩ := exists_trim field
    rw [split]
    exact .mk (isBlankLine_iff.mp left_blank) denotes fits (isBlankLine_iff.mp right_blank)
  · rintro ⟨left_white, denotes, fits, right_white⟩
    rw [trim_between (isBlankLine_iff.mpr left_white) (isBlankLine_iff.mpr right_white)
      denotes.ne_nil (not_white_of_numeral denotes)]
    exact ⟨denotes, fits⟩

theorem comma_not_mem_field {field : List Char} {n : Nat} (denotes : Field field n) :
    ',' ∉ field := by
  have apart {cs : List Char} (white : ∀ c ∈ cs, White c) : ',' ∉ cs :=
    fun member => absurd (white ',' member) (by decide)
  obtain ⟨left_white, numeral, -, right_white⟩ := denotes
  simp only [List.mem_append, not_or]
  refine ⟨⟨apart left_white, ?_⟩, apart right_white⟩
  cases numeral with
  | bare _ all_digits => exact fun member => absurd (all_digits ',' member) (by decide)
  | plus _ all_digits =>
    rw [List.mem_cons, not_or]
    exact ⟨by decide, fun member => absurd (all_digits ',' member) (by decide)⟩

theorem mapM_eq_some_iff {α β : Type} {f : α → Option β} {xs : List α} {ys : List β} :
    xs.mapM f = some ys ↔ List.Forall₂ (fun x y => f x = some y) xs ys := by
  induction xs generalizing ys with
  | nil => simp [eq_comm]
  | cons x xs ih =>
    simp only [List.mapM_cons, Option.bind_eq_bind, Option.bind_eq_some_iff, Option.pure_def,
      Option.some.injEq, List.forall₂_cons_left_iff, ih]
    constructor
    · rintro ⟨y, first, rest, later, rfl⟩
      exact ⟨y, rest, first, later, rfl⟩
    · rintro ⟨y, rest, first, later, rfl⟩
      exact ⟨y, first, rest, later, rfl⟩

/-- A line and its row: one field for each number of the row, with a comma between any two. -/
def RowLine (line : List Char) (row : Row) : Prop :=
  ∃ fields, [','].intercalate fields = line ∧ List.Forall₂ Field fields row.numbers

theorem fields?_eq_some_iff {line : List Char} {numbers : List Nat} (some_number : numbers ≠ []) :
    Row.fields? line = some numbers ↔
      ∃ fields, [','].intercalate fields = line ∧ List.Forall₂ Field fields numbers := by
  constructor
  · intro read
    refine ⟨line.splitOn ',', List.intercalate_splitOn ',', ?_⟩
    rw [Row.fields?, mapM_eq_some_iff] at read
    exact read.imp fun field n => word64?_trim_eq_some_iff.mp
  · rintro ⟨fields, rfl, denote⟩
    have some_field : fields ≠ [] := by
      rintro rfl
      exact some_number (List.forall₂_nil_left_iff.mp denote)
    rw [Row.fields?_intercalate some_field, mapM_eq_some_iff]
    · exact denote.imp fun field n => word64?_trim_eq_some_iff.mpr
    · intro field member
      obtain ⟨i, lt, rfl⟩ := List.getElem_of_mem member
      exact comma_not_mem_field (denote.get lt (denote.length_eq ▸ lt))

theorem parse?_eq_some_iff {line : List Char} {row : Row} :
    Row.parse? line = some row ↔ RowLine line row := by
  have some_number : row.numbers ≠ [] := List.cons_ne_nil _ _
  rw [RowLine, ← fields?_eq_some_iff some_number, Row.numbers, Row.parse?]
  split
  next runs bins balls maxLoad fields =>
    rw [fields]
    cases row
    simp
  next other =>
    constructor
    · intro read
      cases read
    · intro fields
      exact absurd fields (other _ _ _ _)

/-! ## Lines -/

/-- The lines of a text.  A line ends at a line feed, and a carriage return directly in front
    of that belongs to the end of the line; what follows the last line feed is a line, too. -/
inductive Cut : List Char → List (List Char) → Prop where
  | last {line : List Char} (one : '\n' ∉ line) : Cut line [line]
  | returned {line text : List Char} {lines : List (List Char)} (one : '\n' ∉ line)
      (later : Cut text lines) : Cut (line ++ '\r' :: '\n' :: text) (line :: lines)
  | ended {line text : List Char} {lines : List (List Char)} (one : '\n' ∉ line)
      (bare : line.getLast? ≠ some '\r') (later : Cut text lines) :
      Cut (line ++ '\n' :: text) (line :: lines)

section

variable {line text : List Char} {lines : List (List Char)}

theorem dropReturn_of_bare (bare : line.getLast? ≠ some '\r') : dropReturn line = line := by
  induction line using List.reverseRecOn with
  | nil => rfl
  | append_singleton front c =>
    exact dropReturn_concat front fun same => bare (by rw [same, List.getLast?_concat])

theorem dropReturn_returned (line : List Char) : dropReturn (line ++ ['\r']) = line := by
  simp [dropReturn]

theorem textLines_line (one : '\n' ∉ line) (text : List Char) :
    textLines (line ++ '\n' :: text) = dropReturn line :: textLines text := by
  rw [textLines_append, List.splitOn_eq_singleton one]
  rfl

theorem Cut.eq_textLines (cut : Cut text lines) : lines = textLines text := by
  induction cut with
  | last one => exact (textLines_of_not_mem one).symm
  | @returned line text lines one _ ih =>
    have whole : '\n' ∉ line ++ ['\r'] := by simp [one]
    have cut := textLines_line whole text
    rw [dropReturn_returned, List.append_assoc] at cut
    rw [ih]
    exact cut.symm
  | ended one bare _ ih => rw [textLines_line one, dropReturn_of_bare bare, ih]

/-- A line in front of a text, whatever its end is. -/
theorem Cut.behind (one : '\n' ∉ line) (later : Cut text lines) :
    Cut (line ++ '\n' :: text) (dropReturn line :: lines) := by
  by_cases bare : line.getLast? = some '\r'
  · obtain ⟨front, rfl⟩ := List.getLast?_eq_some_iff.mp bare
    rw [dropReturn_returned, List.append_assoc]
    exact .returned (fun member => one (List.mem_append_left _ member)) later
  · rw [dropReturn_of_bare bare]
    exact .ended one bare later

end

theorem exists_cut (text : List Char) : ∃ lines, Cut text lines := by
  by_cases member : '\n' ∈ text
  · obtain ⟨line, rest, split, one⟩ := List.eq_append_cons_of_mem member
    obtain ⟨lines, later⟩ := exists_cut rest
    exact ⟨_, split ▸ later.behind one⟩
  · exact ⟨_, .last member⟩
termination_by text.length
decreasing_by
  rw [split, List.length_append, List.length_cons]
  omega

/-- Every text can be cut into lines, in one way. -/
theorem cut_iff {text : List Char} {lines : List (List Char)} :
    Cut text lines ↔ lines = textLines text := by
  refine ⟨Cut.eq_textLines, ?_⟩
  rintro rfl
  obtain ⟨lines, cut⟩ := exists_cut text
  rwa [← cut.eq_textLines]

/-! ## Reading lines -/

theorem parseLines_eq_ok_iff {lines : List (List Char)} {rows : List Row} :
    parseLines lines = .ok rows ↔ List.Forall₂ RowLine lines rows := by
  induction lines generalizing rows with
  | nil => simp [parseLines, eq_comm]
  | cons line lines ih =>
    rw [parseLines, List.forall₂_cons_left_iff]
    cases read : Row.parse? line with
    | none =>
      have no_row (row : Row) : ¬ RowLine line row := by
        rw [← parse?_eq_some_iff, read]
        simp
      simp [no_row]
    | some row =>
      have this_row (other : Row) : RowLine line other ↔ row = other := by
        rw [← parse?_eq_some_iff, read, Option.some.injEq]
      simp only [this_row, ← ih]
      cases parseLines lines <;> simp [Except.map, eq_comm]

/-- The error is the first line that is no row. -/
theorem parseLines_eq_error_iff {lines : List (List Char)} {bad : String} :
    parseLines lines = .error bad ↔
      ∃ before line after, lines = before ++ line :: after ∧ bad = String.ofList line ∧
        (∀ other ∈ before, ∃ row, RowLine other row) ∧ ¬ ∃ row, RowLine line row := by
  induction lines with
  | nil => simp [parseLines]
  | cons first lines ih =>
    rw [parseLines]
    cases read : Row.parse? first with
    | none =>
      have no_row : ¬ ∃ row, RowLine first row := by
        simp [← parse?_eq_some_iff, read]
      constructor
      · intro error
        cases error
        exact ⟨[], first, lines, rfl, rfl, by simp, no_row⟩
      · rintro ⟨before, line, after, split, rfl, rows, -⟩
        cases before with
        | nil => rw [(List.cons.inj split).1]
        | cons other before =>
          rw [(List.cons.inj split).1] at no_row
          exact absurd (rows other List.mem_cons_self) no_row
    | some row =>
      have some_row : ∃ row, RowLine first row := ⟨row, parse?_eq_some_iff.mp read⟩
      constructor
      · intro error
        have later : parseLines lines = .error bad := by
          cases rest : parseLines lines <;> simp_all [Except.map]
        obtain ⟨before, line, after, rfl, bad_eq, rows, no_row⟩ := ih.mp later
        refine ⟨first :: before, line, after, rfl, bad_eq, ?_, no_row⟩
        exact List.forall_mem_cons.mpr ⟨some_row, rows⟩
      · rintro ⟨before, line, after, split, bad_eq, rows, no_row⟩
        cases before with
        | nil =>
          rw [(List.cons.inj split).1] at some_row
          exact absurd some_row no_row
        | cons other before =>
          have later := ih.mpr ⟨before, line, after, (List.cons.inj split).2, bad_eq,
            (List.forall_mem_cons.mp rows).2, no_row⟩
          rw [later]
          rfl

/-! ## Reading a file -/

/-- The lines that hold something beside white space. -/
def shownLines (lines : List (List Char)) : List (List Char) :=
  lines.filter fun line => line.any fun c => ¬ White c

theorem readText_eq (text : List Char) :
    readText text = parseLines (shownLines (textLines text)) := by
  rw [readText, shownLines]
  congr 2
  funext line
  rw [Bool.eq_iff_iff, Bool.not_eq_true', ← Bool.not_eq_true, isBlankLine_iff, List.any_eq_true]
  simp only [decide_eq_true_eq, not_forall, exists_prop]

/-- The reader accepts a text exactly if every line with something in it beside white space is
    a row, and then it comes to these rows.  If some line is none, it comes to the first of them,
    as it stands in the text. -/
theorem load_accepts_grammar (text : String) :
    ∃ lines, (∀ other, Cut text.toList other ↔ other = lines) ∧
      (∀ rows, (Place.file text.toUTF8).load = .ok rows ↔
        List.Forall₂ RowLine (shownLines lines) rows) ∧
      ∀ cause, (Place.file text.toUTF8).load = .error cause ↔
        ∃ before line after, shownLines lines = before ++ line :: after ∧
          cause = .malformed (String.ofList line) ∧
          (∀ other ∈ before, ∃ row, RowLine other row) ∧ ¬ ∃ row, RowLine line row := by
  refine ⟨textLines text.toList, fun _ => cut_iff, fun rows => ?_, fun cause => ?_⟩
  · rw [Place.load_toUTF8_eq_ok_iff, readText_eq, parseLines_eq_ok_iff]
  · rw [Place.load_toUTF8, readText_eq]
    constructor
    · intro failed
      cases read : parseLines (shownLines (textLines text.toList)) with
      | ok rows => simp [read, Except.mapError] at failed
      | error bad =>
        obtain ⟨before, line, after, split, rfl, rows, no_row⟩ := parseLines_eq_error_iff.mp read
        rw [read] at failed
        cases failed
        exact ⟨before, line, after, split, rfl, rows, no_row⟩
    · rintro ⟨before, line, after, split, rfl, rows, no_row⟩
      rw [parseLines_eq_error_iff.mpr ⟨before, line, after, split, rfl, rows, no_row⟩]
      rfl

/-- Signs, zeros and white space of any kind around the numbers, and line ends of both kinds. -/
example : (Place.file "+007,\u3000256 ,8\t,\u00a050\r\n \x0b\n1,2,3,4".toUTF8).load
    = .ok [⟨7, 256, 8, 50⟩, ⟨1, 2, 3, 4⟩] := by decide +kernel

end Checkpoint

end PirTuning
