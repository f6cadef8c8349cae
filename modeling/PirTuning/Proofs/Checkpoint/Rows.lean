import Mathlib.Data.List.Basic
import PirTuning.Proofs.Checkpoint.Numbers

/-!
# Rows in a checkpoint

A row is written as its four numbers with a comma between any two.  `parse?_line`
reads it back, also behind blanks.  A line that is read as a row has three commas;
two such lines with no line end between them have six, and are no row
(`parse?_two_lines`).
-/

namespace PirTuning.Checkpoint

namespace Row

variable {row : Row} {blanks cs : List Char}

/-- The numbers of a row, in the order of its fields. -/
def numbers (row : Row) : List Nat :=
  [row.runs, row.bins, row.balls, row.maxLoad]

/-- Every number of a row has at most 64 bits. -/
def Fits (row : Row) : Prop :=
  ∀ n ∈ row.numbers, n ≤ Decimal.maxWord64

instance (row : Row) : Decidable row.Fits :=
  inferInstanceAs (Decidable (∀ n ∈ row.numbers, n ≤ Decimal.maxWord64))

/-- A row as a line, without the end of the line. -/
def line (row : Row) : String :=
  s!"{row.runs},{row.bins},{row.balls},{row.maxLoad}"

theorem render_eq (row : Row) : row.render = row.line ++ "\n" := rfl

theorem toList_line (row : Row) :
    row.line.toList = [','].intercalate (row.numbers.map (Nat.toDigits 10)) := by
  simp [line, numbers, Nat.toList_repr, List.intercalate_cons_cons, toString]

/-! ## Reading a row -/

theorem fields?_intercalate {fields : List (List Char)} (ne : fields ≠ [])
    (plain : ∀ field ∈ fields, ',' ∉ field) :
    fields? ([','].intercalate fields) =
      fields.mapM fun field => Decimal.word64? (trim field) := by
  rw [fields?, List.splitOn_intercalate ',' plain ne]

theorem comma_not_mem_toDigits (n : Nat) : ',' ∉ Nat.toDigits 10 n :=
  fun member => (plain_of_mem_toDigits member).2.1 rfl

theorem comma_not_mem_of_blank (blank : isBlankLine blanks = true) : ',' ∉ blanks :=
  fun member => absurd (List.all_eq_true.mp blank ',' member) (by decide)

theorem mapM_toDigits {ns : List Nat} (fit : ∀ n ∈ ns, n ≤ Decimal.maxWord64) :
    ((ns.map (Nat.toDigits 10)).mapM fun field => Decimal.word64? (trim field)) = some ns := by
  induction ns with
  | nil => rfl
  | cons n ns ih =>
    have first : Decimal.word64? (trim (Nat.toDigits 10 n)) = some n :=
      @word64?_trim [] rfl n (fit n List.mem_cons_self)
    simp [first, ih fun m member => fit m (List.mem_cons_of_mem n member)]

/-- A row is read from its line, and blanks in front of it do not matter. -/
theorem parse?_line (blank : isBlankLine blanks = true) (fits : row.Fits) :
    parse? (blanks ++ row.line.toList) = some row := by
  have joined : blanks ++ row.line.toList =
      [','].intercalate ((blanks ++ Nat.toDigits 10 row.runs) ::
        [row.bins, row.balls, row.maxLoad].map (Nat.toDigits 10)) := by
    simp [toList_line, numbers, List.intercalate_cons_cons]
  have first : Decimal.word64? (trim (blanks ++ Nat.toDigits 10 row.runs)) = some row.runs :=
    word64?_trim blank (fits row.runs List.mem_cons_self)
  have rest := mapM_toDigits fun n member => fits n (List.mem_cons_of_mem row.runs member)
  have fields : fields? (blanks ++ row.line.toList) = some row.numbers := by
    rw [joined, fields?_intercalate (List.cons_ne_nil _ _), List.mapM_cons, first, rest]
    · rfl
    · simp [comma_not_mem_of_blank blank, comma_not_mem_toDigits]
  simp [parse?, fields, numbers]

theorem parse?_line_self (fits : row.Fits) : parse? row.line.toList = some row := by
  simpa using @parse?_line row [] rfl fits

/-! ## Counting commas -/

theorem length_of_mapM {α β : Type} {f : α → Option β} {xs : List α} {ys : List β}
    (mapped : xs.mapM f = some ys) : ys.length = xs.length := by
  induction xs generalizing ys with
  | nil => simp_all
  | cons x xs ih =>
    simp only [List.mapM_cons, Option.bind_eq_bind, Option.bind_eq_some_iff,
      Option.pure_def, Option.some.injEq] at mapped
    obtain ⟨y, -, rest, mapped, rfl⟩ := mapped
    simp [ih mapped]

theorem length_splitOn (c : Char) (cs : List Char) :
    (cs.splitOn c).length = cs.count c + 1 := by
  induction cs with
  | nil => rfl
  | cons d cs ih =>
    rw [List.splitOn_cons_eq_if_modifyHead, List.count_cons]
    split <;> simp [ih]

theorem count_comma (read : parse? cs = some row) : cs.count ',' = 3 := by
  unfold parse? at read
  split at read
  case h_1 runs bins balls maxLoad fields =>
    have length := length_of_mapM fields
    rw [length_splitOn] at length
    simpa using length.symm
  case h_2 => cases read

/-- A line that was read as a row is none any more with another row behind it. -/
theorem parse?_two_lines {next : Row} (read : parse? cs = some row) (fits : next.Fits) :
    parse? (cs ++ next.line.toList) = none := by
  have three : next.line.toList.count ',' = 3 := count_comma (parse?_line_self fits)
  cases both : parse? (cs ++ next.line.toList) with
  | none => rfl
  | some other =>
    have six := count_comma both
    rw [List.count_append, count_comma read, three] at six
    cases six

/-! ## Line ends -/

/-- A line is not empty and ends in a digit. -/
theorem exists_concat_line (row : Row) :
    ∃ front c, row.line.toList = front ++ [c] ∧ Plain c := by
  have ne : Nat.toDigits 10 row.maxLoad ≠ [] := Nat.toDigits_ne_nil
  obtain ⟨front, c, last⟩ := (List.eq_nil_or_concat _).resolve_left ne
  refine ⟨[','].intercalate [Nat.toDigits 10 row.runs, Nat.toDigits 10 row.bins,
    Nat.toDigits 10 row.balls, front], c, ?_, plain_of_mem_toDigits (n := row.maxLoad) ?_⟩
  · simp [toList_line, numbers, List.intercalate_cons_cons, last]
  · simp [last]

theorem newline_not_mem_line (row : Row) : '\n' ∉ row.line.toList := by
  have digits (n : Nat) : '\n' ∉ Nat.toDigits 10 n :=
    fun member => (plain_of_mem_toDigits member).2.2.1 rfl
  simp [toList_line, numbers, List.intercalate_cons_cons, digits]

end Row

end PirTuning.Checkpoint
