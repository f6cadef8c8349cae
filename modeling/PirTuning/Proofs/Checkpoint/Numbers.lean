import PirTuning.Checkpoint.Row

/-!
# Numbers in a checkpoint

A number is written in decimal, and what was written is read back, whatever the
number is as long as it fits into a word.  Its digits are neither signs nor blanks,
and none of them ends a field or a line.
-/

namespace PirTuning

namespace Decimal

variable {cs : List Char} {n : Nat}

theorem digit?_of_isDigit {c : Char} (digit : c.isDigit = true) :
    digit? c = some (c.toNat - 48) := by
  obtain ⟨low, high⟩ := Char.isDigit_iff_toNat.mp digit
  exact if_pos ⟨low, high⟩

theorem digitsOn_eq (digits : ∀ c ∈ cs, c.isDigit = true) (acc : Nat) :
    digitsOn acc cs = some (Nat.ofDigitChars 10 cs acc) := by
  induction cs generalizing acc with
  | nil => rfl
  | cons c cs ih =>
    simp only [digitsOn, digit?_of_isDigit (digits c List.mem_cons_self), Nat.ofDigitChars_cons,
      Nat.mul_comm acc]
    exact ih (fun d member => digits d (List.mem_cons_of_mem c member)) _

theorem unsigned?_eq (ne : cs ≠ []) (digits : ∀ c ∈ cs, c.isDigit = true) :
    unsigned? cs = some (Nat.ofDigitChars 10 cs 0) := by
  cases cs with
  | nil => exact absurd rfl ne
  | cons c cs =>
    have no_sign : c ≠ '+' := by
      rintro rfl
      exact absurd (digits '+' List.mem_cons_self) (by decide)
    rw [unsigned?.eq_2 _ fun rest same => no_sign (List.cons.inj same).1, digits?]
    exact digitsOn_eq digits 0

/-- A number is read back from its digits. -/
theorem word64?_toDigits (le : n ≤ maxWord64) : word64? (Nat.toDigits 10 n) = some n := by
  have read : unsigned? (Nat.toDigits 10 n) = some n := by
    rw [unsigned?_eq Nat.toDigits_ne_nil
      fun c member => Nat.isDigit_of_mem_toDigits (by decide) (by decide) member,
      Nat.ofDigitChars_ten_toDigits]
  simp only [word64?, read, if_pos le]

end Decimal

namespace Checkpoint

/-! ## Digits among other characters -/

/-- Neither a blank nor a character with a meaning of its own in a row. -/
def Plain (c : Char) : Prop :=
  isBlank c = false ∧ c ≠ ',' ∧ c ≠ '\n' ∧ c ≠ '\r'

theorem plain_of_isDigit {c : Char} (digit : c.isDigit = true) : Plain c := by
  obtain ⟨low, high⟩ := Char.isDigit_iff_toNat.mp digit
  have from_zero : 48 ≤ c.toNat := low
  have to_nine : c.toNat ≤ 57 := high
  refine ⟨?_, ?_, ?_, ?_⟩
  · simp only [isBlank, Bool.or_eq_false_iff, Bool.and_eq_false_iff, decide_eq_false_iff_not,
      beq_eq_false_iff_ne]
    omega
  all_goals
    rintro rfl
    exact absurd digit (by decide)

theorem plain_of_mem_toDigits {n : Nat} {c : Char} (member : c ∈ Nat.toDigits 10 n) : Plain c :=
  plain_of_isDigit (Nat.isDigit_of_mem_toDigits (by decide) (by decide) member)

/-! ## Trimming -/

theorem trimLeft_of_plain {cs : List Char} (plain : ∀ c ∈ cs, isBlank c = false) :
    trimLeft cs = cs := by
  cases cs with
  | nil => rfl
  | cons c cs => exact List.dropWhile_cons_of_neg (by simp [plain c List.mem_cons_self])

/-- The blanks in front of digits are taken off, and nothing else. -/
theorem trim_append {blanks cs : List Char} (blank : isBlankLine blanks = true)
    (plain : ∀ c ∈ cs, isBlank c = false) : trim (blanks ++ cs) = cs := by
  have front : trimLeft (blanks ++ cs) = cs := by
    rw [trimLeft, List.dropWhile_append_of_pos (List.all_eq_true.mp blank)]
    exact trimLeft_of_plain plain
  have back : trimLeft cs.reverse = cs.reverse :=
    trimLeft_of_plain fun c member => plain c (List.mem_reverse.mp member)
  rw [trim, front, back, List.reverse_reverse]

/-- A field of blanks and a number is that number. -/
theorem word64?_trim {blanks : List Char} (blank : isBlankLine blanks = true) {n : Nat}
    (le : n ≤ Decimal.maxWord64) :
    Decimal.word64? (trim (blanks ++ Nat.toDigits 10 n)) = some n := by
  rw [trim_append blank fun c member => (plain_of_mem_toDigits member).1]
  exact Decimal.word64?_toDigits le

end Checkpoint

end PirTuning
