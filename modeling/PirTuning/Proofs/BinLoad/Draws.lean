import Mathlib.Algebra.GroupWithZero.Nat
import PirTuning.BinLoad.Draw

/-!
# Draws from a power of two

Where the number of bins is a power of two, a draw is nothing but the top bits of one
word.  The product of the word and the number of bins has so many zeros at its end that
the second word is never asked for, and so the words of a source are dealt out one to
each draw.
-/

namespace PirTuning.BinLoad

variable {σ : Type} [WordSource σ]

/-! ## The words of a source -/

/-- What is left of a source after some of its words. -/
def skip : (words : Nat) → σ → σ
  | 0, source => source
  | words + 1, source => skip words (WordSource.next source).2

/-- Word number `i` of a source, counted from `0`. -/
def wordAt (source : σ) (i : Nat) : UInt64 :=
  (WordSource.next (skip i source)).1

theorem skip_skip (words more : Nat) (source : σ) :
    skip more (skip words source) = skip (words + more) source := by
  induction words generalizing source with
  | zero => simp [skip]
  | succ words ih => rw [skip, ih, Nat.succ_add, skip]

theorem wordAt_skip (words i : Nat) (source : σ) :
    wordAt (skip words source) i = wordAt source (words + i) := by
  rw [wordAt, skip_skip, wordAt]

/-! ## One draw -/

/-- The bin of a word among `2 ^ k` bins: its `k` top bits. -/
def binOf (k : Nat) (word : UInt64) : Nat :=
  word.toNat / 2 ^ (64 - k)

theorem binOf_lt {k : Nat} (le : k ≤ 64) (word : UInt64) : binOf k word < 2 ^ k := by
  have split : 2 ^ (64 - k) * 2 ^ k = 2 ^ 64 := by
    rw [← Nat.pow_add, Nat.sub_add_cancel le]
  rw [binOf, Nat.div_lt_iff_lt_mul (Nat.two_pow_pos _), Nat.mul_comm, split]
  exact word.toNat_lt

section

variable {k : Nat} (lt : k < 64)

include lt

theorem toNat_two_pow : (UInt64.ofNat (2 ^ k)).toNat = 2 ^ k :=
  UInt64.toNat_ofNat_of_lt' (Nat.pow_lt_pow_right (Nat.lt_succ_self 1) lt)

theorem toNat_mulHigh_two_pow (word : UInt64) :
    (mulHigh word (UInt64.ofNat (2 ^ k))).toNat = binOf k word := by
  have size : UInt64.size = 2 ^ (64 - k) * 2 ^ k := by
    rw [← Nat.pow_add, Nat.sub_add_cancel (Nat.le_of_lt lt)]
  rw [toNat_mulHigh, toNat_two_pow lt, size, binOf]
  exact Nat.mul_div_mul_right _ _ (Nat.two_pow_pos k)

/-- The low half of the product is a multiple of the number of bins, and so it is never
    so close to the top that there could be a carry. -/
theorem low_le (word : UInt64) :
    word * UInt64.ofNat (2 ^ k) ≤ 0 - UInt64.ofNat (2 ^ k) := by
  have whole : 2 ^ 64 = 2 ^ k * 2 ^ (64 - k) := by
    rw [← Nat.pow_add, Nat.add_sub_cancel' (Nat.le_of_lt lt)]
  have low : (word * UInt64.ofNat (2 ^ k)).toNat = 2 ^ k * (word.toNat % 2 ^ (64 - k)) := by
    rw [UInt64.toNat_mul, toNat_two_pow lt, whole, Nat.mul_comm word.toNat, Nat.mul_mod_mul_left]
  have top : (0 - UInt64.ofNat (2 ^ k)).toNat = 2 ^ 64 - 2 ^ k := by
    have pos := Nat.two_pow_pos k
    rw [UInt64.toNat_sub, toNat_two_pow lt, UInt64.toNat_zero, Nat.add_zero]
    exact Nat.mod_eq_of_lt (Nat.sub_lt (Nat.two_pow_pos 64) pos)
  have digit : word.toNat % 2 ^ (64 - k) + 1 ≤ 2 ^ (64 - k) :=
    Nat.mod_lt _ (Nat.two_pow_pos _)
  -- so above the multiple there is still room for another one
  have room : 2 ^ k * (word.toNat % 2 ^ (64 - k)) + 2 ^ k ≤ 2 ^ 64 := by
    rw [whole, ← Nat.mul_succ]
    exact Nat.mul_le_mul_left _ digit
  rw [UInt64.le_iff_toNat_le, low, top]
  exact Nat.le_sub_of_add_le room

theorem draw_two_pow (source : σ) :
    draw (UInt64.ofNat (2 ^ k)) source
      = (mulHigh (wordAt source 0) (UInt64.ofNat (2 ^ k)), skip 1 source) := by
  -- one word is enough, because the low half never calls for a second one
  have enough : ¬ 0 - UInt64.ofNat (2 ^ k) < wordAt source 0 * UInt64.ofNat (2 ^ k) :=
    UInt64.not_lt.mpr (low_le lt (wordAt source 0))
  exact if_neg enough

end

end PirTuning.BinLoad
