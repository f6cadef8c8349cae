import PirTuning.Word

/-!
# Powers modulo a number

Square-and-multiply as a small machine.  A `Squaring` holds the product so far,
the current square and the exponent still to be consumed; one step consumes the
lowest binary digit of the exponent.  `wordPow` does the same in 64-bit words.
-/

namespace PirTuning.Rotation

/-! ## The machine -/

structure Squaring where
  result : Nat
  base : Nat
  exponent : Nat
  deriving Repr, DecidableEq

namespace Squaring

def start (base exponent modulus : Nat) : Squaring :=
  { result := 1 % modulus, base := base % modulus, exponent := exponent }

/-- Multiply the base in if the lowest digit is a one, square the base, and drop
    the digit. -/
def step (modulus : Nat) (s : Squaring) : Squaring :=
  { result := if s.exponent % 2 = 1 then s.result * s.base % modulus else s.result
    base := s.base * s.base % modulus
    exponent := s.exponent / 2 }

def run (modulus : Nat) (s : Squaring) : Nat :=
  if s.exponent = 0 then s.result else (s.step modulus).run modulus
termination_by s.exponent
decreasing_by simp only [step]; omega

theorem run_of_zero {modulus : Nat} {s : Squaring} (h : s.exponent = 0) :
    s.run modulus = s.result := by
  rw [run, if_pos h]

theorem run_of_ne_zero {modulus : Nat} {s : Squaring} (h : s.exponent ≠ 0) :
    s.run modulus = (s.step modulus).run modulus := by
  rw [run, if_neg h]

end Squaring

/-! ## Modular powers -/

def modPow (base exponent modulus : Nat) : Nat :=
  (Squaring.start base exponent modulus).run modulus

/-- There is no reduction modulo `0`. -/
def modPow? (base exponent modulus : Nat) : Option Nat :=
  if modulus = 0 then none else some (modPow base exponent modulus)

/-! ## Words -/

def wordPowFrom (modulus result base exponent : UInt64) : Except Word.Fault UInt64 :=
  if exponent = 0 then
    .ok result
  else do
    let result ←
      if exponent &&& 1 = 1 then Word.mulMod modulus result base else .ok result
    let square ← Word.mulMod modulus base base
    wordPowFrom modulus result square (exponent >>> 1)
termination_by exponent.toNat
decreasing_by exact Word.shiftRight_one_lt (by assumption)

/-- A modulus of more than 32 bits is no obstacle in itself, but the products of its
    residues may be too large. -/
def wordPow (base exponent modulus : UInt64) : Except Word.Fault UInt64 := do
  let result ← Word.mod 1 modulus
  let base ← Word.mod base modulus
  wordPowFrom modulus result base exponent

end PirTuning.Rotation
