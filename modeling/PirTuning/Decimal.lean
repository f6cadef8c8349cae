/-!
# Decimal numbers

Numbers are read from ASCII digits.  Leading zeros are fine, blanks and
separators are not.  A number may carry a sign; where negative numbers have no
place, only a plus is one.
-/

namespace PirTuning.Decimal

def digit? (c : Char) : Option Nat :=
  if 48 ≤ c.toNat ∧ c.toNat ≤ 57 then some (c.toNat - 48) else none

/-- Read digits behind a number that was read before. -/
def digitsOn (acc : Nat) : List Char → Option Nat
  | [] => some acc
  | c :: cs =>
    match digit? c with
    | none => none
    | some d => digitsOn (acc * 10 + d) cs

def digits? : List Char → Option Nat
  | [] => none
  | c :: cs => digitsOn 0 (c :: cs)

def unsigned? : List Char → Option Nat
  | '+' :: cs => digits? cs
  | cs => digits? cs

def signed? : List Char → Option Int
  | '-' :: cs => (digits? cs).map fun n => -(n : Int)
  | cs => (unsigned? cs).map fun n => (n : Int)

def maxWord64 : Nat := UInt64.size - 1

def maxWord32 : Nat := UInt32.size - 1

def word64? (cs : List Char) : Option Nat :=
  match unsigned? cs with
  | none => none
  | some n => if n ≤ maxWord64 then some n else none

/-- Read a number of at most 32 bits; a minus is fine in front of zero. -/
def word32? (cs : List Char) : Option Nat :=
  match signed? cs with
  | none => none
  | some z => if 0 ≤ z ∧ z ≤ maxWord32 then some z.toNat else none

end PirTuning.Decimal
