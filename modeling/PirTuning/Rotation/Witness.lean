import PirTuning.Rotation.Power
import PirTuning.Rotation.Ring
import PirTuning.Rotation.Split

/-!
# Witnesses for discovery depths

A witness for a target is a split whose product is the target.  The search below
finds the earliest one: the least depth, and the lexicographically least split of
that depth.  Every power is recomputed by square-and-multiply, so the search has
no arithmetic in common with the evaluation of a generator set.
-/

namespace PirTuning.Rotation

structure Witness where
  depth : Nat
  split : List Nat
  deriving Repr, DecidableEq

namespace Witness

def productOn (modulus acc : Nat) : List Nat → List Nat → Nat
  | generator :: generators, exponent :: split =>
    productOn modulus (acc * modPow generator exponent modulus % modulus) generators split
  | _, _ => acc

def product (modulus : Nat) (generators split : List Nat) : Nat :=
  productOn modulus (1 % modulus) generators split

/-- The earliest witness among `depths` depths from `t` on. -/
def earliestFrom? (modulus : Nat) (generators : List Nat) (target t : Nat) :
    (depths : Nat) → Option Witness
  | 0 => none
  | depths + 1 =>
    match (Split.walk generators.length t).find?
        (fun split => product modulus generators split == target) with
    | some split => some { depth := t, split := split }
    | none => earliestFrom? modulus generators target (t + 1) depths

end Witness

/-- An index without a target has no witness. -/
def earliestWitness? (ring : SlotRing) (generators : List Nat) (index limit : Nat) :
    Option Witness :=
  match ring.targets[index]? with
  | none => none
  | some target => Witness.earliestFrom? ring.modulus generators target 0 limit

end PirTuning.Rotation
