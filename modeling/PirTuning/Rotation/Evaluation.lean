import PirTuning.Rotation.Discovery
import PirTuning.Rotation.Ring
import PirTuning.Rotation.Split

/-!
# Cost of one generator set

A generator set is evaluated depth by depth.  Layer `t` multiplies out every
split of `t` and notes the targets that come up for the first time.  After each
layer the running cost is held against a ceiling, so a set that cannot beat the
best one known is given up early.

Depths stop below the modulus.  A set that has not reached every target by then
never will: a shortest product of generators passes no residue twice.
-/

namespace PirTuning.Rotation

def noCeiling : Nat := UInt64.size - 1

/-! ## Power tables -/

structure PowerTable where
  generator : Nat
  powers : Array Nat
  deriving Repr, DecidableEq

namespace PowerTable

def start (modulus generator : Nat) : PowerTable :=
  { generator := generator % modulus, powers := #[1] }

def grow (modulus : Nat) : PowerTable → PowerTable
  | ⟨generator, powers⟩ =>
    ⟨generator, powers.push (powers.back?.getD 1 * generator % modulus)⟩

@[inline] def power (table : PowerTable) (exponent : Nat) : Nat :=
  table.powers.getD exponent 0

end PowerTable

/-! ## Outcomes -/

/-- Every target was reached at a depth and below the ceiling, or the running cost after a
    depth was no longer below it, or no depth is left and a target is still open. -/
inductive Evaluation where
  | feasible (cost : Nat) (times : List Nat)
  | pruned (depth bound : Nat)
  | exhausted
  deriving Repr, DecidableEq

namespace Evaluation

def cost? : Evaluation → Option Nat
  | .feasible cost _ => some cost
  | .pruned _ _ => none
  | .exhausted => none

@[simp] theorem cost?_feasible (cost : Nat) (times : List Nat) :
    (feasible cost times).cost? = some cost := rfl
@[simp] theorem cost?_pruned (depth bound : Nat) : (pruned depth bound).cost? = none := rfl
@[simp] theorem cost?_exhausted : exhausted.cost? = none := rfl

/-! ## Layers -/

/-- The product of table powers that a split stands for, on top of `acc`. -/
def productOn (modulus acc : Nat) : List Nat → List PowerTable → Nat
  | exponent :: split, table :: tables =>
    productOn modulus (acc * table.power exponent % modulus) split tables
  | _, _ => acc

def visit (modulus : Nat) (targets : List Nat) (tables : List PowerTable) (t : Nat)
    (d : Discovery) (split : List Nat) : Discovery :=
  match targets.idxOf? (productOn modulus 1 split tables) with
  | none => d
  | some i => d.note i t

def layer (modulus : Nat) (targets : List Nat) (tables : List PowerTable) (t : Nat)
    (d : Discovery) : Discovery :=
  (Split.walk tables.length t).scan Discovery.isComplete (visit modulus targets tables t) d

/-- Run through the depths from `t` on.  The ceiling is looked at before
    completeness, so a feasible cost is always below it. -/
def layersFrom (modulus : Nat) (targets : List Nat) (ceiling t : Nat)
    (tables : List PowerTable) (d : Discovery) : Evaluation :=
  if t < modulus then
    let reached := layer modulus targets tables t d
    let bound := reached.runningCost t
    -- targets that are still open are charged for `t`, and cost no less later
    if ceiling ≤ bound then
      .pruned t bound
    else
      match reached.toVector? with
      | some times => .feasible bound times
      | none =>
        layersFrom modulus targets ceiling (t + 1) (tables.map (PowerTable.grow modulus)) reached
  else
    .exhausted
termination_by modulus - t

end Evaluation

def evaluate (ring : SlotRing) (generators : List Nat) (ceiling : Nat) : Evaluation :=
  Evaluation.layersFrom ring.modulus ring.targets ceiling 0
    (generators.map (PowerTable.start ring.modulus)) (Discovery.empty ring.logN)

end PirTuning.Rotation
