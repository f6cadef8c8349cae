import PirTuning.Rotation.Witness
import PirTuning.Search.Run

/-!
# Report lines

The text of a search: one line per improvement and per marker, a line of counts,
and one line per target that shows how it is reached.  Generators have names in
print.  There are names for pairs and for triples; whatever is beyond them is left out.
-/

namespace PirTuning.Program

open PirTuning.Rotation
open PirTuning.Search

def labels (count : Nat) : List String :=
  if count = 2 then ["g", "h"] else ["f", "g", "h"]

def bestLine (score : Nat) (generators : List Nat) : String :=
  s!"Best score: {score}" ++
    String.join (List.zipWith (fun label g => s!" Best {label}: {g}")
      (labels generators.length) generators)

def statsLine (stats : Stats) : String :=
  s!"candidates: evaluated={stats.evaluated}, feasible={stats.feasible}, " ++
    s!"pruned={stats.pruned}, exhausted={stats.exhausted}, improvements={stats.improvements}"

def productText (split : List Nat) : String :=
  " * ".intercalate (List.zipWith (fun label e => s!"{label}^{e}") (labels split.length) split)

def witnessLine (ring : SlotRing) (generators : List Nat) (i target t : Nat) : String :=
  let product :=
    match earliestWitness? ring generators i (t + 1) with
    | some witness => productText witness.split
    | none => "unverified"
  s!"  1 + N/2^{i} = {target} (weight {ring.weight i}): t={t} via {product}"

/-- The lines for the targets from index `i` on; there are none if a depth has no
    target. -/
def witnessLinesFrom? (ring : SlotRing) (generators : List Nat) (i : Nat) :
    (times : List Nat) → Option (List String)
  | [] => some []
  | t :: times =>
    match ring.targets[i]? with
    | none => none
    | some target =>
      (witnessLinesFrom? ring generators (i + 1) times).map
        (witnessLine ring generators i target t :: ·)

def witnessLines? (ring : SlotRing) (generators times : List Nat) : Option (List String) :=
  witnessLinesFrom? ring generators 0 times

def outerLabel : Arity → String
  | .pair => "g"
  | .triple => "f"

def eventLine (arity : Arity) : Event → String
  | .progress outer => s!"{outerLabel arity}: {outer}"
  | .improved score generators => bestLine score generators

end PirTuning.Program
