import PirTuning.Rotation.Evaluation

/-!
# The best candidate so far

Workers of a search share one record of the best candidate.  Its score is also
published as a ceiling, which is all that a worker needs while it evaluates.

An offer is looked at twice: against the ceiling, which is cheap and may be out
of date, and then against the record itself.  A candidate that passes both is
published first and recorded afterwards, so whoever is told about it already
sees its score as the ceiling.
-/

namespace PirTuning.Search

open PirTuning.Rotation (noCeiling)

structure Best where
  score : Nat
  generators : List Nat
  times : List Nat
  deriving Repr, DecidableEq

structure Shared where
  ceiling : Nat := noCeiling
  record : Option Best := none
  deriving Repr, DecidableEq

namespace Shared

/-- The score that a candidate has to beat under the lock. -/
def recordScore (s : Shared) : Nat :=
  match s.record with
  | none => noCeiling
  | some best => best.score

def publish (s : Shared) (score : Nat) : Shared :=
  { s with ceiling := score }

def commit (s : Shared) (best : Best) : Shared :=
  { s with record := some best }

/-- Offer a candidate.  If it is strictly better than the record, it is published,
    `onInstall` is told about it and about the ceiling at that moment, and then it
    is recorded. -/
def offerWith {α : Type} (s : Shared) (candidate : Best) (onInstall : Best → Nat → α) :
    Option α × Shared :=
  if s.ceiling ≤ candidate.score then
    (none, s)
  else if s.recordScore ≤ candidate.score then
    (none, s)  -- the ceiling was out of date
  else
    let published := s.publish candidate.score
    (some (onInstall candidate published.ceiling), published.commit candidate)

def offer (s : Shared) (candidate : Best) : Bool × Shared :=
  let (told, s') := s.offerWith candidate fun _ _ => ()
  (told.isSome, s')

end Shared

end PirTuning.Search
