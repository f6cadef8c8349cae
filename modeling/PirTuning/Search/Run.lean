import PirTuning.Rotation.Evaluation
import PirTuning.Search.Candidate
import PirTuning.Search.Record
import PirTuning.Workers

/-!
# Exhaustive search

A search evaluates every candidate set of a shape against the best score so far
and keeps the best one.  Candidates come row by row: a row fixes all generators
but the last one.  What happens on the way is reported as a list of events.
-/

namespace PirTuning.Search

open PirTuning.Rotation

/-! ## What is asked for -/

structure Config where
  logN : Nat := defaultLogN
  threads : Option Nat := none
  deriving Repr, DecidableEq

/-! ## What is reported -/

/-- The outermost generator has passed a marker, or a strictly better candidate was found. -/
inductive Event where
  | progress (outer : Nat)
  | improved (score : Nat) (generators : List Nat)
  deriving Repr, DecidableEq

structure Tally where
  evaluated : Nat := 0
  feasible : Nat := 0
  pruned : Nat := 0
  exhausted : Nat := 0
  improvements : Nat := 0
  deriving Repr, DecidableEq

structure Stats where
  evaluated : UInt64
  feasible : UInt64
  pruned : UInt64
  exhausted : UInt64
  improvements : UInt64
  deriving Repr, DecidableEq

namespace Tally

def count (tally : Tally) : Evaluation → Tally
  | .feasible _ _ =>
    { tally with evaluated := tally.evaluated + 1, feasible := tally.feasible + 1 }
  | .pruned _ _ =>
    { tally with evaluated := tally.evaluated + 1, pruned := tally.pruned + 1 }
  | .exhausted =>
    { tally with evaluated := tally.evaluated + 1, exhausted := tally.exhausted + 1 }

def improve (tally : Tally) : Tally :=
  { tally with improvements := tally.improvements + 1 }

def stats (tally : Tally) : Stats :=
  { evaluated := .ofNat tally.evaluated
    feasible := .ofNat tally.feasible
    pruned := .ofNat tally.pruned
    exhausted := .ofNat tally.exhausted
    improvements := .ofNat tally.improvements }

end Tally

structure Outcome where
  best : Option Best
  stats : Stats
  events : List Event
  deriving Repr, DecidableEq

/-! ## One worker -/

structure Progress where
  shared : Shared := {}
  tally : Tally := {}
  events : List Event := []
  deriving Repr, DecidableEq

namespace Progress

def tell (p : Progress) (event : Event) : Progress :=
  { p with events := p.events ++ [event] }

def settle (p : Progress) (generators : List Nat) (evaluation : Evaluation) : Progress :=
  let counted := { p with tally := p.tally.count evaluation }
  match evaluation with
  | .feasible cost times =>
    let candidate : Best := { score := cost, generators := generators, times := times }
    match p.shared.offerWith candidate fun best _ => Event.improved best.score best.generators with
    | (none, shared) => { counted with shared := shared }
    | (some event, shared) =>
      { shared := shared, tally := counted.tally.improve, events := p.events ++ [event] }
  | .pruned _ _ => counted
  | .exhausted => counted

def consider (ring : SlotRing) (p : Progress) (generators : List Nat) : Progress :=
  p.settle generators (evaluate ring generators p.shared.ceiling)

def rowFrom (ring : SlotRing) (candidate : Nat → List Nat) (inner : Nat) :
    (count : Nat) → Progress → Progress
  | 0, p => p
  | count + 1, p => rowFrom ring candidate (inner + 2) count (p.consider ring (candidate inner))

def row (ring : SlotRing) (p : Progress) (last : Nat) (candidate : Nat → List Nat) : Progress :=
  if last + 2 < ring.modulus then
    rowFrom ring candidate (last + 2) ((ring.modulus - (last + 2) + 1) / 2) p
  else p

def announce (p : Progress) (interval outer : Nat) : Progress :=
  if outer % interval = 1 then p.tell (.progress outer) else p

def finish (p : Progress) : Outcome :=
  { best := p.shared.record, stats := p.tally.stats, events := p.events }

end Progress

/-! ## Searches -/

def searchPairs (ring : SlotRing) : Progress :=
  (pairRows ring.modulus).foldl
    (fun p g =>
      (p.announce Arity.pair.progressInterval g).row ring g fun h => [g, h])
    {}

/-- The first generator is announced only where it differs from that of the row before. -/
def tripleRow (ring : SlotRing) : Nat × Progress → Nat × Nat → Nat × Progress :=
  fun (previous, p) (f, g) =>
    let announced := if f = previous then p else p.announce Arity.triple.progressInterval f
    (f, announced.row ring g fun h => [f, g, h])

def searchTriples (ring : SlotRing) : Progress :=
  ((tripleRows ring.modulus).foldl (tripleRow ring) (0, {})).2

def searchRing (arity : Arity) (ring : SlotRing) : Outcome :=
  match arity with
  | .pair => (searchPairs ring).finish
  | .triple => (searchTriples ring).finish

abbrev SearchWorkers : Type := Workers (Arity → SlotRing → Outcome)

def search (workers : SearchWorkers) (arity : Arity) (config : Config) :
    Except RingError Outcome :=
  (SlotRing.ofLogN config.logN).map (workers.run config.threads searchRing arity)

theorem search_of_one {workers : SearchWorkers} {config : Config} {ring : SlotRing}
    (one_worker : workers.count config.threads = 1) (size : config.logN = ring.logN)
    (arity : Arity) : search workers arity config = .ok (searchRing arity ring) := by
  rw [search, size, SlotRing.ofLogN_eq_ok_iff.mpr rfl, Workers.run_of_one one_worker]
  rfl

theorem search_of_more {workers : SearchWorkers} {config : Config} {ring : SlotRing}
    (more : workers.count config.threads ≠ 1) (size : config.logN = ring.logN) (arity : Arity) :
    search workers arity config
      = .ok (workers.shared (workers.count config.threads) arity ring) := by
  rw [search, size, SlotRing.ofLogN_eq_ok_iff.mpr rfl, Workers.run, if_neg more]
  rfl

/-- Every candidate set, each evaluated on its own against the same ceiling. -/
def census (arity : Arity) (ring : SlotRing) (ceiling : Nat) : List (List Nat × Evaluation) :=
  (arity.generatorSets ring.modulus).map fun generators =>
    (generators, evaluate ring generators ceiling)

end PirTuning.Search
