import PirTuning.Search.Run

/-!
# Searches with several workers

Workers take candidates in any order and get in each other's way only where they
read the ceiling and where they offer what they found.  Two transition systems
say what can happen in between.

* `Pool` is a search: a candidate is first begun, when a worker reads the ceiling
  for it, and finished later, when the outcome is settled.  Between the two,
  other candidates may be begun and finished.
* `Desk` looks into a single offer: the unlocked look at the ceiling, and then,
  under the lock, the look at the record, the publication, the call back and the
  commit, each as a step of its own.
-/

namespace PirTuning.Search

open PirTuning.Rotation

/-! ## Candidates in flight -/

/-- A search by any number of workers: the candidates that nobody has begun, those
    that were begun with the ceiling read for them, and what has been settled. -/
structure Pool where
  waiting : List (List Nat)
  begun : List (List Nat × Nat)
  progress : Progress

namespace Pool

def start (arity : Arity) (ring : SlotRing) : Pool :=
  { waiting := arity.generatorSets ring.modulus, begun := [], progress := {} }

/-- A worker takes a candidate and reads the ceiling for it, or evaluates a candidate against
    the ceiling that was read, and settles it. -/
inductive Step (ring : SlotRing) : Pool → Pool → Prop where
  | begin (before after : List (List Nat)) (candidate : List Nat)
      (begun : List (List Nat × Nat)) (p : Progress) :
      Step ring ⟨before ++ candidate :: after, begun, p⟩
        ⟨before ++ after, (candidate, p.shared.ceiling) :: begun, p⟩
  | finish (waiting : List (List Nat)) (before after : List (List Nat × Nat))
      (candidate : List Nat) (ceiling : Nat) (p : Progress) :
      Step ring ⟨waiting, before ++ (candidate, ceiling) :: after, p⟩
        ⟨waiting, before ++ after, p.settle candidate (evaluate ring candidate ceiling)⟩

/-- Any number of steps, in any interleaving of workers. -/
inductive Steps (ring : SlotRing) : Pool → Pool → Prop where
  | refl (pool : Pool) : Steps ring pool pool
  | step {first second last : Pool} (head : Step ring first second)
      (rest : Steps ring second last) : Steps ring first last

def Done (pool : Pool) : Prop :=
  pool.waiting = [] ∧ pool.begun = []

theorem Steps.trans {ring : SlotRing} {first second last : Pool}
    (front : Steps ring first second) (back : Steps ring second last) :
    Steps ring first last := by
  induction front with
  | refl => exact back
  | step head _ ih => exact .step head (ih back)

/-- A worker that is alone begins a candidate and finishes it at once. -/
theorem consider_steps (ring : SlotRing) (candidate : List Nat) (waiting : List (List Nat))
    (p : Progress) :
    Steps ring ⟨candidate :: waiting, [], p⟩ ⟨waiting, [], p.consider ring candidate⟩ :=
  .step (.begin [] waiting candidate [] p)
    (.step (.finish waiting [] [] candidate p.shared.ceiling p) (.refl _))

end Pool

/-- Several workers find, and count, what some schedule of theirs finds and counts. -/
def SearchWorkers.Scheduled (workers : SearchWorkers) : Prop :=
  ∀ count arity ring, ∃ pool, Pool.Steps ring (Pool.start arity ring) pool ∧ pool.Done ∧
    (workers.shared count arity ring).best = pool.progress.finish.best ∧
    (workers.shared count arity ring).stats = pool.progress.finish.stats

/-! ## Inside an offer -/

/-- How far an offer has come: it has got past the ceiling that it saw, it holds the lock, its
    score is published, the call back has returned, and its candidate is in the record. -/
inductive Phase where
  | fresh
  | passed
  | holding
  | published
  | told
  | recorded
  | returned (installed : Bool)
  deriving Repr, DecidableEq

structure Offer where
  candidate : Best
  phase : Phase := .fresh
  deriving Repr, DecidableEq

/-- Offers by any number of workers to one record. -/
structure Desk where
  shared : Shared := {}
  locked : Bool := false
  offers : List Offer
  calls : List (Best × Nat) := []
  deriving Repr, DecidableEq

namespace Desk

/-- One step of one offer: the shared state, the lock, the calls back with the ceilings that
    they saw, and how far the offer has come.  Between `lock` and either `reject` or
    `unlock` nobody else gets the lock. -/
inductive Move (best : Best) :
    Shared × Bool × List (Best × Nat) × Phase → Shared × Bool × List (Best × Nat) × Phase → Prop
    where
  | giveUp (s : Shared) (locked : Bool) (calls : List (Best × Nat)) (h : s.ceiling ≤ best.score) :
      Move best (s, locked, calls, .fresh) (s, locked, calls, .returned false)
  | pass (s : Shared) (locked : Bool) (calls : List (Best × Nat)) (h : best.score < s.ceiling) :
      Move best (s, locked, calls, .fresh) (s, locked, calls, .passed)
  | lock (s : Shared) (calls : List (Best × Nat)) :
      Move best (s, false, calls, .passed) (s, true, calls, .holding)
  | reject (s : Shared) (calls : List (Best × Nat)) (h : s.recordScore ≤ best.score) :
      Move best (s, true, calls, .holding) (s, false, calls, .returned false)
  | publish (s : Shared) (calls : List (Best × Nat)) (h : best.score < s.recordScore) :
      Move best (s, true, calls, .holding) (s.publish best.score, true, calls, .published)
  | tell (s : Shared) (calls : List (Best × Nat)) :
      Move best (s, true, calls, .published) (s, true, calls ++ [(best, s.ceiling)], .told)
  | commit (s : Shared) (calls : List (Best × Nat)) :
      Move best (s, true, calls, .told) (s.commit best, true, calls, .recorded)
  | unlock (s : Shared) (calls : List (Best × Nat)) :
      Move best (s, true, calls, .recorded) (s, false, calls, .returned true)

inductive Step : Desk → Desk → Prop where
  | move (before after : List Offer) (best : Best) {s s' : Shared} {locked locked' : Bool}
      {calls calls' : List (Best × Nat)} {phase phase' : Phase}
      (h : Move best (s, locked, calls, phase) (s', locked', calls', phase')) :
      Step ⟨s, locked, before ++ ⟨best, phase⟩ :: after, calls⟩
        ⟨s', locked', before ++ ⟨best, phase'⟩ :: after, calls'⟩

inductive Steps : Desk → Desk → Prop where
  | refl (desk : Desk) : Steps desk desk
  | step {first second last : Desk} (head : Step first second) (rest : Steps second last) :
      Steps first last

def start (candidates : List Best) : Desk :=
  { offers := candidates.map fun candidate => { candidate := candidate } }

def Done (desk : Desk) : Prop :=
  ∀ offer ∈ desk.offers, ∃ installed, offer.phase = .returned installed

theorem Steps.trans {first second last : Desk} (front : Steps first second)
    (back : Steps second last) : Steps first last := by
  induction front with
  | refl => exact back
  | step head _ ih => exact .step head (ih back)

variable (s : Shared) (best : Best) (before after : List Offer) (calls : List (Best × Nat))

/-- The whole locked section of an offer that beats the record. -/
theorem install_steps (lt : best.score < s.recordScore) :
    Steps ⟨s, false, before ++ ⟨best, .passed⟩ :: after, calls⟩
      ⟨(s.publish best.score).commit best, false, before ++ ⟨best, .returned true⟩ :: after,
        calls ++ [(best, best.score)]⟩ :=
  .step (.move before after best (.lock s calls))
    (.step (.move before after best (.publish s calls lt))
      (.step (.move before after best (.tell _ calls))
        (.step (.move before after best (.commit _ _))
          (.step (.move before after best (.unlock _ _)) (.refl _)))))

theorem reject_steps (late : s.recordScore ≤ best.score) :
    Steps ⟨s, false, before ++ ⟨best, .passed⟩ :: after, calls⟩
      ⟨s, false, before ++ ⟨best, .returned false⟩ :: after, calls⟩ :=
  .step (.move before after best (.lock s calls))
    (.step (.move before after best (.reject s calls late)) (.refl _))

/-- An offer that nobody gets in the way of does what `Shared.offerWith` does. -/
theorem offerWith_steps :
    Steps ⟨s, false, before ++ ⟨best, .fresh⟩ :: after, calls⟩
      ⟨(s.offerWith best Prod.mk).2, false,
        before ++ ⟨best, .returned (s.offerWith best Prod.mk).1.isSome⟩ :: after,
        calls ++ (s.offerWith best Prod.mk).1.toList⟩ := by
  unfold Shared.offerWith
  by_cases high : s.ceiling ≤ best.score
  · simp only [if_pos high, Option.toList_none, List.append_nil]
    exact .step (.move before after best (.giveUp s false calls high)) (.refl _)
  · have passed := Step.move before after best (.pass s false calls (Nat.not_le.mp high))
    by_cases late : s.recordScore ≤ best.score
    · simp only [if_neg high, if_pos late, Option.toList_none, List.append_nil]
      exact .step passed (reject_steps s best before after calls late)
    · simp only [if_neg high, if_neg late]
      exact .step passed (install_steps s best before after calls (Nat.not_le.mp late))

end Desk

end PirTuning.Search
