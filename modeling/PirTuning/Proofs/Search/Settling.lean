import PirTuning.Proofs.Rotation.Pruning
import PirTuning.Proofs.Search.Enumeration
import PirTuning.Proofs.Search.Minima

/-!
# Settling candidates

Whatever the workers do, a search settles one candidate after the other, and the
ceiling that a candidate was evaluated against is at least the current one: it may
be out of date, but ceilings only fall.  `Settled` is that history, announcements
in between included.  It fixes the shared record, the calls back and most of the
counts: they are those of the records that the settled candidates set among
themselves, each taken on its own.
-/

namespace PirTuning.Search

open Rotation

/-! ## Offers -/

namespace Shared

/-- The shared state between two offers. -/
def holding (record : Option Best) : Shared :=
  { ceiling := bar record, record := record }

@[simp] theorem ceiling_holding (record : Option Best) : (holding record).ceiling = bar record := rfl
@[simp] theorem record_holding (record : Option Best) : (holding record).record = record := rfl

theorem recordScore_holding (record : Option Best) : (holding record).recordScore = bar record := by
  cases record <;> rfl

theorem offerWith_of_lt {α : Type} {record : Option Best} (best : Best)
    (lt : best.score < bar record) (onInstall : Best → Nat → α) :
    (holding record).offerWith best onInstall
      = (some (onInstall best best.score), holding (some best)) := by
  rw [offerWith, recordScore_holding, ceiling_holding, if_neg (Nat.not_le.mpr lt),
    if_neg (Nat.not_le.mpr lt)]
  rfl

theorem offerWith_of_le {α : Type} {record : Option Best} (best : Best)
    (le : bar record ≤ best.score) (onInstall : Best → Nat → α) :
    (holding record).offerWith best onInstall = (none, holding record) := by
  rw [offerWith, ceiling_holding, if_pos le]

/-- No offer raises the ceiling. -/
theorem ceiling_offerWith_le {α : Type} (s : Shared) (best : Best) (onInstall : Best → Nat → α) :
    (s.offerWith best onInstall).2.ceiling ≤ s.ceiling := by
  unfold offerWith
  by_cases high : s.ceiling ≤ best.score
  · simp [high]
  · by_cases late : s.recordScore ≤ best.score
    · simp [high, late]
    · rw [if_neg high, if_neg late]
      exact Nat.le_of_not_le high

end Shared

/-! ## Counts -/

namespace Tally

variable (tally : Tally) (evaluation : Evaluation)

theorem evaluated_count : (tally.count evaluation).evaluated = tally.evaluated + 1 := by
  cases evaluation <;> rfl

theorem improvements_count : (tally.count evaluation).improvements = tally.improvements := by
  cases evaluation <;> rfl

theorem feasible_le_count : tally.feasible ≤ (tally.count evaluation).feasible := by
  cases evaluation <;> simp [count]

theorem feasible_count_of_not_feasible {evaluation : Evaluation}
    (cut : ∀ cost times, evaluation ≠ .feasible cost times) :
    (tally.count evaluation).feasible = tally.feasible := by
  cases evaluation with
  | feasible cost times => exact absurd rfl (cut cost times)
  | pruned depth bound => rfl
  | exhausted => rfl

/-- Each evaluation is counted under one outcome. -/
theorem partition_count (whole : tally.evaluated = tally.feasible + tally.pruned + tally.exhausted) :
    (tally.count evaluation).evaluated = (tally.count evaluation).feasible
      + (tally.count evaluation).pruned + (tally.count evaluation).exhausted := by
  cases evaluation <;> simp only [count] <;> omega

end Tally

/-! ## Calls back -/

/-- The score and the generators that an event tells about. -/
def Event.call? : Event → Option (Nat × List Nat)
  | .progress _ => none
  | .improved score generators => some (score, generators)

/-- The call back for a record. -/
def Best.call (best : Best) : Nat × List Nat :=
  (best.score, best.generators)

/-- The calls back of a search so far, in order. -/
def Progress.calls (p : Progress) : List (Nat × List Nat) :=
  p.events.filterMap Event.call?

/-! ## Settling one candidate -/

namespace Progress

theorem settle_of_not_feasible (p : Progress) (generators : List Nat) {evaluation : Evaluation}
    (cut : ∀ cost times, evaluation ≠ .feasible cost times) :
    p.settle generators evaluation = { p with tally := p.tally.count evaluation } := by
  cases evaluation with
  | feasible cost times => exact absurd rfl (cut cost times)
  | pruned depth bound => rfl
  | exhausted => rfl

theorem settle_of_lt {p : Progress} {record : Option Best} (holds : p.shared = .holding record)
    (best : Best) (lt : best.score < bar record) :
    p.settle best.generators (.feasible best.score best.times)
      = { shared := .holding (some best)
          tally := (p.tally.count (.feasible best.score best.times)).improve
          events := p.events ++ [.improved best.score best.generators] } := by
  rw [settle, holds]
  simp only [Shared.offerWith_of_lt best lt]

theorem settle_of_le {p : Progress} {record : Option Best} (holds : p.shared = .holding record)
    (best : Best) (le : bar record ≤ best.score) :
    p.settle best.generators (.feasible best.score best.times)
      = { p with tally := p.tally.count (.feasible best.score best.times) } := by
  rw [settle, holds]
  simp only [Shared.offerWith_of_le best le]

theorem ceiling_settle_le (p : Progress) (generators : List Nat) (evaluation : Evaluation) :
    (p.settle generators evaluation).shared.ceiling ≤ p.shared.ceiling := by
  cases evaluation with
  | feasible cost times =>
    have falls := p.shared.ceiling_offerWith_le ⟨cost, generators, times⟩
      fun best _ => Event.improved best.score best.generators
    unfold settle
    cases told : p.shared.offerWith ⟨cost, generators, times⟩
        (fun best _ => Event.improved best.score best.generators) with
    | mk event shared =>
      rw [told] at falls
      cases event with
      | none => simpa only [told] using falls
      | some event => simpa only [told] using falls
  | pruned depth bound => exact Nat.le_refl _
  | exhausted => exact Nat.le_refl _

end Progress

/-! ## Histories -/

/-- The candidates in the order in which they were settled, each evaluated against a
    ceiling at least as high as the one it met. -/
inductive Settled (ring : SlotRing) : List (List Nat) → Progress → Prop where
  | start : Settled ring [] {}
  | settle {sets : List (List Nat)} {p : Progress} (history : Settled ring sets p)
      {generators : List Nat} (some_generator : 0 < generators.length) {ceiling : Nat}
      (le : p.shared.ceiling ≤ ceiling) :
      Settled ring (sets ++ [generators]) (p.settle generators (evaluate ring generators ceiling))
  | announce {sets : List (List Nat)} {p : Progress} (history : Settled ring sets p)
      (outer : Nat) : Settled ring sets (p.tell (.progress outer))

/-- What a search has come to once it has settled some candidates. -/
structure Accounts (ring : SlotRing) (sets : List (List Nat)) (p : Progress) : Prop where
  shared : p.shared = Shared.holding (minima (feasibleSets ring sets)).getLast?
  calls : p.calls = (minima (feasibleSets ring sets)).map Best.call
  improvements : p.tally.improvements = (minima (feasibleSets ring sets)).length
  evaluated : p.tally.evaluated = sets.length
  partition : p.tally.evaluated = p.tally.feasible + p.tally.pruned + p.tally.exhausted
  improvements_le : p.tally.improvements ≤ p.tally.feasible

variable {ring : SlotRing} {sets : List (List Nat)} {p : Progress} {generators : List Nat}

theorem feasibleSets_append (ring : SlotRing) (sets : List (List Nat)) (generators : List Nat) :
    feasibleSets ring (sets ++ [generators])
      = feasibleSets ring sets ++ (candidate? ring generators).toList := by
  rw [feasibleSets, feasibleSets, List.filterMap_append]
  cases found : candidate? ring generators <;> simp [found]

/-- A candidate that does not come out feasible against a ceiling above the bar would
    not have set a record either. -/
theorem minima_of_not_feasible (some_generator : 0 < generators.length) {ceiling : Nat}
    (le : bar (minima (feasibleSets ring sets)).getLast? ≤ ceiling)
    (cut : ∀ cost times, evaluate ring generators ceiling ≠ .feasible cost times) :
    minima (feasibleSets ring (sets ++ [generators])) = minima (feasibleSets ring sets) := by
  rw [feasibleSets_append]
  cases found : candidate? ring generators with
  | none => simp
  | some best =>
    obtain ⟨_, feasible⟩ := candidate?_eq_some_iff.mp found
    rw [evaluate_noCeiling some_generator] at feasible
    have dear : ceiling ≤ best.score := by
      by_contra cheap
      exact cut _ _ ((evaluate_eq_feasible_iff some_generator).mpr
        ⟨feasible, Nat.not_le.mp cheap⟩)
    rw [Option.toList_some, minima_append, addRecord, if_neg]
    exact Nat.not_lt.mpr (Nat.le_trans le dear)

namespace Accounts

/-- Only the counts change with a candidate that sets no record. -/
theorem count (accounts : Accounts ring sets p) (generators : List Nat) (evaluation : Evaluation)
    (same : minima (feasibleSets ring (sets ++ [generators])) = minima (feasibleSets ring sets)) :
    Accounts ring (sets ++ [generators]) { p with tally := p.tally.count evaluation } where
  shared := by rw [same]; exact accounts.shared
  calls := by rw [same]; exact accounts.calls
  improvements := by rw [same, Tally.improvements_count]; exact accounts.improvements
  evaluated := by simp [Tally.evaluated_count, accounts.evaluated]
  partition := p.tally.partition_count evaluation accounts.partition
  improvements_le := by
    rw [Tally.improvements_count]
    exact Nat.le_trans accounts.improvements_le (p.tally.feasible_le_count evaluation)

/-- A new record takes the place of the old one and is told about. -/
theorem record (accounts : Accounts ring sets p) (best : Best)
    (appended : minima (feasibleSets ring (sets ++ [best.generators]))
      = minima (feasibleSets ring sets) ++ [best]) :
    Accounts ring (sets ++ [best.generators])
      { shared := .holding (some best)
        tally := (p.tally.count (.feasible best.score best.times)).improve
        events := p.events ++ [.improved best.score best.generators] } where
  shared := by simp [appended]
  calls := by
    rw [appended, List.map_append, ← accounts.calls]
    exact List.filterMap_append
  improvements := by simp [appended, Tally.improve, Tally.improvements_count, accounts.improvements]
  evaluated := by simp [Tally.improve, Tally.evaluated_count, accounts.evaluated]
  partition := p.tally.partition_count _ accounts.partition
  improvements_le := Nat.succ_le_succ accounts.improvements_le

theorem settle (accounts : Accounts ring sets p) (some_generator : 0 < generators.length)
    {ceiling : Nat} (le : p.shared.ceiling ≤ ceiling) :
    Accounts ring (sets ++ [generators])
      (p.settle generators (evaluate ring generators ceiling)) := by
  by_cases feasible : ∃ cost times, evaluate ring generators ceiling = .feasible cost times
  · obtain ⟨cost, times, result⟩ := feasible
    let best : Best := { score := cost, generators := generators, times := times }
    have own : candidate? ring generators = some best := by
      rw [candidate?_eq_some_iff, evaluate_noCeiling some_generator]
      exact ⟨rfl, ((evaluate_eq_feasible_iff some_generator).mp result).1⟩
    have appended : minima (feasibleSets ring (sets ++ [generators]))
        = addRecord (minima (feasibleSets ring sets)) best := by
      rw [feasibleSets_append, own, Option.toList_some, minima_append]
    rw [result]
    -- feasible against a stale ceiling is not enough, the offer compares once more
    by_cases lt : best.score < bar (minima (feasibleSets ring sets)).getLast?
    · rw [addRecord, if_pos lt] at appended
      rw [Progress.settle_of_lt accounts.shared best lt]
      exact accounts.record best appended
    · rw [addRecord, if_neg lt] at appended
      rw [Progress.settle_of_le accounts.shared best (Nat.not_lt.mp lt)]
      exact accounts.count generators _ appended
  · have cut : ∀ cost times, evaluate ring generators ceiling ≠ .feasible cost times :=
      fun cost times result => feasible ⟨cost, times, result⟩
    rw [p.settle_of_not_feasible generators cut]
    refine accounts.count generators _ (minima_of_not_feasible some_generator ?_ cut)
    rwa [accounts.shared] at le

theorem announce (accounts : Accounts ring sets p) (outer : Nat) :
    Accounts ring sets (p.tell (.progress outer)) := by
  have calls_eq : (p.tell (.progress outer)).calls = p.calls := by
    simp [Progress.calls, Progress.tell, Event.call?]
  exact { accounts with calls := calls_eq.trans accounts.calls }

end Accounts

/-- The history of a search determines what it has come to. -/
theorem Settled.accounts (history : Settled ring sets p) : Accounts ring sets p := by
  induction history with
  | start => exact ⟨rfl, rfl, rfl, rfl, rfl, Nat.le_refl _⟩
  | settle _ some_generator le ih => exact ih.settle some_generator le
  | announce _ outer ih => exact ih.announce outer

theorem Settled.ceiling_eq (history : Settled ring sets p) :
    p.shared.ceiling = bar p.shared.record := by
  rw [history.accounts.shared, Shared.ceiling_holding, Shared.record_holding]

end PirTuning.Search
