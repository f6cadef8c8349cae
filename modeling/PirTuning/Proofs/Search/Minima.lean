import Mathlib.Data.List.Chain
import Mathlib.Data.List.MinMax
import PirTuning.Search.Run

/-!
# First minima

A sequence of candidates sets a new record each time one of them is strictly
cheaper than all before it.  The records of a sequence decrease, and the last of
them is the first minimum of the sequence: a later candidate that is as cheap does
not replace it.
-/

namespace PirTuning.Search

open Rotation

/-! ## Feasible sets -/

/-- The candidate that an evaluation amounts to, if it is feasible. -/
def Best.ofEvaluation? (generators : List Nat) : Evaluation → Option Best
  | .feasible cost times => some { score := cost, generators := generators, times := times }
  | .pruned _ _ => none
  | .exhausted => none

/-- The candidate that a set amounts to on its own. -/
def candidate? (ring : SlotRing) (generators : List Nat) : Option Best :=
  Best.ofEvaluation? generators (evaluate ring generators noCeiling)

/-- The feasible ones among some sets, in order. -/
def feasibleSets (ring : SlotRing) (sets : List (List Nat)) : List Best :=
  sets.filterMap (candidate? ring)

/-- Evaluate every candidate set of a shape on its own, and take the first one that
    is cheapest. -/
def bruteForce (arity : Arity) (ring : SlotRing) : Option Best :=
  ((census arity ring noCeiling).filterMap fun (generators, evaluation) =>
    Best.ofEvaluation? generators evaluation).argmin Best.score

theorem ofEvaluation?_eq_some_iff {generators : List Nat} {evaluation : Evaluation}
    {best : Best} :
    Best.ofEvaluation? generators evaluation = some best ↔
      best.generators = generators ∧ evaluation = .feasible best.score best.times := by
  obtain ⟨score, own, times⟩ := best
  cases evaluation with
  | feasible cost found =>
    simp only [Best.ofEvaluation?, Option.some.injEq, Best.mk.injEq, Evaluation.feasible.injEq]
    constructor
    · rintro ⟨rfl, rfl, rfl⟩
      exact ⟨rfl, rfl, rfl⟩
    · rintro ⟨rfl, rfl, rfl⟩
      exact ⟨rfl, rfl, rfl⟩
  | pruned depth bound => simp [Best.ofEvaluation?]
  | exhausted => simp [Best.ofEvaluation?]

theorem candidate?_eq_some_iff {ring : SlotRing} {generators : List Nat} {best : Best} :
    candidate? ring generators = some best ↔
      best.generators = generators ∧
        evaluate ring generators noCeiling = .feasible best.score best.times :=
  ofEvaluation?_eq_some_iff

theorem mem_feasibleSets {ring : SlotRing} {sets : List (List Nat)} {best : Best} :
    best ∈ feasibleSets ring sets ↔
      best.generators ∈ sets ∧
        evaluate ring best.generators noCeiling = .feasible best.score best.times := by
  simp only [feasibleSets, List.mem_filterMap, candidate?_eq_some_iff]
  constructor
  · rintro ⟨_, member, rfl, feasible⟩
    exact ⟨member, feasible⟩
  · rintro ⟨member, feasible⟩
    exact ⟨_, member, rfl, feasible⟩

theorem bruteForce_eq (arity : Arity) (ring : SlotRing) :
    bruteForce arity ring
      = (feasibleSets ring (arity.generatorSets ring.modulus)).argmin Best.score := by
  rw [bruteForce, census, List.filterMap_map]
  rfl

/-! ## Records -/

/-- The score that has to be beaten. -/
def bar : Option Best → Nat
  | none => noCeiling
  | some best => best.score

/-- Append a candidate if it beats the last record. -/
def addRecord (records : List Best) (best : Best) : List Best :=
  if best.score < bar records.getLast? then records ++ [best] else records

/-- The candidates that are strictly cheaper than all before them. -/
def minima (candidates : List Best) : List Best :=
  candidates.foldl addRecord []

theorem minima_append (candidates : List Best) (best : Best) :
    minima (candidates ++ [best]) = addRecord (minima candidates) best := by
  simp [minima]

theorem minima_sublist (candidates : List Best) : (minima candidates).Sublist candidates := by
  -- from the end, as all inductions over records are: they are appended
  induction candidates using List.reverseRecOn with
  | nil => exact .slnil
  | append_singleton candidates best ih =>
    rw [minima_append, addRecord]
    split
    · exact ih.append (.refl _)
    · exact ih.trans (List.sublist_append_left _ _)

/-- Records decrease strictly. -/
theorem pairwise_minima (candidates : List Best) :
    (minima candidates).Pairwise fun earlier later => later.score < earlier.score := by
  rw [← List.isChain_iff_pairwise]
  induction candidates using List.reverseRecOn with
  | nil => exact .nil
  | append_singleton candidates best ih =>
    rw [minima_append, addRecord]
    split
    next beaten =>
      apply ih.append (.singleton best)
      intro last member best' member'
      rw [Option.mem_def] at member
      obtain rfl : best = best' := by simpa using member'
      simpa [member, bar] using beaten
    next => exact ih

theorem minima_append_of_lt {records : List Best} (fixed : minima records = records) {best : Best}
    (lt : best.score < bar records.getLast?) : minima (records ++ [best]) = records ++ [best] := by
  rw [minima_append, fixed, addRecord, if_pos lt]

/-- There are at most as many records as there are scores to fall through. -/
theorem length_le_of_pairwise {records : List Best} {bound : Nat}
    (falling : records.Pairwise fun earlier later => later.score < earlier.score)
    (bounded : ∀ best ∈ records, best.score < bound) : records.length ≤ bound := by
  induction falling generalizing bound with
  | nil => exact Nat.zero_le bound
  | @cons best records below _ ih =>
    exact Nat.lt_of_le_of_lt (ih below) (bounded best List.mem_cons_self)

/-- The last record is the first minimum. -/
theorem getLast?_minima {candidates : List Best}
    (bounded : ∀ best ∈ candidates, best.score < noCeiling) :
    (minima candidates).getLast? = candidates.argmin Best.score := by
  induction candidates using List.reverseRecOn with
  | nil => rfl
  | append_singleton candidates best ih =>
    have last := ih fun other member => bounded other (List.mem_append_left _ member)
    rw [minima_append, addRecord, last, List.argmin_concat]
    cases found : candidates.argmin Best.score with
    | none => simp [bar, bounded best (by simp)]
    | some other =>
      by_cases cheaper : best.score < other.score
      · simp [bar, cheaper]
      · simp [bar, cheaper, last, found]

/-- Nothing that set no record is cheaper than the last one, and the bar only falls. -/
theorem bar_minima_le (candidates : List Best) :
    bar (minima candidates).getLast? ≤ noCeiling ∧
      ∀ best ∈ candidates, bar (minima candidates).getLast? ≤ best.score := by
  -- the bar falls with each candidate that becomes a record, and stays otherwise
  induction candidates using List.reverseRecOn with
  | nil => simp [minima, bar]
  | append_singleton candidates best ih =>
    obtain ⟨bounded, least⟩ := ih
    rw [minima_append, addRecord]
    split
    next lt =>
      have falls : best.score ≤ bar (minima candidates).getLast? := Nat.le_of_lt lt
      rw [List.getLast?_concat]
      refine ⟨falls.trans bounded, fun other member => ?_⟩
      rcases List.mem_append.mp member with earlier | is_last
      · exact falls.trans (least other earlier)
      · exact Nat.le_of_eq (by simp [bar, List.mem_singleton.mp is_last])
    next le =>
      refine ⟨bounded, fun other member => ?_⟩
      rcases List.mem_append.mp member with earlier | is_last
      · exact least other earlier
      · exact List.mem_singleton.mp is_last ▸ Nat.not_lt.mp le

theorem score_lt_of_mem_minima {candidates : List Best} {best : Best}
    (member : best ∈ minima candidates) : best.score < noCeiling := by
  induction candidates using List.reverseRecOn with
  | nil => cases member
  | append_singleton candidates last ih =>
    rw [minima_append, addRecord] at member
    split at member
    next lt =>
      rcases List.mem_append.mp member with earlier | is_last
      · exact ih earlier
      · rw [List.mem_singleton.mp is_last]
        exact Nat.lt_of_lt_of_le lt (bar_minima_le candidates).1
    next => exact ih member

/-! ## First minima -/

/-- Before the first minimum everything is more expensive, and after it nothing is
    cheaper. -/
theorem exists_split_of_argmin {candidates : List Best} {best : Best}
    (found : candidates.argmin Best.score = some best) :
    ∃ before after, candidates = before ++ best :: after ∧
      (∀ other ∈ before, best.score < other.score) ∧
      ∀ other ∈ after, best.score ≤ other.score := by
  -- from the end, since a candidate takes the place of an earlier one only if it is cheaper
  induction candidates using List.reverseRecOn generalizing best with
  | nil => simp at found
  | append_singleton candidates last ih =>
    rw [List.argmin_concat] at found
    cases earlier : candidates.argmin Best.score with
    | none =>
      obtain rfl : candidates = [] := List.argmin_eq_none.mp earlier
      obtain rfl : last = best := by simpa using found
      exact ⟨[], [], rfl, by simp, by simp⟩
    | some incumbent =>
      rw [earlier] at found
      by_cases cheaper : last.score < incumbent.score
      · obtain rfl : last = best := by simpa [cheaper] using found
        refine ⟨candidates, [], rfl, fun other member => ?_, by simp⟩
        exact Nat.lt_of_lt_of_le cheaper (List.le_of_mem_argmin member earlier)
      · obtain rfl : incumbent = best := by simpa [cheaper] using found
        obtain ⟨before, after, rfl, above, least⟩ := ih earlier
        refine ⟨before, after ++ [last], by simp, above, fun other member => ?_⟩
        rcases List.mem_append.mp member with inside | is_last
        · exact least other inside
        · obtain rfl : other = last := by simpa using is_last
          exact Nat.not_lt.mp cheaper

/-- A place among the feasible sets is a place among all sets. -/
theorem exists_split_of_feasibleSets {ring : SlotRing} {sets : List (List Nat)}
    {before after : List Best} {best : Best}
    (split : feasibleSets ring sets = before ++ best :: after) :
    ∃ front back, sets = front ++ best.generators :: back ∧
      feasibleSets ring front = before ∧ feasibleSets ring back = after := by
  obtain ⟨front, rest, rfl, front_eq, rest_eq⟩ := List.filterMap_eq_append_iff.mp split
  obtain ⟨dropped, own, back, rfl, infeasible, feasible, back_eq⟩ :=
    List.filterMap_eq_cons_iff.mp rest_eq
  obtain ⟨rfl, _⟩ := candidate?_eq_some_iff.mp feasible
  refine ⟨front ++ dropped, back, by simp, ?_, back_eq⟩
  rw [feasibleSets, List.filterMap_append, front_eq,
    List.filterMap_eq_nil_iff.mpr infeasible, List.append_nil]

/-- The score of the minimum does not depend on the order. -/
theorem score_argmin_of_perm {candidates candidates' : List Best}
    (perm : candidates.Perm candidates') :
    (candidates.argmin Best.score).map Best.score
      = (candidates'.argmin Best.score).map Best.score := by
  cases found : candidates.argmin Best.score with
  | none =>
    obtain rfl : candidates = [] := List.argmin_eq_none.mp found
    rw [perm.nil_eq.symm]
    rfl
  | some best =>
    cases found' : candidates'.argmin Best.score with
    | none =>
      obtain rfl : candidates' = [] := List.argmin_eq_none.mp found'
      rw [perm.eq_nil] at found
      simp at found
    | some best' =>
      have member := perm.mem_iff.mp (List.argmin_mem found)
      have member' := perm.mem_iff.mpr (List.argmin_mem found')
      exact congrArg some (Nat.le_antisymm (List.le_of_mem_argmin member' found)
        (List.le_of_mem_argmin member found'))

end PirTuning.Search
