import PirTuning.Proofs.Search.Optimality
import PirTuning.Proofs.Search.Trace

/-!
# No candidate is exhausted

The first candidate of a search is made of 3 and 5, and so it is feasible and cheap.
From then on the ceiling is no higher than its cost, and a candidate that misses a
target reaches that ceiling before it runs out of depths.  A single worker prunes
every candidate that does not improve on the best one.
-/

namespace PirTuning.Search

open Rotation Walk

variable {ring : SlotRing} {arity : Arity} {modulus : Nat} {p : Progress}
  {generators : List Nat} {before after : List Stop}

/-! ## Counts -/

theorem Tally.exhausted_count_of_ne (tally : Tally) {evaluation : Evaluation}
    (ne : evaluation ≠ .exhausted) : (tally.count evaluation).exhausted = tally.exhausted := by
  cases evaluation with
  | feasible cost times => rfl
  | pruned depth bound => rfl
  | exhausted => exact absurd rfl ne

/-- What becomes of an offer has no influence on the outcome counts. -/
theorem exhausted_settle (p : Progress) (generators : List Nat) (evaluation : Evaluation) :
    (p.settle generators evaluation).tally.exhausted = (p.tally.count evaluation).exhausted := by
  cases evaluation with
  | feasible cost times =>
    unfold Progress.settle
    cases told : p.shared.offerWith ⟨cost, generators, times⟩
        (fun best _ => Event.improved best.score best.generators) with
    | mk event shared =>
      cases event with
      | none => simp only [told]
      | some event =>
        simp only [told]
        rfl
  | pruned depth bound => rfl
  | exhausted => rfl

/-! ## The first candidate -/

/-- 3 and 5, the 3 twice in a triple. -/
def Arity.firstSet : Arity → List Nat
  | .pair => [3, 5]
  | .triple => [3, 3, 5]

theorem generatorSets_eq_cons (arity : Arity) (lt : 5 < modulus) :
    ∃ rest, arity.generatorSets modulus = arity.firstSet :: rest := by
  have lt' : firstGenerator < modulus := by
    rw [firstGenerator]
    omega
  have inner : (innerValues firstGenerator modulus).toList
      = 5 :: (everyOther 7 modulus).toList := toList_everyOther_of_lt lt
  rw [generatorSets_eq, pairRows, toList_everyOther_of_lt lt', List.flatMap_cons]
  cases arity with
  | pair =>
    rw [Arity.setsFrom, inner]
    exact ⟨_, rfl⟩
  | triple =>
    rw [Arity.setsFrom, toList_everyOther_of_lt lt', List.flatMap_cons, inner]
    exact ⟨_, rfl⟩

theorem evaluate_firstSet (arity : Arity) (ring : SlotRing) (ceiling : Nat) :
    evaluate ring arity.firstSet ceiling = evaluate ring [3, 5] ceiling := by
  cases arity with
  | pair => rfl
  | triple =>
    exact evaluate_eq_of_usefulResidues (by decide) (by decide)
      (usefulResidues_cons_of_mem _ List.mem_cons_self) ceiling

theorem exists_cost_firstSet (arity : Arity) (two_le : 2 ≤ ring.logN) :
    ∃ cost times, evaluate ring arity.firstSet noCeiling = .feasible cost times ∧
      cost ≤ (ring.slots - 1) * (ring.slots / 2) := by
  obtain ⟨cost, times, feasible⟩ := feasible_three_five two_le
  refine ⟨cost, times, (evaluate_firstSet arity ring noCeiling).trans feasible, ?_⟩
  rw [evaluate_noCeiling (by decide), verdict_eq_feasible_iff] at feasible
  rw [feasible.1]
  exact lowerBound_three_five_le ring _

/-! ## Ceilings along the itinerary -/

theorem soloRun_concat (ring : SlotRing) (stops : List Stop) (stop : Stop) :
    soloRun ring (stops ++ [stop]) = (soloRun ring stops).visit ring stop := by
  simp [soloRun]

section

variable (split : itinerary arity ring.modulus = before ++ .consider generators :: after)

include split

theorem generatorSets_of_split :
    arity.generatorSets ring.modulus
      = before.filterMap Stop.candidate? ++ generators :: after.filterMap Stop.candidate? := by
  rw [← candidates_itinerary, split, List.filterMap_append]
  rfl

theorem length_pos_of_split :
    ∀ g ∈ before.filterMap Stop.candidate? ++ generators :: after.filterMap Stop.candidate?,
      0 < g.length := by
  rw [← generatorSets_of_split split]
  exact length_pos_of_mem_generatorSets

theorem length_pos_of_earlier : ∀ g ∈ before.filterMap Stop.candidate?, 0 < g.length :=
  fun g member => length_pos_of_split split g (List.mem_append_left _ member)

theorem length_pos_of_considered : 0 < generators.length :=
  length_pos_of_split split generators (List.mem_append_right _ List.mem_cons_self)

/-- With two slots there is nothing to consider. -/
theorem two_le_of_split : 2 ≤ ring.logN := by
  by_contra small
  have logN_eq : ring.logN = 1 := by
    have := ring.logN_pos
    omega
  have none_listed : arity.count ring.slots = 0 := by
    rw [ring.slots_eq, logN_eq]
    cases arity <;> rfl
  have listed := congrArg List.length (generatorSets_of_split split)
  rw [length_generatorSets, none_listed, List.length_append, List.length_cons] at listed
  omega

theorem settled_of_split :
    Settled ring (before.filterMap Stop.candidate?) (soloRun ring before) :=
  (Settled.start : Settled ring [] {}).foldl_visit before (length_pos_of_earlier split)

/-- The first candidate is 3 and 5, and every other one meets the cost of an earlier
    candidate as its ceiling, which is no higher than what 3 and 5 may cost. -/
theorem ceiling_of_split :
    generators = arity.firstSet ∨ ∃ earlier times, .consider earlier ∈ before ∧
      evaluate ring earlier noCeiling = .feasible (soloRun ring before).shared.ceiling times ∧
      (soloRun ring before).shared.ceiling ≤ (ring.slots - 1) * (ring.slots / 2) := by
  have two_le := two_le_of_split split
  have history := settled_of_split split
  have large : 5 < ring.modulus :=
    Nat.lt_of_lt_of_le (by decide) (Nat.le_of_dvd ring.modulus_pos (ring.eight_dvd_modulus two_le))
  obtain ⟨rest, first_eq⟩ := generatorSets_eq_cons arity large
  have sets_eq := first_eq.symm.trans (generatorSets_of_split split)
  rcases List.cons_eq_append_iff.mp sets_eq with ⟨_, now⟩ | ⟨others, earlier, _⟩
  · exact .inl (List.cons.inj now).1
  · right
    -- the first set has been considered, and no ceiling after it is above its cost
    obtain ⟨cost, times, own, cost_le⟩ := exists_cost_firstSet arity two_le
    have considered : arity.firstSet ∈ before.filterMap Stop.candidate? := by
      rw [earlier]
      exact List.mem_cons_self
    cases recorded : (soloRun ring before).shared.record with
    | none =>
      rw [history.record_eq (length_pos_of_earlier split), List.argmin_eq_none,
        feasibleSets_eq_nil_iff] at recorded
      exact absurd own (recorded _ considered cost times)
    | some best =>
      obtain ⟨member, feasible, least⟩ := history.record_spec (length_pos_of_earlier split) recorded
      have ceiling_eq : (soloRun ring before).shared.ceiling = best.score := by
        rw [history.ceiling_eq, recorded, bar]
      rw [ceiling_eq]
      exact ⟨best.generators, best.times, mem_candidates.mp member, feasible,
        (least _ considered cost times own).trans cost_le⟩

/-- The first candidate is feasible, and all others that are not meet a ceiling which
    cuts them off. -/
theorem pruned_of_split (infeasible : ¬ Feasible ring generators) :
    (∃ earlier times, .consider earlier ∈ before ∧
      evaluate ring earlier noCeiling = .feasible (soloRun ring before).shared.ceiling times) ∧
    ∃ depth bound, depth < ring.modulus ∧
      evaluate ring generators (soloRun ring before).shared.ceiling = .pruned depth bound := by
  have two_le := two_le_of_split split
  rcases ceiling_of_split split with rfl | ⟨earlier, times, considered, own, le⟩
  · obtain ⟨cost, times, own, _⟩ := exists_cost_firstSet arity two_le
    exact absurd ⟨cost, times, own⟩ infeasible
  · exact ⟨⟨earlier, times, considered, own⟩,
      exists_pruned_of_not_feasible two_le (length_pos_of_considered split) infeasible le⟩

theorem evaluate_ne_exhausted_of_split :
    evaluate ring generators (soloRun ring before).shared.ceiling ≠ .exhausted := by
  by_cases feasible : Feasible ring generators
  · exact feasible.evaluate_ne_exhausted (length_pos_of_considered split) _
  · obtain ⟨_, depth, bound, _, cut⟩ := pruned_of_split split feasible
    rw [cut]
    exact Evaluation.noConfusion

end

/-- Nothing has been exhausted at any point of the itinerary. -/
theorem exhausted_soloRun (split : itinerary arity ring.modulus = before ++ after) :
    (soloRun ring before).tally.exhausted = 0 := by
  induction before using List.reverseRecOn generalizing after with
  | nil => rfl
  | append_singleton before stop ih =>
    rw [List.append_assoc, List.singleton_append] at split
    rw [soloRun_concat]
    cases stop with
    | announce outer => exact ih split
    | consider generators =>
      rw [Progress.visit, Progress.consider, exhausted_settle,
        Tally.exhausted_count_of_ne _ (evaluate_ne_exhausted_of_split split)]
      exact ih split

/-! ## Outcomes -/

/-- A search by a single worker exhausts no candidate.  Those that miss a target are
    pruned before the depths run out, against the cost of an earlier candidate.  So
    every candidate either improves on the best one or is pruned. -/
theorem no_candidate_is_exhausted (workers : SearchWorkers) (arity : Arity) (ring : SlotRing) :
    search workers arity { logN := ring.logN, threads := some 1 } = .ok (searchRing arity ring) ∧
    searchRing arity ring = (soloRun ring (itinerary arity ring.modulus)).finish ∧
    (∀ before generators after,
      itinerary arity ring.modulus = before ++ .consider generators :: after →
      ¬ Feasible ring generators →
        (∃ earlier times, .consider earlier ∈ before ∧
          evaluate ring earlier noCeiling
            = .feasible (soloRun ring before).shared.ceiling times) ∧
        ∃ depth bound, depth < ring.modulus ∧
          evaluate ring generators (soloRun ring before).shared.ceiling
            = .pruned depth bound) ∧
    (soloRun ring (itinerary arity ring.modulus)).tally.exhausted = 0 ∧
    (soloRun ring (itinerary arity ring.modulus)).tally.evaluated
      = (soloRun ring (itinerary arity ring.modulus)).tally.improvements
        + (soloRun ring (itinerary arity ring.modulus)).tally.pruned ∧
    (searchRing arity ring).stats.exhausted = 0 ∧
    (searchRing arity ring).stats.evaluated
      = (searchRing arity ring).stats.improvements + (searchRing arity ring).stats.pruned := by
  have none_exhausted : (soloRun ring (itinerary arity ring.modulus)).tally.exhausted = 0 :=
    exhausted_soloRun (List.append_nil _).symm
  have alone := alone_soloRun arity ring
  have sums : (soloRun ring (itinerary arity ring.modulus)).tally.evaluated
      = (soloRun ring (itinerary arity ring.modulus)).tally.improvements
        + (soloRun ring (itinerary arity ring.modulus)).tally.pruned := by
    rw [alone.accounts.partition, none_exhausted, alone.feasible_eq, Nat.add_zero]
  refine ⟨search_of_one rfl rfl arity, searchRing_eq arity ring,
    fun before generators after split => pruned_of_split split, none_exhausted, sums, ?_, ?_⟩
  · rw [searchRing_eq]
    exact congrArg UInt64.ofNat none_exhausted
  · rw [searchRing_eq]
    exact (congrArg UInt64.ofNat sums).trans (UInt64.ofNat_add _ _)

end PirTuning.Search
