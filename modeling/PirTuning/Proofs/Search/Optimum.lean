import PirTuning.Proofs.Search.Itinerary
import PirTuning.Proofs.Search.Settling

/-!
# The search finds the first minimum

A worker on its own settles the candidates in the order of their enumeration,
each against the current ceiling.  So a search ends with the record that brute
force would choose, although most candidates were cut short on the way.
-/

namespace PirTuning.Search

open Rotation

variable {ring : SlotRing} {sets : List (List Nat)} {p : Progress}

/-! ## Arities -/

theorem length_of_mem_generatorSets {arity : Arity} {modulus : Nat} {generators : List Nat}
    (member : generators ∈ arity.generatorSets modulus) : 2 ≤ generators.length := by
  cases arity with
  | pair =>
    obtain ⟨⟨g, h⟩, _, rfl⟩ := List.mem_map.mp member
    exact Nat.le_refl 2
  | triple =>
    obtain ⟨⟨f, g, h⟩, _, rfl⟩ := List.mem_map.mp member
    exact Nat.le_succ 2

theorem length_pos_of_mem_generatorSets {arity : Arity} {modulus : Nat} :
    ∀ g ∈ arity.generatorSets modulus, 0 < g.length := by
  intro g member
  exact Nat.lt_of_lt_of_le Nat.zero_lt_two (length_of_mem_generatorSets member)

/-! ## One worker -/

theorem Settled.foldl_visit (stops : List Stop) (history : Settled ring sets p)
    (some_generator : ∀ g ∈ stops.filterMap Stop.candidate?, 0 < g.length) :
    Settled ring (sets ++ stops.filterMap Stop.candidate?)
      (stops.foldl (Progress.visit ring) p) := by
  induction stops generalizing sets p with
  | nil => simpa using history
  | cons stop stops ih =>
    cases stop with
    | announce outer => exact ih (history.announce outer) some_generator
    | consider generators =>
      -- against the current ceiling
      have considered : Settled ring (sets ++ [generators]) (p.consider ring generators) :=
        history.settle (some_generator _ List.mem_cons_self) (Nat.le_refl _)
      have rest := ih considered fun g member =>
        some_generator g (List.mem_cons_of_mem _ member)
      rwa [List.append_assoc] at rest

theorem settled_soloRun (arity : Arity) (ring : SlotRing) :
    Settled ring (arity.generatorSets ring.modulus)
      (soloRun ring (itinerary arity ring.modulus)) := by
  have history := (Settled.start : Settled ring [] {}).foldl_visit (itinerary arity ring.modulus)
  rw [candidates_itinerary] at history
  exact history length_pos_of_mem_generatorSets

/-! ## The record -/

/-- What stays feasible costs less than any ceiling there is at the start. -/
theorem score_lt_of_mem_feasibleSets (some_generator : ∀ g ∈ sets, 0 < g.length) {best : Best}
    (member : best ∈ feasibleSets ring sets) : best.score < noCeiling := by
  obtain ⟨member, feasible⟩ := mem_feasibleSets.mp member
  have := some_generator _ member
  rw [evaluate_noCeiling this, verdict_eq_feasible_iff] at feasible
  rw [feasible.1]
  exact lowerBound_lt_noCeiling (lastDepth_lt ring best.generators)

theorem Settled.record_eq (history : Settled ring sets p)
    (some_generator : ∀ g ∈ sets, 0 < g.length) :
    p.shared.record = (feasibleSets ring sets).argmin Best.score := by
  rw [history.accounts.shared, Shared.record_holding,
    getLast?_minima fun best member => score_lt_of_mem_feasibleSets some_generator member]

theorem best_searchRing (arity : Arity) (ring : SlotRing) :
    (searchRing arity ring).best = bruteForce arity ring := by
  rw [bruteForce_eq, searchRing_eq]
  exact (settled_soloRun arity ring).record_eq length_pos_of_mem_generatorSets

theorem feasibleSets_eq_nil_iff :
    feasibleSets ring sets = [] ↔
      ∀ g ∈ sets, ∀ cost times, evaluate ring g noCeiling ≠ .feasible cost times := by
  rw [List.eq_nil_iff_forall_not_mem]
  constructor
  · intro none_feasible g member cost times feasible
    exact none_feasible ⟨cost, g, times⟩ (mem_feasibleSets.mpr ⟨member, feasible⟩)
  · intro none_feasible best found
    obtain ⟨member, feasible⟩ := mem_feasibleSets.mp found
    exact none_feasible _ member _ _ feasible

/-- A search that prunes against the best score so far ends with what brute force
    finds: nothing if no candidate is feasible, and otherwise the first candidate in
    order whose own cost is the least, with that cost and its own depths. -/
theorem search_eq_bruteForce (workers : SearchWorkers) (arity : Arity) (ring : SlotRing) :
    search workers arity { logN := ring.logN, threads := some 1 } = .ok (searchRing arity ring) ∧
    (searchRing arity ring).best = bruteForce arity ring ∧
    ((searchRing arity ring).best = none ↔
      ∀ g ∈ arity.generatorSets ring.modulus,
        ∀ cost times, evaluate ring g noCeiling ≠ .feasible cost times) ∧
    ∀ best, (searchRing arity ring).best = some best →
      evaluate ring best.generators noCeiling = .feasible best.score best.times ∧
      ∃ before after,
        arity.generatorSets ring.modulus = before ++ best.generators :: after ∧
        (∀ g ∈ before, ∀ cost times,
          evaluate ring g noCeiling = .feasible cost times → best.score < cost) ∧
        ∀ g ∈ after, ∀ cost times,
          evaluate ring g noCeiling = .feasible cost times → best.score ≤ cost := by
  refine ⟨search_of_one rfl rfl arity, best_searchRing arity ring, ?_, ?_⟩
  · rw [best_searchRing, bruteForce_eq, List.argmin_eq_none, feasibleSets_eq_nil_iff]
  · intro best found
    rw [best_searchRing, bruteForce_eq] at found
    obtain ⟨_, feasible⟩ := mem_feasibleSets.mp (List.argmin_mem found)
    obtain ⟨cheaper, later, split, above, least⟩ := exists_split_of_argmin found
    obtain ⟨before, after, sets_eq, rfl, rfl⟩ := exists_split_of_feasibleSets split
    refine ⟨feasible, before, after, sets_eq, ?_, ?_⟩
    · intro g member cost times own
      exact above ⟨cost, g, times⟩ (mem_feasibleSets.mpr ⟨member, own⟩)
    · intro g member cost times own
      exact least ⟨cost, g, times⟩ (mem_feasibleSets.mpr ⟨member, own⟩)

end PirTuning.Search
