import PirTuning.Search.Schedule
import PirTuning.Proofs.Search.Optimum

/-!
# Any schedule finds the minimum

Between the reading of a ceiling and the evaluation against it other candidates
may be settled, so which candidates are pruned, and which of several cheapest ones
ends up in the record, depends on the schedule.  What does not depend on it is
carried by `Ledger`: every candidate is waiting, begun or settled, and a ceiling
that was read is never below the current one.
-/

namespace PirTuning.Search

open Rotation

/-- What was told so far has no influence on what is found and counted. -/
theorem Progress.settle_congr {p q : Progress} (shared : q.shared = p.shared)
    (tally : q.tally = p.tally) (generators : List Nat) (evaluation : Evaluation) :
    (q.settle generators evaluation).shared = (p.settle generators evaluation).shared ∧
      (q.settle generators evaluation).tally = (p.settle generators evaluation).tally := by
  cases evaluation with
  | feasible cost times =>
    simp only [Progress.settle, Shared.offerWith, shared, tally]
    split <;> exact ⟨rfl, rfl⟩
  | pruned => simp only [Progress.settle, shared, tally, and_self]
  | exhausted => simp only [Progress.settle, shared, tally, and_self]

namespace Pool

/-! ## The ledger -/

/-- Where the candidates of a search are, the settled ones in their order. -/
structure Ledger (ring : SlotRing) (sets settled : List (List Nat)) (pool : Pool) : Prop where
  history : Settled ring settled pool.progress
  perm : (pool.waiting ++ pool.begun.map Prod.fst ++ settled).Perm sets
  stale : ∀ entry ∈ pool.begun, pool.progress.shared.ceiling ≤ entry.2

variable {ring : SlotRing} {sets settled : List (List Nat)} {pool pool' : Pool}

theorem Ledger.start (arity : Arity) (ring : SlotRing) :
    Ledger ring (arity.generatorSets ring.modulus) [] (Pool.start arity ring) where
  history := .start
  perm := by simp [Pool.start]
  stale := by simp [Pool.start]

/-- A step begins a candidate or settles one. -/
theorem Ledger.step (ledger : Ledger ring sets settled pool)
    (some_generator : ∀ g ∈ sets, 0 < g.length) (step : Step ring pool pool') :
    ∃ settled', Ledger ring sets settled' pool' := by
  obtain ⟨history, perm, stale⟩ := ledger
  cases step with
  | begin before after candidate begun p =>
    refine ⟨settled, history, ?_, ?_⟩
    · refine List.Perm.trans ?_ perm
      simp only [List.map_cons, List.append_assoc, List.cons_append]
      have moved : (after ++ candidate :: (begun.map Prod.fst ++ settled)).Perm
          (candidate :: (after ++ (begun.map Prod.fst ++ settled))) := List.perm_middle
      exact moved.append_left before
    · intro entry member
      rcases List.mem_cons.mp member with rfl | earlier
      · exact Nat.le_refl _
      · exact stale entry earlier
  | finish waiting before after candidate ceiling p =>
    -- what was read when this candidate began is still at least the ceiling
    have begun : (candidate, ceiling) ∈ before ++ (candidate, ceiling) :: after := by simp
    have member : candidate ∈ sets :=
      perm.mem_iff.mp (List.mem_append_left _ (List.mem_append_right _
        (List.mem_map_of_mem begun)))
    refine ⟨settled ++ [candidate], history.settle (some_generator _ member) (stale _ begun),
      ?_, ?_⟩
    · refine List.Perm.trans ?_ perm
      simp only [List.map_append, List.map_cons, List.append_assoc, List.cons_append]
      refine List.Perm.append_left waiting (List.Perm.append_left _ ?_)
      rw [← List.append_assoc]
      exact List.perm_append_singleton candidate _
    · intro entry member
      refine Nat.le_trans (p.ceiling_settle_le candidate _) (stale entry ?_)
      rcases List.mem_append.mp member with front | back
      · exact List.mem_append_left _ front
      · exact List.mem_append_right _ (List.mem_cons_of_mem _ back)

theorem Ledger.steps (ledger : Ledger ring sets settled pool)
    (some_generator : ∀ g ∈ sets, 0 < g.length) (steps : Steps ring pool pool') :
    ∃ settled', Ledger ring sets settled' pool' := by
  induction steps generalizing settled with
  | refl => exact ⟨settled, ledger⟩
  | step head _ ih =>
    obtain ⟨settled', ledger'⟩ := ledger.step some_generator head
    exact ih ledger'

/-- Once nothing is left to do, every candidate was settled once. -/
theorem Ledger.settled_perm (ledger : Ledger ring sets settled pool) (complete : pool.Done) :
    settled.Perm sets := by
  have perm := ledger.perm
  rwa [complete.1, complete.2] at perm

/-- Every search can be run to its end, if need be by one worker. -/
theorem exists_complete (ring : SlotRing) (waiting : List (List Nat)) (p : Progress) :
    ∃ p', Steps ring ⟨waiting, [], p⟩ ⟨[], [], p'⟩ := by
  induction waiting generalizing p with
  | nil => exact ⟨p, .refl _⟩
  | cons candidate waiting ih =>
    obtain ⟨p', rest⟩ := ih (p.consider ring candidate)
    exact ⟨p', (consider_steps ring candidate waiting p).trans rest⟩

/-- A worker that makes all stops of an itinerary is one schedule of its candidates. -/
theorem exists_complete_visit {p q : Progress} (shared : q.shared = p.shared)
    (tally : q.tally = p.tally) (ring : SlotRing) (stops : List Stop) :
    ∃ q', Steps ring ⟨stops.filterMap Stop.candidate?, [], q⟩ ⟨[], [], q'⟩ ∧
      q'.shared = (stops.foldl (Progress.visit ring) p).shared ∧
      q'.tally = (stops.foldl (Progress.visit ring) p).tally := by
  induction stops generalizing p q with
  | nil => exact ⟨q, .refl _, shared, tally⟩
  | cons stop stops ih =>
    cases stop with
    | announce outer => exact @ih (p.tell (.progress outer)) q shared tally
    | consider generators =>
      have same := Progress.settle_congr shared tally generators
        (evaluate ring generators p.shared.ceiling)
      obtain ⟨q', rest, found⟩ := @ih (p.consider ring generators) (q.consider ring generators)
        (by rw [Progress.consider, shared]; exact same.1)
        (by rw [Progress.consider, shared]; exact same.2)
      exact ⟨q', (consider_steps ring generators _ q).trans rest, found⟩

end Pool

theorem scheduled_one : SearchWorkers.Scheduled (.one searchRing) := by
  intro count arity ring
  obtain ⟨q, run, shared, tally⟩ := Pool.exists_complete_visit (p := {}) (q := {}) rfl rfl ring
    (itinerary arity ring.modulus)
  rw [candidates_itinerary] at run
  refine ⟨⟨[], [], q⟩, run, ⟨rfl, rfl⟩, ?_, ?_⟩
  · exact (congrArg Outcome.best (searchRing_eq arity ring)).trans
      (congrArg Shared.record shared).symm
  · exact (congrArg Outcome.stats (searchRing_eq arity ring)).trans
      (congrArg Tally.stats tally).symm

/-! ## What the history leaves behind -/

namespace Settled

variable {ring : SlotRing} {sets : List (List Nat)} {p : Progress}

theorem record_spec (history : Settled ring sets p) (some_generator : ∀ g ∈ sets, 0 < g.length)
    {best : Best} (recorded : p.shared.record = some best) :
    best.generators ∈ sets ∧
      evaluate ring best.generators noCeiling = .feasible best.score best.times ∧
      ∀ g ∈ sets, ∀ cost times,
        evaluate ring g noCeiling = .feasible cost times → best.score ≤ cost := by
  rw [history.record_eq some_generator] at recorded
  obtain ⟨member, feasible⟩ := mem_feasibleSets.mp (List.argmin_mem recorded)
  refine ⟨member, feasible, fun g other cost times own => ?_⟩
  have candidate : (⟨cost, g, times⟩ : Best) ∈ feasibleSets ring sets :=
    mem_feasibleSets.mpr ⟨other, own⟩
  exact List.le_of_mem_argmin candidate recorded

theorem pairwise_calls (history : Settled ring sets p) :
    p.calls.Pairwise fun earlier later => later.1 < earlier.1 := by
  rw [history.accounts.calls, List.pairwise_map]
  exact pairwise_minima _

theorem getLast?_calls (history : Settled ring sets p) :
    p.calls.getLast? = p.shared.record.map Best.call := by
  rw [history.accounts.calls, history.accounts.shared, List.getLast?_map, Shared.record_holding]

theorem length_calls (history : Settled ring sets p) : p.calls.length = p.tally.improvements := by
  rw [history.accounts.calls, history.accounts.improvements, List.length_map]

/-- Scores fall with each improvement, so their count fits into a word. -/
theorem improvements_le_noCeiling (history : Settled ring sets p)
    (some_generator : ∀ g ∈ sets, 0 < g.length) : p.tally.improvements ≤ noCeiling := by
  rw [history.accounts.improvements]
  exact length_le_of_pairwise (pairwise_minima _) fun best member =>
    score_lt_of_mem_feasibleSets some_generator ((minima_sublist _).mem member)

end Settled

/-- The outcome counts add up modulo the size of a word as well. -/
theorem Tally.partition_stats {tally : Tally}
    (whole : tally.evaluated = tally.feasible + tally.pruned + tally.exhausted) :
    tally.stats.evaluated
      = tally.stats.feasible + tally.stats.pruned + tally.stats.exhausted := by
  simp only [Tally.stats, whole, UInt64.ofNat_add]

/-! ## Outcomes -/

/-- However the workers interleave, a search that has run to its end reports the
    least cost of all candidates, as the single worker does, together with a
    candidate that has this cost and the recorded depths.  The calls back have
    strictly falling scores, the last one is for the record, and there are as many as
    improvements, each of them a feasible evaluation; every candidate is counted
    once. -/
theorem outcome_of_schedule (arity : Arity) (ring : SlotRing) (pool : Pool)
    (run : Pool.Steps ring (Pool.start arity ring) pool) (complete : pool.Done) :
    (pool.progress.finish.best.map Best.score
      = (searchRing arity ring).best.map Best.score) ∧
    (pool.progress.finish.best = none ↔
      ∀ g ∈ arity.generatorSets ring.modulus,
        ∀ cost times, evaluate ring g noCeiling ≠ .feasible cost times) ∧
    (∀ best, pool.progress.finish.best = some best →
      best.generators ∈ arity.generatorSets ring.modulus ∧
      evaluate ring best.generators noCeiling = .feasible best.score best.times ∧
      ∀ g ∈ arity.generatorSets ring.modulus, ∀ cost times,
        evaluate ring g noCeiling = .feasible cost times → best.score ≤ cost) ∧
    (pool.progress.calls.Pairwise fun earlier later => later.1 < earlier.1) ∧
    pool.progress.calls.getLast? = pool.progress.finish.best.map Best.call ∧
    pool.progress.calls.length = pool.progress.tally.improvements ∧
    pool.progress.finish.stats.improvements.toNat = pool.progress.tally.improvements ∧
    pool.progress.tally.improvements ≤ pool.progress.tally.feasible ∧
    pool.progress.tally.evaluated = (arity.generatorSets ring.modulus).length ∧
    pool.progress.tally.evaluated = pool.progress.tally.feasible + pool.progress.tally.pruned
      + pool.progress.tally.exhausted ∧
    pool.progress.finish.stats.evaluated
      = UInt64.ofNat (arity.generatorSets ring.modulus).length ∧
    pool.progress.finish.stats.evaluated = pool.progress.finish.stats.feasible
      + pool.progress.finish.stats.pruned + pool.progress.finish.stats.exhausted := by
  obtain ⟨settled, ledger⟩ :=
    (Pool.Ledger.start arity ring).steps length_pos_of_mem_generatorSets run
  have perm : settled.Perm (arity.generatorSets ring.modulus) := ledger.settled_perm complete
  have settled_generator : ∀ g ∈ settled, 0 < g.length := fun g member =>
    length_pos_of_mem_generatorSets g (perm.mem_iff.mp member)
  have history := ledger.history
  have accounts := history.accounts
  have evaluated : pool.progress.tally.evaluated = (arity.generatorSets ring.modulus).length :=
    accounts.evaluated.trans perm.length_eq
  refine ⟨?_, ?_, ?_, history.pairwise_calls, history.getLast?_calls, history.length_calls, ?_,
    accounts.improvements_le, evaluated, accounts.partition, ?_,
    Tally.partition_stats accounts.partition⟩
  · -- the record is a first minimum in the order of this schedule; its score is not
    -- bound to the order
    rw [best_searchRing, bruteForce_eq]
    exact (congrArg _ (history.record_eq settled_generator)).trans
      (score_argmin_of_perm (perm.filterMap _))
  · change pool.progress.shared.record = none ↔ _
    rw [history.record_eq settled_generator, List.argmin_eq_none, feasibleSets_eq_nil_iff]
    exact forall_congr' fun g => imp_congr perm.mem_iff Iff.rfl
  · intro best recorded
    obtain ⟨member, feasible, least⟩ := history.record_spec settled_generator recorded
    exact ⟨perm.mem_iff.mp member, feasible, fun g other => least g (perm.mem_iff.mpr other)⟩
  · have fits : pool.progress.tally.improvements < 2 ^ 64 :=
      Nat.lt_of_le_of_lt (history.improvements_le_noCeiling settled_generator) (by decide)
    exact UInt64.toNat_ofNat_of_lt' fits
  · exact congrArg UInt64.ofNat evaluated

/-- All ceilings are read before anything is settled, and the candidates are settled
    in the opposite order. -/
theorem outcome_of_stale_ceilings :
    ∃ pool, Pool.Steps .fourSlots (Pool.start .pair .fourSlots) pool ∧ pool.Done ∧
      pool.progress.finish.best.map Best.score
        = (searchRing .pair .fourSlots).best.map Best.score ∧
      pool.progress.tally.evaluated = 3 := by
  have sets_eq : Arity.pair.generatorSets SlotRing.fourSlots.modulus
      = [[3, 5], [3, 7], [5, 7]] := by decide +kernel
  have run : ∃ p, Pool.Steps .fourSlots (Pool.start .pair .fourSlots) ⟨[], [], p⟩ := by
    rw [Pool.start, sets_eq]
    exact ⟨_, .step (.begin [] [[3, 7], [5, 7]] [3, 5] [] {})
      (.step (.begin [] [[5, 7]] [3, 7] _ {})
      (.step (.begin [] [] [5, 7] _ {})
      (.step (.finish [] [] _ [5, 7] _ {})
      (.step (.finish [] [] _ [3, 7] _ _)
      (.step (.finish [] [] [] [3, 5] _ _) (.refl _))))))⟩
  obtain ⟨p, run⟩ := run
  obtain ⟨score, _, _, _, _, _, _, _, evaluated, _⟩ :=
    outcome_of_schedule .pair .fourSlots ⟨[], [], p⟩ run ⟨rfl, rfl⟩
  rw [sets_eq] at evaluated
  exact ⟨⟨[], [], p⟩, run, ⟨rfl, rfl⟩, score, evaluated⟩

end PirTuning.Search
