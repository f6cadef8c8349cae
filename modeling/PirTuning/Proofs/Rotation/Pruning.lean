import PirTuning.Proofs.Rotation.Bounds
import PirTuning.Proofs.Rotation.Witnesses

/-!
# Evaluations with and without a ceiling

Without a ceiling an evaluation comes to its `verdict`: the first depths and
their weighted sum, or exhaustion.  A ceiling decides only how far the run gets.
It stops at the first depth whose bound is no longer below the ceiling, and if
there is none up to the last depth, the verdict is what comes out.
-/

namespace PirTuning.Rotation

/-- What an evaluation comes to if nothing is cut short. -/
def verdict (ring : SlotRing) (generators : List Nat) : Evaluation :=
  match (recordBefore ring generators ring.modulus).toVector? with
  | some times => .feasible (lowerBound ring generators (lastDepth ring generators)) times
  | none => .exhausted

/-- The rest of an evaluation that enters depth `t`. -/
def evaluateFrom (ring : SlotRing) (generators : List Nat) (ceiling t : Nat) : Evaluation :=
  Evaluation.layersFrom ring.modulus ring.targets ceiling t
    (tablesAt ring generators t) (recordBefore ring generators t)

variable {ring : SlotRing} {generators : List Nat} {ceiling : Nat}

/-! ## The verdict -/

/-- A record without a vector misses a target for good. -/
theorem exists_unreached
    (is_open : (recordBefore ring generators ring.modulus).toVector? = none) :
    ∃ i < ring.logN, firstDepth? ring generators i = none := by
  rw [Discovery.toVector?, Discovery.closed?_eq_none_iff, recordBefore,
    Discovery.times_ofSlots, List.mem_map] at is_open
  obtain ⟨i, member, unreached⟩ := is_open
  exact ⟨i, List.mem_range.mp member, unreached⟩

theorem toVector?_eq_some_iff {times : List Nat} :
    (recordBefore ring generators ring.modulus).toVector? = some times ↔
      times.length = ring.logN ∧ ∀ i < ring.logN, firstDepth? ring generators i = times[i]? := by
  rw [Discovery.toVector?, Discovery.closed?_eq_some_iff, recordBefore, Discovery.times_ofSlots]
  constructor
  · intro slots
    have length_eq : times.length = ring.logN := by
      simpa using (congrArg List.length slots).symm
    refine ⟨length_eq, fun i lt => ?_⟩
    have slot := congrArg (·[i]?) slots
    simpa [firstDepth?, lt, length_eq] using slot
  · rintro ⟨length_eq, slots⟩
    apply List.ext_getElem (by simp [length_eq])
    intro i lt lt'
    have below : i < ring.logN := by simpa using lt
    have slot := slots i below
    simpa [firstDepth?, length_eq, below] using slot

theorem verdict_ne_pruned (depth bound : Nat) :
    verdict ring generators ≠ .pruned depth bound := by
  unfold verdict
  split <;> simp

theorem verdict_eq_exhausted_iff :
    verdict ring generators = .exhausted ↔
      ∃ i < ring.logN, firstDepth? ring generators i = none := by
  unfold verdict
  cases closed : (recordBefore ring generators ring.modulus).toVector? with
  | none => simpa using exists_unreached closed
  | some times =>
    obtain ⟨length_eq, slots⟩ := toVector?_eq_some_iff.mp closed
    simp only [reduceCtorEq, false_iff]
    rintro ⟨i, lt, unreached⟩
    rw [slots i lt] at unreached
    simp [length_eq, lt] at unreached

theorem verdict_eq_feasible_iff {cost : Nat} {times : List Nat} :
    verdict ring generators = .feasible cost times ↔
      cost = lowerBound ring generators (lastDepth ring generators) ∧
        times.length = ring.logN ∧
        ∀ i < ring.logN, firstDepth? ring generators i = times[i]? := by
  rw [← toVector?_eq_some_iff]
  unfold verdict
  cases (recordBefore ring generators ring.modulus).toVector? with
  | none => simp
  | some times' => simp [eq_comm]

/-- At the last depth the bound is the weighted sum of the first depths. -/
theorem lowerBound_lastDepth {times : List Nat}
    (slots : ∀ i < ring.logN, firstDepth? ring generators i = times[i]?)
    (length_eq : times.length = ring.logN) :
    lowerBound ring generators (lastDepth ring generators)
      = ∑ i ∈ Finset.range ring.logN, 2 ^ i * times.getD i 0 := by
  apply Finset.sum_congr rfl
  intro i member
  have lt : i < ring.logN := Finset.mem_range.mp member
  have lt' : i < times.length := by omega
  have found : firstDepth? ring generators i = some times[i] := by
    rw [slots i lt, List.getElem?_eq_getElem lt']
  have le := firstDepth?_le_lastDepth lt found
  rw [found, Option.elim_some, Nat.min_eq_left le]
  simp [lt']

/-! ## One layer -/

theorem evaluate_eq_evaluateFrom (ring : SlotRing) (generators : List Nat) (ceiling : Nat) :
    evaluate ring generators ceiling = evaluateFrom ring generators ceiling 0 := by
  have tables : generators.map (PowerTable.start ring.modulus) = tablesAt ring generators 0 :=
    List.map_congr_left fun g _ => PowerTable.start_eq_upTo ring.one_lt_modulus g
  rw [evaluate, evaluateFrom, tables, recordBefore_zero]

theorem evaluateFrom_eq (some_generator : 0 < generators.length) {t : Nat}
    (lt : t < ring.modulus) :
    evaluateFrom ring generators ceiling t =
      if ceiling ≤ lowerBound ring generators t then
        .pruned t (lowerBound ring generators t)
      else
        match (recordBefore ring generators (t + 1)).toVector? with
        | some times => .feasible (lowerBound ring generators t) times
        | none => evaluateFrom ring generators ceiling (t + 1) := by
  rw [evaluateFrom, Evaluation.layersFrom, if_pos lt]
  simp only [layer_recordBefore ring some_generator, runningCost_recordBefore lt, grow_tablesAt]
  rfl

theorem evaluateFrom_modulus :
    evaluateFrom ring generators ceiling ring.modulus = .exhausted := by
  rw [evaluateFrom, Evaluation.layersFrom, if_neg (Nat.lt_irrefl _)]

/-! ## The whole run -/

/-- As long as the bound stays below the ceiling, the run goes on. -/
theorem evaluate_eq_evaluateFrom_of_lt (some_generator : 0 < generators.length) {t : Nat}
    (le : t ≤ lastDepth ring generators)
    (below : ∀ s < t, lowerBound ring generators s < ceiling) :
    evaluate ring generators ceiling = evaluateFrom ring generators ceiling t := by
  induction t with
  | zero => exact evaluate_eq_evaluateFrom ring generators ceiling
  | succ t ih =>
    have last_lt := lastDepth_lt ring generators
    have passed : ¬ ceiling ≤ lowerBound ring generators t :=
      Nat.not_le.mpr (below t (Nat.lt_succ_self t))
    rw [ih (by omega) fun s lt => below s (by omega), evaluateFrom_eq some_generator (by omega),
      if_neg passed, Discovery.toVector?,
      Discovery.closed?_eq_none_iff.mpr (open_before_lastDepth (by omega))]

theorem evaluate_eq_pruned (some_generator : 0 < generators.length) {t : Nat}
    (le : t ≤ lastDepth ring generators)
    (below : ∀ s < t, lowerBound ring generators s < ceiling)
    (reached : ceiling ≤ lowerBound ring generators t) :
    evaluate ring generators ceiling = .pruned t (lowerBound ring generators t) := by
  have last_lt := lastDepth_lt ring generators
  rw [evaluate_eq_evaluateFrom_of_lt some_generator le below,
    evaluateFrom_eq some_generator (by omega), if_pos reached]

theorem evaluate_eq_verdict (some_generator : 0 < generators.length)
    (below : lowerBound ring generators (lastDepth ring generators) < ceiling) :
    evaluate ring generators ceiling = verdict ring generators := by
  have last_lt := lastDepth_lt ring generators
  rw [evaluate_eq_evaluateFrom_of_lt some_generator (Nat.le_refl _) fun s lt =>
      Nat.lt_of_le_of_lt (lowerBound_mono ring generators (Nat.le_of_lt lt)) below,
    evaluateFrom_eq some_generator last_lt, if_neg (Nat.not_le.mpr below),
    recordBefore_lastDepth, verdict]
  -- the last depth either completes the record or is the last one below the modulus
  cases closed : (recordBefore ring generators ring.modulus).toVector? with
  | some times => rfl
  | none =>
    obtain ⟨i, lt, unreached⟩ := exists_unreached closed
    have last_eq : lastDepth ring generators + 1 = ring.modulus := by
      rw [lastDepth_of_unreached lt unreached]
      exact Nat.sub_add_cancel ring.modulus_pos
    simp only [last_eq, evaluateFrom_modulus]

theorem evaluate_noCeiling (some_generator : 0 < generators.length) :
    evaluate ring generators noCeiling = verdict ring generators :=
  evaluate_eq_verdict some_generator (lowerBound_lt_noCeiling (lastDepth_lt ring generators))

/-- A ceiling cuts an evaluation short at the first depth whose bound is too high,
    or not at all. -/
theorem evaluate_cases (ring : SlotRing) (some_generator : 0 < generators.length) (ceiling : Nat) :
    (∃ t ≤ lastDepth ring generators,
        (∀ s < t, lowerBound ring generators s < ceiling) ∧
        ceiling ≤ lowerBound ring generators t ∧
        evaluate ring generators ceiling = .pruned t (lowerBound ring generators t)) ∨
      (lowerBound ring generators (lastDepth ring generators) < ceiling ∧
        evaluate ring generators ceiling = verdict ring generators) := by
  by_cases below : lowerBound ring generators (lastDepth ring generators) < ceiling
  · exact .inr ⟨below, evaluate_eq_verdict some_generator below⟩
  · -- the bound only grows, so the first depth that stops the run is the least one
    have reached : ∃ t, ceiling ≤ lowerBound ring generators t := ⟨_, Nat.not_lt.mp below⟩
    have le : Nat.find reached ≤ lastDepth ring generators :=
      Nat.find_min' reached (Nat.not_lt.mp below)
    have earlier : ∀ s < Nat.find reached, lowerBound ring generators s < ceiling :=
      fun s lt => Nat.not_le.mp (Nat.find_min reached lt)
    exact .inl ⟨Nat.find reached, le, earlier, Nat.find_spec reached,
      evaluate_eq_pruned some_generator le earlier (Nat.find_spec reached)⟩

theorem evaluate_eq_pruned_iff (some_generator : 0 < generators.length) {t bound : Nat} :
    evaluate ring generators ceiling = .pruned t bound ↔
      t ≤ lastDepth ring generators ∧ (∀ s < t, lowerBound ring generators s < ceiling) ∧
        ceiling ≤ lowerBound ring generators t ∧ bound = lowerBound ring generators t := by
  constructor
  · intro cut
    rcases evaluate_cases ring some_generator ceiling with ⟨s, le, below, reached, eq⟩ | ⟨_, eq⟩
    · rw [eq, Evaluation.pruned.injEq] at cut
      obtain ⟨rfl, rfl⟩ := cut
      exact ⟨le, below, reached, rfl⟩
    · exact absurd (eq.symm.trans cut) (verdict_ne_pruned t bound)
  · rintro ⟨le, below, reached, rfl⟩
    exact evaluate_eq_pruned some_generator le below reached

/-- Below the ceiling a feasible set comes out as it does without one. -/
theorem evaluate_eq_feasible_iff (some_generator : 0 < generators.length) {cost : Nat}
    {times : List Nat} :
    evaluate ring generators ceiling = .feasible cost times ↔
      verdict ring generators = .feasible cost times ∧ cost < ceiling := by
  have cost_eq : verdict ring generators = .feasible cost times →
      cost = lowerBound ring generators (lastDepth ring generators) := fun feasible =>
    (verdict_eq_feasible_iff.mp feasible).1
  rcases evaluate_cases ring some_generator ceiling with ⟨s, le, _, reached, eq⟩ | ⟨below, eq⟩
  · rw [eq]
    simp only [reduceCtorEq, false_iff, not_and, Nat.not_lt]
    intro feasible
    rw [cost_eq feasible]
    exact Nat.le_trans reached (lowerBound_mono ring generators le)
  · rw [eq]
    exact ⟨fun feasible => ⟨feasible, cost_eq feasible ▸ below⟩, And.left⟩

/-! ## Least depths -/

/-- Without a ceiling an evaluation is never cut short.  It is feasible, with the
    least depths and their weighted sum, if every target is reached below the
    modulus, and exhausted otherwise; the search for witnesses agrees with it on
    every target. -/
theorem evaluate_without_ceiling (ring : SlotRing) (generators : List Nat)
    (two_le : 2 ≤ generators.length) :
    (∀ depth bound, evaluate ring generators noCeiling ≠ .pruned depth bound) ∧
    ((∀ i < ring.logN, ∃ t < ring.modulus, ReachedAt ring generators i t) →
      ∃ times : List Nat, times.length = ring.logN ∧
        evaluate ring generators noCeiling
          = .feasible (∑ i ∈ Finset.range ring.logN, 2 ^ i * times.getD i 0) times ∧
        ∀ i t, times[i]? = some t → IsLeast {s | ReachedAt ring generators i s} t) ∧
    ((∃ i < ring.logN, ∀ t < ring.modulus, ¬ ReachedAt ring generators i t) →
      evaluate ring generators noCeiling = .exhausted) ∧
    (∀ cost times, evaluate ring generators noCeiling = .feasible cost times →
      times.length = ring.logN ∧ ∀ i < ring.logN,
        (earliestWitness? ring generators i ring.modulus).map Witness.depth = times[i]?) ∧
    (evaluate ring generators noCeiling = .exhausted ↔
      ∃ i < ring.logN, earliestWitness? ring generators i ring.modulus = none) := by
  have some_generator : 0 < generators.length := by omega
  have witness_none : ∀ i < ring.logN, earliestWitness? ring generators i ring.modulus = none ↔
      firstDepth? ring generators i = none := by
    intro i lt
    rw [← Option.map_eq_none_iff (f := Witness.depth), depth_earliestWitness? some_generator lt]
    rfl
  -- without a ceiling the first depths alone decide
  rw [evaluate_noCeiling some_generator]
  refine ⟨verdict_ne_pruned, ?_, ?_, ?_, ?_⟩
  · intro reached
    have defined : ¬ ∃ i < ring.logN, firstDepth? ring generators i = none := by
      rintro ⟨i, lt, unreached⟩
      obtain ⟨t, below, hit⟩ := reached i lt
      exact depthBelow?_eq_none_iff.mp unreached t below hit
    cases result : verdict ring generators with
    | pruned depth bound => exact absurd result (verdict_ne_pruned depth bound)
    | exhausted => exact absurd (verdict_eq_exhausted_iff.mp result) defined
    | feasible cost times =>
      obtain ⟨rfl, length_eq, slots⟩ := verdict_eq_feasible_iff.mp result
      refine ⟨times, length_eq, by rw [lowerBound_lastDepth slots length_eq], fun i t time => ?_⟩
      have lt : i < ring.logN := length_eq ▸ (List.getElem?_eq_some_iff.mp time).1
      exact (depthBelow?_eq_some_iff.mp ((slots i lt).trans time)).2
  · rintro ⟨i, lt, unreached⟩
    exact verdict_eq_exhausted_iff.mpr ⟨i, lt, depthBelow?_eq_none_iff.mpr unreached⟩
  · intro cost times feasible
    obtain ⟨_, length_eq, slots⟩ := verdict_eq_feasible_iff.mp feasible
    refine ⟨length_eq, fun i lt => ?_⟩
    rw [depth_earliestWitness? some_generator lt]
    exact slots i lt
  · rw [verdict_eq_exhausted_iff]
    exact exists_congr fun i => and_congr_right fun lt => (witness_none i lt).symm

theorem evaluate_without_ceiling_small :
    (2 ≤ [3, 7].length ∧ evaluate .fourSlots [3, 7] noCeiling = .feasible 4 [2, 1]) ∧
      2 ≤ [7, 15].length ∧ evaluate .eightSlots [7, 15] noCeiling = .exhausted := by
  refine ⟨⟨by decide, ?_⟩, by decide, ?_⟩
  · obtain ⟨_, feasible, _⟩ := evaluate_without_ceiling .fourSlots [3, 7] (by decide)
    obtain ⟨times, length_eq, result, least⟩ := feasible (by decide)
    obtain ⟨a, b, rfl⟩ := List.length_eq_two.mp length_eq
    have first : depthBelow? .fourSlots [3, 7] 8 0 = some 2 := by decide
    have second : depthBelow? .fourSlots [3, 7] 8 1 = some 1 := by decide
    obtain rfl : a = 2 := (least 0 a rfl).unique (depthBelow?_eq_some_iff.mp first).2
    obtain rfl : b = 1 := (least 1 b rfl).unique (depthBelow?_eq_some_iff.mp second).2
    exact result
  · obtain ⟨_, _, exhausted, _⟩ := evaluate_without_ceiling .eightSlots [7, 15] (by decide)
    exact exhausted ⟨2, by decide, by decide +kernel⟩

/-! ## Ceilings -/

/-- A ceiling prunes at the least depth up to the last one whose bound reaches it,
    and otherwise changes nothing.  So exactly the sets that are cheaper than the
    ceiling stay feasible, a bound is never above the cost, and a higher ceiling
    prunes no earlier and with no smaller bound. -/
theorem evaluate_with_ceiling (ring : SlotRing) (generators : List Nat)
    (two_le : 2 ≤ generators.length) (ceiling : Nat) :
    (∀ t ≤ lastDepth ring generators, ceiling ≤ lowerBound ring generators t →
      (∀ s < t, lowerBound ring generators s < ceiling) →
      evaluate ring generators ceiling = .pruned t (lowerBound ring generators t)) ∧
    ((∀ t ≤ lastDepth ring generators, lowerBound ring generators t < ceiling) →
      evaluate ring generators ceiling = evaluate ring generators noCeiling) ∧
    (∀ cost times, evaluate ring generators ceiling = .feasible cost times ↔
      evaluate ring generators noCeiling = .feasible cost times ∧ cost < ceiling) ∧
    (∀ depth bound cost times, evaluate ring generators ceiling = .pruned depth bound →
      evaluate ring generators noCeiling = .feasible cost times → bound ≤ cost) ∧
    (∀ ceiling' depth' bound', ceiling ≤ ceiling' →
      evaluate ring generators ceiling' = .pruned depth' bound' →
      ∃ depth bound, evaluate ring generators ceiling = .pruned depth bound ∧
        depth ≤ depth' ∧ bound ≤ bound') := by
  have some_generator : 0 < generators.length := by omega
  rw [evaluate_noCeiling some_generator]
  refine ⟨?_, ?_, ?_, ?_, ?_⟩
  · intro t le reached below
    exact evaluate_eq_pruned some_generator le below reached
  · intro below
    exact evaluate_eq_verdict some_generator (below _ (Nat.le_refl _))
  · intro cost times
    exact evaluate_eq_feasible_iff some_generator
  · intro depth bound cost times cut feasible
    obtain ⟨le, _, _, rfl⟩ := (evaluate_eq_pruned_iff some_generator).mp cut
    rw [(verdict_eq_feasible_iff.mp feasible).1]
    exact lowerBound_mono ring generators le
  · intro ceiling' depth' bound' raised cut
    obtain ⟨le', _, reached', rfl⟩ := (evaluate_eq_pruned_iff some_generator).mp cut
    rcases evaluate_cases ring some_generator ceiling with ⟨t, le, below, _, eq⟩ | ⟨below, _⟩
    · -- otherwise `depth'` would have been passed below the lower ceiling
      have earlier : t ≤ depth' := by
        by_contra later
        have := below depth' (Nat.not_le.mp later)
        omega
      exact ⟨t, _, eq, earlier, lowerBound_mono ring generators earlier⟩
    · have := lowerBound_mono ring generators le'
      omega

theorem evaluate_with_ceiling_small :
    2 ≤ [3, 7].length ∧ evaluate .fourSlots [3, 7] 3 = .pruned 1 3 ∧
      evaluate .fourSlots [3, 7] 5 = evaluate .fourSlots [3, 7] noCeiling := by
  refine ⟨by decide, ?_, ?_⟩
  · obtain ⟨pruned, _⟩ := evaluate_with_ceiling .fourSlots [3, 7] (by decide) 3
    exact pruned 1 (by decide +kernel) (by decide +kernel) (by decide +kernel)
  · obtain ⟨_, unpruned, _⟩ := evaluate_with_ceiling .fourSlots [3, 7] (by decide) 5
    exact unpruned (by decide +kernel)

end PirTuning.Rotation
