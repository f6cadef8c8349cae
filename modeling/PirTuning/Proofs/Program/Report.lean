import PirTuning.Program.Tuner
import PirTuning.Proofs.Search.Optimality

/-!
# What a search prints

A search prints its improvements as they come, and its best candidate once more at the
end.  The lines below that one show how the candidate reaches each target; they come from
a search of their own, which finds the depths that the score was computed from.
-/

namespace PirTuning.Program

open PirTuning.Rotation
open PirTuning.Search

variable {ring : SlotRing} {arity : Arity} {generators times : List Nat}

/-! ## Named generators -/

/-- A score and all generators of a shape, by name. -/
def namedGenerators (score : Nat) (generators : List Nat) : Arity → String
  | .pair => s!"Best score: {score} Best g: {generators.getD 0 0} Best h: {generators.getD 1 0}"
  | .triple => s!"Best score: {score} Best f: {generators.getD 0 0} " ++
      s!"Best g: {generators.getD 1 0} Best h: {generators.getD 2 0}"

/-- A product of all generators of a shape, by name. -/
def namedProduct (exponents : List Nat) : Arity → String
  | .pair => s!"g^{exponents.getD 0 0} * h^{exponents.getD 1 0}"
  | .triple => s!"f^{exponents.getD 0 0} * g^{exponents.getD 1 0} * h^{exponents.getD 2 0}"

theorem bestLine_eq (score : Nat) (length_eq : generators.length = arity.size) :
    bestLine score generators = namedGenerators score generators arity := by
  cases arity with
  | pair =>
    obtain ⟨g, h, rfl⟩ := List.length_eq_two.mp length_eq
    -- both sides are cut into the same pieces, so they are compared character by character
    unfold bestLine namedGenerators
    simp [labels, String.ext_iff, toString]
  | triple =>
    obtain ⟨f, g, h, rfl⟩ := List.length_eq_three.mp length_eq
    unfold bestLine namedGenerators
    simp [labels, String.ext_iff, toString]

theorem productText_eq {exponents : List Nat} (length_eq : exponents.length = arity.size) :
    productText exponents = namedProduct exponents arity := by
  cases arity with
  | pair =>
    obtain ⟨a, b, rfl⟩ := List.length_eq_two.mp length_eq
    unfold productText namedProduct
    simp [labels, String.ext_iff, toString]
  | triple =>
    obtain ⟨a, b, c, rfl⟩ := List.length_eq_three.mp length_eq
    unfold productText namedProduct
    simp [labels, String.ext_iff, toString]

theorem namedProduct_ne (exponents : List Nat) (arity : Arity) :
    namedProduct exponents arity ≠ "unverified" := by
  intro same
  -- the first characters differ already
  have first := congrArg (fun text => text.toList.head?) same
  unfold namedProduct at first
  cases arity <;> simp [toString] at first

/-! ## Witness lines -/

theorem witnessLinesFrom?_eq (i : Nat) (times : List Nat) (le : i + times.length ≤ ring.logN) :
    witnessLinesFrom? ring generators i times = some ((times.zipIdx i).map fun entry =>
      witnessLine ring generators entry.2 (ring.target entry.2) entry.1) := by
  induction times generalizing i with
  | nil => rfl
  | cons t times ih =>
    rw [List.length_cons] at le
    have target_eq : ring.targets[i]? = some (ring.target i) := by
      simp [SlotRing.targets, show i < ring.logN by omega]
    rw [witnessLinesFrom?, target_eq]
    simp only [ih (i + 1) (by omega)]
    rfl

/-- There is a line for each target, in order. -/
theorem witnessLines?_eq (length_eq : times.length = ring.logN) :
    witnessLines? ring generators times = some ((List.range ring.logN).map fun i =>
      witnessLine ring generators i (ring.target i) (times.getD i 0)) := by
  rw [witnessLines?, witnessLinesFrom?_eq 0 times (by omega)]
  congr 1
  apply List.ext_getElem
  · simp [length_eq]
  · intro i lt lt'
    have inside : i < times.length := by simpa using lt
    simp [inside]

/-- The depths of a feasible set are the sums of earliest exponents, which the search for
    witnesses finds, and the cost is their weighted sum. -/
theorem earliest_of_feasible {cost : Nat} (some_generator : 0 < generators.length)
    (feasible : evaluate ring generators noCeiling = .feasible cost times) :
    times.length = ring.logN ∧
    cost = ∑ i ∈ Finset.range ring.logN, ring.weight i * times.getD i 0 ∧
    ∀ i < ring.logN, ∃ exponents : List Nat,
      earliestWitness? ring generators i (times.getD i 0 + 1)
        = some ⟨times.getD i 0, exponents⟩ ∧
      exponents.sum = times.getD i 0 ∧ Earliest ring generators i exponents := by
  rw [evaluate_noCeiling some_generator, verdict_eq_feasible_iff] at feasible
  obtain ⟨rfl, length_eq, slots⟩ := feasible
  refine ⟨length_eq, ?_, fun i lt => ?_⟩
  · rw [lowerBound_lastDepth slots length_eq]
    simp only [SlotRing.weight, Nat.one_shiftLeft]
  · have slot : firstDepth? ring generators i = some (times.getD i 0) := by
      rw [slots i lt]
      simp [length_eq, lt]
    have least := (depthBelow?_eq_some_iff.mp slot).2
    -- the limit of the search is one more than the depth, which is just enough
    have found := depth_earliestWitness? some_generator lt (times.getD i 0 + 1)
    rw [depthBelow?_eq_some_iff.mpr ⟨Nat.lt_succ_self _, least⟩, Option.map_eq_some_iff] at found
    obtain ⟨witness, found, depth_eq⟩ := found
    obtain ⟨-, sum_eq, earliest⟩ := earliest_of_witness some_generator lt found
    refine ⟨witness.split, ?_, sum_eq.trans depth_eq, earliest⟩
    rw [found, ← depth_eq]

/-- The line of target `i` with its exponents. -/
def exponentsLine (ring : SlotRing) (arity : Arity) (i : Nat) (exponents : List Nat) : String :=
  s!"  1 + N/2^{i} = {ring.target i} (weight {ring.weight i}): t={exponents.sum} " ++
    s!"via {namedProduct exponents arity}"

theorem witnessLine_eq {i t : Nat} {exponents : List Nat} (size : generators.length = arity.size)
    (found : earliestWitness? ring generators i (t + 1) = some ⟨t, exponents⟩)
    (sum_eq : exponents.sum = t) (earliest : Earliest ring generators i exponents) :
    witnessLine ring generators i (ring.target i) t = exponentsLine ring arity i exponents := by
  have product := productText_eq (earliest.length_eq.trans size)
  unfold witnessLine exponentsLine
  rw [found, sum_eq, ← product]
  simp [String.ext_iff, toString]

/-! ## The last improvement -/

theorem feasible_of_best {best : Best} (found : (searchRing arity ring).best = some best) :
    best.generators ∈ arity.generatorSets ring.modulus ∧
      evaluate ring best.generators noCeiling = .feasible best.score best.times := by
  rw [searchRing_eq] at found
  obtain ⟨member, feasible, -⟩ :=
    (settled_soloRun arity ring).record_spec length_pos_of_mem_generatorSets found
  exact ⟨member, feasible⟩

/-- Behind the improvement to the best candidate there is nothing but markers. -/
theorem exists_last_improvement {best : Best} (found : (searchRing arity ring).best = some best) :
    ∃ earlier later : List Event,
      (searchRing arity ring).events
        = earlier ++ .improved best.score best.generators :: later ∧
      ∀ event ∈ later, ∃ outer, event = .progress outer := by
  have last := (settled_soloRun arity ring).getLast?_calls
  rw [searchRing_eq] at found ⊢
  have record : (soloRun ring (itinerary arity ring.modulus)).shared.record = some best := found
  rw [record, Option.map_some, List.getLast?_eq_some_iff, Progress.calls] at last
  obtain ⟨calls, split⟩ := last
  -- the last call among the events, and what stands behind it tells no call
  obtain ⟨front, back, events, -, told⟩ := List.filterMap_eq_append_iff.mp split
  obtain ⟨between, event, later, rfl, -, own, silent⟩ := List.filterMap_eq_cons_iff.mp told
  have event_eq : event = .improved best.score best.generators := by
    cases event with
    | progress outer => cases own
    | improved score generators =>
      cases own
      rfl
  refine ⟨front ++ between, later, ?_, fun event member => ?_⟩
  · rw [Progress.finish, events, event_eq, List.append_assoc]
  · have quiet := List.filterMap_eq_nil_iff.mp silent event member
    cases event with
    | progress outer => exact ⟨outer, rfl⟩
    | improved score generators => cases quiet

/-! ## The whole report -/

/-- The lines that show how the best candidate reaches the targets. -/
theorem finalLines_eq {best : Best} (some_generator : 0 < best.generators.length)
    (size : best.generators.length = arity.size)
    (feasible : evaluate ring best.generators noCeiling = .feasible best.score best.times) :
    ∃ exponents : Nat → List Nat,
      Tuner.finalLines ring (some best)
        = s!"final: {bestLine best.score best.generators}" ::
          (List.range ring.logN).map (fun i => exponentsLine ring arity i (exponents i)) ∧
      (∀ i < ring.logN, Earliest ring best.generators i (exponents i)) ∧
      best.score = ∑ i ∈ Finset.range ring.logN, ring.weight i * (exponents i).sum := by
  obtain ⟨length_eq, score_eq, reached⟩ := earliest_of_feasible some_generator feasible
  -- one vector of exponents for each target
  choose! exponents found sum_eq earliest using reached
  refine ⟨exponents, ?_, earliest, ?_⟩
  · rw [Tuner.finalLines, witnessLines?_eq length_eq, Option.getD_some]
    refine congrArg (List.cons _) (List.map_congr_left ?_)
    intro i member
    have lt := List.mem_range.mp member
    exact witnessLine_eq size (found i lt) (sum_eq i lt) (earliest i lt)
  · rw [score_eq]
    apply Finset.sum_congr rfl
    intro i member
    rw [sum_eq i (Finset.mem_range.mp member)]

/-- What one worker prints of a search in a ring of at least four slots.  The final line
    repeats the last improvement, behind which only markers came.  Below it each target has a
    line with a product of all generators, which has the target as its value: no exponents of
    a smaller sum lead there, and none of the same sum that come before them.  The sums of the
    exponents, weighted as the lines say, add up to the score. -/
theorem report_of_search {workers : SearchWorkers} {words : List String} {args : Arguments}
    {arity : Arity} {ring : SlotRing}
    (parsed : Tuner.grammar.parse words = .ok args)
    (one_worker : workers.count (args.number? "threads") = 1)
    (mode : args.positionals.head?.bind Tuner.arityOfMode? = some arity)
    (size : (args.number? "log-n").getD defaultLogN = ring.logN) (two_le : 2 ≤ ring.logN) :
    ∃ (score : Nat) (generators : List Nat) (exponents : Nat → List Nat)
      (earlier markers : List String),
      Tuner.run workers words = .success (earlier ++
        namedGenerators score generators arity :: markers ++
        statsLine (searchRing arity ring).stats ::
        s!"final: {namedGenerators score generators arity}" ::
        (List.range ring.logN).map fun i => exponentsLine ring arity i (exponents i)) ∧
      (∀ line ∈ markers, ∃ outer : Nat, line = s!"{outerLabel arity}: {outer}") ∧
      generators.length = arity.size ∧
      (∀ i < ring.logN, Earliest ring generators i (exponents i)) ∧
      (∀ i, namedProduct (exponents i) arity ≠ "unverified") ∧
      score = ∑ i ∈ Finset.range ring.logN, ring.weight i * (exponents i).sum := by
  obtain ⟨best, found, -⟩ := isLeast_searchRing two_le arity
  -- behind the last improvement there are only markers
  obtain ⟨earlier, later, events, quiet⟩ := exists_last_improvement found
  obtain ⟨member, feasible⟩ := feasible_of_best found
  have length_eq := (forall_of_mem_generatorSets member).1
  have line := bestLine_eq best.score length_eq
  obtain ⟨exponents, final, earliest, score_eq⟩ :=
    finalLines_eq (length_pos_of_mem_generatorSets _ member) length_eq feasible
  have accepted : SlotRing.ofLogN ring.logN = .ok ring := SlotRing.ofLogN_eq_ok_iff.mpr rfl
  refine ⟨best.score, best.generators, exponents, earlier.map (eventLine arity),
    later.map (eventLine arity), ?_, ?_, length_eq, earliest,
    fun i => namedProduct_ne _ arity, score_eq⟩
  · have searched : search workers arity (Tuner.configOf args) = .ok (searchRing arity ring) :=
      search_of_one one_worker size arity
    rw [Tuner.run, parsed]
    simp only [mode]
    rw [Tuner.searchFor, searched, Tuner.configOf, size, accepted]
    simp only [Tuner.resultLines, found, final, events, line, List.map_append, List.map_cons,
      eventLine]
  · intro text among
    obtain ⟨event, told, rfl⟩ := List.mem_map.mp among
    obtain ⟨outer, rfl⟩ := quiet event told
    exact ⟨outer, rfl⟩

/-- The pairs of the ring with four slots. -/
theorem report_of_four_slots :
    ∃ (lines : List String) (a b c d : Nat),
      Tuner.run (.one searchRing) ["2", "--log-n", "2", "--threads", "1"] = .success (lines ++
        [s!"  1 + N/2^0 = 5 (weight 1): t={a + b} via g^{a} * h^{b}",
          s!"  1 + N/2^1 = 3 (weight 2): t={c + d} via g^{c} * h^{d}"]) := by
  obtain ⟨score, generators, exponents, earlier, markers, report, -, length_eq, earliest, -⟩ :=
    @report_of_search (.one searchRing) ["2", "--log-n", "2", "--threads", "1"] _ .pair .fourSlots
      rfl rfl rfl rfl (by decide)
  obtain ⟨a, b, first⟩ :=
    List.length_eq_two.mp ((earliest 0 (by decide)).length_eq.trans length_eq)
  obtain ⟨c, d, second⟩ :=
    List.length_eq_two.mp ((earliest 1 (by decide)).length_eq.trans length_eq)
  have line₀ : exponentsLine .fourSlots .pair 0 [a, b]
      = s!"  1 + N/2^0 = 5 (weight 1): t={a + b} via g^{a} * h^{b}" := by
    have target_eq : SlotRing.fourSlots.target 0 = 5 := by decide
    unfold exponentsLine namedProduct
    simp [String.ext_iff, toString, target_eq, SlotRing.weight, Nat.toDigits_of_lt_base]
  have line₁ : exponentsLine .fourSlots .pair 1 [c, d]
      = s!"  1 + N/2^1 = 3 (weight 2): t={c + d} via g^{c} * h^{d}" := by
    have target_eq : SlotRing.fourSlots.target 1 = 3 := by decide
    unfold exponentsLine namedProduct
    simp [String.ext_iff, toString, target_eq, SlotRing.weight, Nat.toDigits_of_lt_base]
  have targets : (List.range SlotRing.fourSlots.logN) = [0, 1] := rfl
  rw [targets, List.map_cons, List.map_cons, first, second, line₀, line₁] at report
  refine ⟨earlier ++ namedGenerators score generators .pair :: markers ++
    [statsLine (searchRing .pair .fourSlots).stats,
      s!"final: {namedGenerators score generators .pair}"], a, b, c, d, report.trans ?_⟩
  simp

end PirTuning.Program
