import Mathlib.Data.Nat.Choose.Basic
import PirTuning.Proofs.Search.GeneratorSets
import PirTuning.Proofs.Search.Interleaving

/-!
# The report of a single worker

A worker on its own prunes each candidate against the best score so far, and yet it
reports as if nothing were pruned: an improvement for each candidate that is cheaper
than all feasible ones before it, and in between the marked outermost generators,
each before its own candidates.  `trace` is that report, told from the unpruned costs
along an itinerary, and `Alone` carries it through the run.
-/

namespace PirTuning.Search

open Rotation Walk

/-! ## The report -/

/-- The cost is below those of all feasible sets among some. -/
def beatsAll (ring : SlotRing) (sets : List (List Nat)) (cost : Nat) : Bool :=
  sets.all fun g => (evaluate ring g noCeiling).cost?.all fun earlier => cost < earlier

/-- What is told about a candidate, given the candidates before it. -/
def improvement? (ring : SlotRing) (earlier : List (List Nat)) (generators : List Nat) :
    Option Event :=
  match evaluate ring generators noCeiling with
  | .feasible cost _ =>
    if beatsAll ring earlier cost then some (.improved cost generators) else none
  | .pruned _ _ => none
  | .exhausted => none

/-- What is told along some stops, given the candidates before them. -/
def trace (ring : SlotRing) (earlier : List (List Nat)) : List Stop → List Event
  | [] => []
  | .announce outer :: stops => .progress outer :: trace ring earlier stops
  | .consider generators :: stops =>
    (improvement? ring earlier generators).toList ++ trace ring (earlier ++ [generators]) stops

variable {ring : SlotRing} {arity : Arity} {modulus : Nat} {sets : List (List Nat)}
  {events : List Event} {p : Progress} {generators : List Nat}

theorem cost?_eq_some_iff {evaluation : Evaluation} {cost : Nat} :
    evaluation.cost? = some cost ↔ ∃ times, evaluation = .feasible cost times := by
  cases evaluation <;> simp

theorem beatsAll_iff {cost : Nat} :
    beatsAll ring sets cost = true ↔ ∀ g ∈ sets, ∀ cost' times,
      evaluate ring g noCeiling = .feasible cost' times → cost < cost' := by
  simp only [beatsAll, List.all_eq_true, Option.all_eq_true, decide_eq_true_eq, cost?_eq_some_iff,
    forall_exists_index]

theorem improvement?_eq_some_iff {event : Event} :
    improvement? ring sets generators = some event ↔ ∃ cost times,
      evaluate ring generators noCeiling = .feasible cost times ∧
        beatsAll ring sets cost = true ∧ event = .improved cost generators := by
  unfold improvement?
  cases evaluate ring generators noCeiling with
  | feasible cost times =>
    simp only [Option.ite_none_right_eq_some, Option.some.injEq]
    constructor
    · rintro ⟨beaten, rfl⟩
      exact ⟨cost, times, rfl, beaten, rfl⟩
    · rintro ⟨_, _, own, beaten, rfl⟩
      obtain ⟨rfl, rfl⟩ := Evaluation.feasible.inj own
      exact ⟨beaten, rfl⟩
  | pruned depth bound => simp
  | exhausted => simp

/-! ## One candidate -/

/-- What has to be beaten is the cheapest set so far. -/
theorem lt_bar_iff (some_generator : ∀ g ∈ sets, 0 < g.length) {cost : Nat}
    (small : cost < noCeiling) :
    cost < bar (minima (feasibleSets ring sets)).getLast? ↔ beatsAll ring sets cost = true := by
  have bounded : ∀ best ∈ feasibleSets ring sets, best.score < noCeiling :=
    fun best member => score_lt_of_mem_feasibleSets some_generator member
  rw [getLast?_minima bounded, beatsAll_iff]
  -- the bar is the cost of the cheapest set, which stands for all of them
  cases least : (feasibleSets ring sets).argmin Best.score with
  | none =>
    rw [List.argmin_eq_none, feasibleSets_eq_nil_iff] at least
    exact ⟨fun _ g member cost' times own => absurd own (least g member cost' times),
      fun _ => small⟩
  | some best =>
    obtain ⟨member, own⟩ := mem_feasibleSets.mp (List.argmin_mem least)
    constructor
    · intro beaten g g_member cost' times g_own
      have candidate : (⟨cost', g, times⟩ : Best) ∈ feasibleSets ring sets :=
        mem_feasibleSets.mpr ⟨g_member, g_own⟩
      exact Nat.lt_of_lt_of_le beaten (List.le_of_mem_argmin candidate least)
    · intro beaten
      exact beaten _ member _ _ own

/-- Against the current ceiling exactly the improvements come out feasible. -/
theorem consider_cases (accounts : Accounts ring sets p)
    (some_generator : ∀ g ∈ sets, 0 < g.length) (own_generator : 0 < generators.length) :
    (∃ cost times,
      improvement? ring sets generators = some (.improved cost generators) ∧
      p.consider ring generators
        = { shared := .holding (some ⟨cost, generators, times⟩)
            tally := (p.tally.count (.feasible cost times)).improve
            events := p.events ++ [.improved cost generators] }) ∨
    improvement? ring sets generators = none ∧
      (∀ cost times, evaluate ring generators p.shared.ceiling ≠ .feasible cost times) ∧
      p.consider ring generators
        = { p with tally := p.tally.count (evaluate ring generators p.shared.ceiling) } := by
  have ceiling_eq : p.shared.ceiling = bar (minima (feasibleSets ring sets)).getLast? := by
    rw [accounts.shared, Shared.ceiling_holding]
  -- the ceiling is the least cost so far, so to be below it is to beat all sets before
  have feasible_iff : ∀ {cost times},
      evaluate ring generators p.shared.ceiling = .feasible cost times ↔
        evaluate ring generators noCeiling = .feasible cost times ∧
          beatsAll ring sets cost = true := by
    intro cost times
    rw [evaluate_eq_feasible_iff own_generator, evaluate_noCeiling own_generator, ceiling_eq]
    refine and_congr_right fun own => lt_bar_iff some_generator ?_
    rw [(verdict_eq_feasible_iff.mp own).1]
    exact lowerBound_lt_noCeiling (lastDepth_lt ring generators)
  by_cases feasible : ∃ cost times, evaluate ring generators p.shared.ceiling = .feasible cost times
  · obtain ⟨cost, times, result⟩ := feasible
    obtain ⟨own, beaten⟩ := feasible_iff.mp result
    refine .inl ⟨cost, times, improvement?_eq_some_iff.mpr ⟨cost, times, own, beaten, rfl⟩, ?_⟩
    have below : cost < bar (minima (feasibleSets ring sets)).getLast? := by
      rw [← ceiling_eq]
      exact ((evaluate_eq_feasible_iff own_generator).mp result).2
    rw [Progress.consider, result]
    exact Progress.settle_of_lt accounts.shared ⟨cost, generators, times⟩ below
  · have cut : ∀ cost times, evaluate ring generators p.shared.ceiling ≠ .feasible cost times :=
      fun cost times result => feasible ⟨cost, times, result⟩
    refine .inr ⟨?_, cut, p.settle_of_not_feasible generators cut⟩
    rw [Option.eq_none_iff_forall_ne_some]
    intro event told
    obtain ⟨cost, times, own, beaten, _⟩ := improvement?_eq_some_iff.mp told
    exact cut cost times (feasible_iff.mpr ⟨own, beaten⟩)

/-! ## The whole run -/

/-- Where a single worker is after some candidates and what it has told so far. -/
structure Alone (ring : SlotRing) (sets : List (List Nat)) (events : List Event) (p : Progress) :
    Prop where
  accounts : Accounts ring sets p
  some_generator : ∀ g ∈ sets, 0 < g.length
  events_eq : p.events = events
  feasible_eq : p.tally.feasible = p.tally.improvements

namespace Alone

theorem start (ring : SlotRing) : Alone ring [] [] {} where
  accounts := Settled.start.accounts
  some_generator := by simp
  events_eq := rfl
  feasible_eq := rfl

theorem announce (alone : Alone ring sets events p) (outer : Nat) :
    Alone ring sets (events ++ [.progress outer]) (p.tell (.progress outer)) where
  accounts := alone.accounts.announce outer
  some_generator := alone.some_generator
  events_eq := by rw [Progress.tell, alone.events_eq]
  feasible_eq := alone.feasible_eq

theorem consider (alone : Alone ring sets events p) (own_generator : 0 < generators.length) :
    Alone ring (sets ++ [generators]) (events ++ (improvement? ring sets generators).toList)
      (p.consider ring generators) := by
  have some_generator : ∀ g ∈ sets ++ [generators], 0 < g.length := by
    intro g member
    rcases List.mem_append.mp member with earlier | own
    · exact alone.some_generator g earlier
    · rwa [List.mem_singleton.mp own]
  have accounts : Accounts ring (sets ++ [generators]) (p.consider ring generators) :=
    alone.accounts.settle own_generator (Nat.le_refl _)
  refine ⟨accounts, some_generator, ?_, ?_⟩
  all_goals
    rcases consider_cases alone.accounts alone.some_generator own_generator with
      ⟨cost, times, told, after⟩ | ⟨told, cut, after⟩
    all_goals rw [after]
  · rw [told, Option.toList_some, alone.events_eq]
  · rw [told, Option.toList_none, List.append_nil]
    exact alone.events_eq
  · exact congrArg (· + 1) alone.feasible_eq
  · change (p.tally.count _).feasible = (p.tally.count _).improvements
    rw [p.tally.feasible_count_of_not_feasible cut, Tally.improvements_count]
    exact alone.feasible_eq

theorem foldl_visit (alone : Alone ring sets events p) (stops : List Stop)
    (some_generator : ∀ g ∈ stops.filterMap Stop.candidate?, 0 < g.length) :
    Alone ring (sets ++ stops.filterMap Stop.candidate?) (events ++ trace ring sets stops)
      (stops.foldl (Progress.visit ring) p) := by
  induction stops generalizing sets events p with
  | nil => simpa [trace] using alone
  | cons stop stops ih =>
    cases stop with
    | announce outer =>
      have rest := ih (alone.announce outer) some_generator
      rwa [List.append_assoc] at rest
    | consider generators =>
      have rest := ih (alone.consider (some_generator _ List.mem_cons_self)) fun g member =>
        some_generator g (List.mem_cons_of_mem _ member)
      rwa [List.append_assoc, List.append_assoc] at rest

end Alone

theorem alone_soloRun (arity : Arity) (ring : SlotRing) :
    Alone ring (arity.generatorSets ring.modulus) (trace ring [] (itinerary arity ring.modulus))
      (soloRun ring (itinerary arity ring.modulus)) := by
  have alone := (Alone.start ring).foldl_visit (itinerary arity ring.modulus)
  rw [candidates_itinerary] at alone
  exact alone length_pos_of_mem_generatorSets

/-! ## Improvements in the report -/

theorem mem_trace_iff {stops : List Stop} {cost : Nat} :
    .improved cost generators ∈ trace ring sets stops ↔
      ∃ before after, stops.filterMap Stop.candidate? = before ++ generators :: after ∧
        improvement? ring (sets ++ before) generators = some (.improved cost generators) := by
  -- the sets that were seen before grow with every candidate
  induction stops generalizing sets with
  | nil => simp [trace]
  | cons stop stops ih =>
    cases stop with
    | announce outer =>
      rw [trace, List.mem_cons, or_iff_right Event.noConfusion, ih]
      rfl
    | consider first =>
      have candidates_eq : (Stop.consider first :: stops).filterMap Stop.candidate?
          = first :: stops.filterMap Stop.candidate? := rfl
      rw [trace, List.mem_append, Option.mem_toList, ih, candidates_eq]
      constructor
      · rintro (told | ⟨before, after, later, told⟩)
        · obtain ⟨_, _, _, _, same⟩ := improvement?_eq_some_iff.mp told
          obtain ⟨_, rfl⟩ := Event.improved.inj same
          exact ⟨[], _, rfl, by simpa using told⟩
        · exact ⟨first :: before, after, by rw [later, List.cons_append], by simpa using told⟩
      · rintro ⟨before, after, split, told⟩
        cases before with
        | nil =>
          obtain ⟨rfl, _⟩ := List.cons.inj split
          exact .inl (by simpa using told)
        | cons other before =>
          obtain ⟨rfl, later⟩ := List.cons.inj split
          exact .inr ⟨before, after, later, by simpa using told⟩

/-! ## Announcements in the report -/

/-- The outermost generator that an event announces. -/
def Event.announced? : Event → Option Nat
  | .progress outer => some outer
  | .improved _ _ => none

/-- The outermost generator that is announced at a stop. -/
def Stop.announced? : Stop → Option Nat
  | .announce outer => some outer
  | .consider _ => none

theorem announced_trace (ring : SlotRing) (sets : List (List Nat)) (stops : List Stop) :
    (trace ring sets stops).filterMap Event.announced? = stops.filterMap Stop.announced? := by
  induction stops generalizing sets with
  | nil => rfl
  | cons stop stops ih =>
    cases stop with
    | announce outer => exact congrArg (outer :: ·) (ih sets)
    | consider generators =>
      have silent : (improvement? ring sets generators).toList.filterMap Event.announced? = [] := by
        cases told : improvement? ring sets generators with
        | none => rfl
        | some event =>
          obtain ⟨_, _, _, _, rfl⟩ := improvement?_eq_some_iff.mp told
          rfl
      rw [trace, List.filterMap_append, silent, ih]
      rfl

theorem announced_itinerary (arity : Arity) (modulus : Nat) :
    (itinerary arity modulus).filterMap Stop.announced?
      = (pairRows modulus).toList.filter (· % arity.progressInterval = 1) := by
  rw [itinerary, List.filterMap_flatMap, ← List.filterMap_eq_filter,
    List.filterMap_eq_flatMap_toList]
  congr 1
  funext outer
  have silent : ((arity.setsFrom modulus outer).map Stop.consider).filterMap Stop.announced? = [] := by
    rw [List.filterMap_map]
    exact List.filterMap_eq_nil_iff.mpr fun _ _ => rfl
  rw [Arity.block, List.filterMap_append, silent, List.append_nil, Arity.marker]
  by_cases marked : outer % arity.progressInterval = 1
  · simp [marked, Stop.announced?, Option.guard]
  · simp [marked, Option.guard]

/-! ## The order of the report -/

/-- The stop at which an event is told. -/
def Event.stop : Event → Stop
  | .progress outer => .announce outer
  | .improved _ generators => .consider generators

/-- The outermost generator at a stop. -/
def Stop.outer : Stop → Nat
  | .announce outer => outer
  | .consider generators => generators.headD 0

/-- A smaller outermost generator comes first, and what comes after another stop of
    the same one is a candidate. -/
def Stop.Before (earlier later : Stop) : Prop :=
  earlier.outer < later.outer ∨ earlier.outer = later.outer ∧ later.candidate?.isSome

/-- Nothing is told out of turn. -/
theorem trace_sublist (ring : SlotRing) (sets : List (List Nat)) (stops : List Stop) :
    ((trace ring sets stops).map Event.stop).Sublist stops := by
  induction stops generalizing sets with
  | nil => exact .slnil
  | cons stop stops ih =>
    cases stop with
    | announce outer => exact (ih sets).cons_cons _
    | consider generators =>
      cases told : improvement? ring sets generators with
      | none =>
        rw [trace, told]
        exact (ih _).cons _
      | some event =>
        obtain ⟨_, _, _, _, rfl⟩ := improvement?_eq_some_iff.mp told
        rw [trace, told]
        exact (ih _).cons_cons _

theorem head_of_mem_setsFrom {outer : Nat} (member : generators ∈ arity.setsFrom modulus outer) :
    generators.headD 0 = outer := by
  cases arity with
  | pair =>
    obtain ⟨h, _, rfl⟩ := List.mem_map.mp member
    rfl
  | triple =>
    obtain ⟨g, _, inside⟩ := List.mem_flatMap.mp member
    obtain ⟨h, _, rfl⟩ := List.mem_map.mp inside
    rfl

theorem outer_of_mem_block {outer : Nat} {stop : Stop} (member : stop ∈ arity.block modulus outer) :
    stop.outer = outer := by
  rcases List.mem_append.mp member with marked | considered
  · unfold Arity.marker at marked
    split at marked
    · rw [List.mem_singleton.mp marked, Stop.outer]
    · cases marked
  · obtain ⟨generators, inside, rfl⟩ := List.mem_map.mp considered
    exact head_of_mem_setsFrom inside

theorem pairwise_block (arity : Arity) (modulus outer : Nat) :
    (arity.block modulus outer).Pairwise Stop.Before := by
  rw [Arity.block, List.pairwise_append]
  refine ⟨?_, ?_, ?_⟩
  · unfold Arity.marker
    split
    · exact List.pairwise_singleton _ _
    · exact .nil
  · refine List.pairwise_map.mpr (List.pairwise_of_forall_mem_list fun a a_member b b_member => ?_)
    exact .inr ⟨(head_of_mem_setsFrom a_member).trans (head_of_mem_setsFrom b_member).symm, rfl⟩
  · intro a marked b considered
    have inside_block : a ∈ arity.block modulus outer := List.mem_append_left _ marked
    have a_outer := outer_of_mem_block inside_block
    obtain ⟨generators, inside, rfl⟩ := List.mem_map.mp considered
    exact .inr ⟨a_outer.trans (head_of_mem_setsFrom inside).symm, rfl⟩

theorem pairwise_itinerary (arity : Arity) (modulus : Nat) :
    (itinerary arity modulus).Pairwise Stop.Before := by
  rw [itinerary, List.pairwise_flatMap]
  refine ⟨fun outer _ => pairwise_block arity modulus outer, ?_⟩
  refine (pairwise_everyOther firstGenerator modulus).imp fun lt a a_member b b_member => ?_
  left
  rwa [outer_of_mem_block a_member, outer_of_mem_block b_member]

theorem pairwise_trace (arity : Arity) (ring : SlotRing) :
    (trace ring [] (itinerary arity ring.modulus)).Pairwise
      fun earlier later => earlier.stop.Before later.stop :=
  List.pairwise_map.mp
    ((pairwise_itinerary arity ring.modulus).sublist (trace_sublist ring [] _))

/-! ## The number of candidates -/

theorem length_everyOther (start stop : Nat) :
    (everyOther start stop).toList.length = (stop - start + 1) / 2 := by
  by_cases lt : start < stop
  · rw [toList_everyOther_of_lt lt, List.length_cons, length_everyOther (start + 2) stop]
    omega
  · rw [toList_everyOther_of_le (Nat.not_lt.mp lt), List.length_nil]
    omega
termination_by stop - start

/-- Two ascending values from `start` on. -/
theorem length_pairsFrom (pack : Nat → Nat → List Nat) (start modulus : Nat) :
    ((everyOther start modulus).toList.flatMap fun g =>
        (innerValues g modulus).toList.map (pack g)).length
      = ((modulus - start + 1) / 2).choose 2 := by
  by_cases lt : start < modulus
  · have more : (modulus - start + 1) / 2 = (modulus - (start + 2) + 1) / 2 + 1 := by omega
    rw [toList_everyOther_of_lt lt, List.flatMap_cons, List.length_append, List.length_map,
      length_pairsFrom pack (start + 2) modulus, innerValues, length_everyOther, more,
      Nat.choose_succ_succ, Nat.choose_one_right]
  · have none_left : (modulus - start + 1) / 2 = 0 := by omega
    rw [toList_everyOther_of_le (Nat.not_lt.mp lt), none_left]
    rfl
termination_by modulus - start

/-- Three ascending values from `start` on, where the first two may be the same. -/
theorem length_triplesFrom (start modulus : Nat) :
    ((everyOther start modulus).toList.flatMap (Arity.triple.setsFrom modulus)).length
      = ((modulus - start + 1) / 2 + 1).choose 3 := by
  by_cases lt : start < modulus
  · have more : (modulus - start + 1) / 2 = (modulus - (start + 2) + 1) / 2 + 1 := by omega
    rw [toList_everyOther_of_lt lt, List.flatMap_cons, List.length_append,
      length_triplesFrom (start + 2) modulus, Arity.setsFrom, length_pairsFrom, ← more,
      Nat.choose_succ_succ]
  · have none_left : (modulus - start + 1) / 2 = 0 := by omega
    rw [toList_everyOther_of_le (Nat.not_lt.mp lt), none_left]
    rfl
termination_by modulus - start

theorem choose_three (n : Nat) : n.choose 3 = n * (n - 1) * (n - 2) / 6 := by
  rw [Nat.choose_eq_descFactorial_div_factorial]
  congr 1
  simp only [Nat.descFactorial_succ, Nat.descFactorial_zero, Nat.sub_zero, Nat.mul_one]
  rw [Nat.mul_comm, Nat.mul_comm (n - 1)]

/-- Number of candidates in a ring of so many slots. -/
def Arity.count (slots : Nat) : Arity → Nat
  | .pair => (slots - 1) * (slots - 2) / 2
  | .triple => slots * (slots - 1) * (slots - 2) / 6

theorem length_generatorSets (arity : Arity) (ring : SlotRing) :
    (arity.generatorSets ring.modulus).length = arity.count ring.slots := by
  have two_le : 2 ≤ ring.slots := by
    rw [ring.slots_eq]
    exact Nat.le_self_pow (Nat.ne_of_gt ring.logN_pos) 2
  have values : (ring.modulus - firstGenerator + 1) / 2 = ring.slots - 1 := by
    rw [SlotRing.modulus, firstGenerator]
    omega
  rw [generatorSets_eq, pairRows]
  cases arity with
  | pair =>
    have pairs := length_pairsFrom (fun g h => [g, h]) firstGenerator ring.modulus
    rwa [values, Nat.choose_two_right, Nat.sub_sub] at pairs
  | triple =>
    rw [length_triplesFrom, values, Nat.sub_add_cancel (by omega), choose_three]
    rfl

/-! ## The report of a search -/

/-- A search by a single worker reports what the unpruned costs along its itinerary
    tell: each marked outermost generator once and before all improvements that have
    it, or a larger one, outermost, and an improvement for exactly those candidates
    that are strictly cheaper than every feasible one before them.  All its feasible
    evaluations are improvements, and it evaluates every candidate. -/
theorem report_of_single_worker (workers : SearchWorkers) (arity : Arity) (ring : SlotRing) :
    search workers arity { logN := ring.logN, threads := some 1 } = .ok (searchRing arity ring) ∧
    (searchRing arity ring).events = trace ring [] (itinerary arity ring.modulus) ∧
    (searchRing arity ring).events.filterMap Event.announced?
      = (pairRows ring.modulus).toList.filter (· % arity.progressInterval = 1) ∧
    (∀ cost generators, .improved cost generators ∈ (searchRing arity ring).events ↔
      ∃ before after times, arity.generatorSets ring.modulus = before ++ generators :: after ∧
        evaluate ring generators noCeiling = .feasible cost times ∧
        ∀ g ∈ before, ∀ cost' times',
          evaluate ring g noCeiling = .feasible cost' times' → cost < cost') ∧
    ((searchRing arity ring).events.Pairwise fun earlier later =>
      earlier.stop.Before later.stop) ∧
    (searchRing arity ring).stats.improvements = (searchRing arity ring).stats.feasible ∧
    (searchRing arity ring).stats.improvements.toNat
      = ((searchRing arity ring).events.filterMap Event.call?).length ∧
    (searchRing arity ring).stats.evaluated = .ofNat (arity.count ring.slots) := by
  refine ⟨search_of_one rfl rfl arity, ?_⟩
  have alone := alone_soloRun arity ring
  have history := settled_soloRun arity ring
  have events_eq : (soloRun ring (itinerary arity ring.modulus)).finish.events
      = trace ring [] (itinerary arity ring.modulus) := alone.events_eq
  rw [searchRing_eq, events_eq]
  refine ⟨rfl, ?_, ?_, pairwise_trace arity ring, ?_, ?_, ?_⟩
  · rw [announced_trace, announced_itinerary]
  · intro cost generators
    rw [mem_trace_iff, candidates_itinerary]
    constructor
    · rintro ⟨before, after, split, told⟩
      obtain ⟨_, times, own, beaten, same⟩ := improvement?_eq_some_iff.mp told
      obtain ⟨rfl, _⟩ := Event.improved.inj same
      exact ⟨before, after, times, split, own, beatsAll_iff.mp beaten⟩
    · rintro ⟨before, after, times, split, own, cheaper⟩
      exact ⟨before, after, split, improvement?_eq_some_iff.mpr
        ⟨cost, times, own, beatsAll_iff.mpr cheaper, rfl⟩⟩
  · exact congrArg UInt64.ofNat alone.feasible_eq.symm
  -- each improvement lowers the ceiling, so a word can count them
  · have fits : (soloRun ring (itinerary arity ring.modulus)).tally.improvements < 2 ^ 64 :=
      Nat.lt_of_le_of_lt (history.improvements_le_noCeiling length_pos_of_mem_generatorSets)
        (by decide)
    rw [← events_eq]
    exact (UInt64.toNat_ofNat_of_lt' fits).trans history.length_calls.symm
  · rw [← length_generatorSets]
    exact congrArg UInt64.ofNat alone.accounts.evaluated

end PirTuning.Search
