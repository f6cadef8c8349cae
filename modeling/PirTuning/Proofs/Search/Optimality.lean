import PirTuning.Proofs.Rotation.Residues
import PirTuning.Proofs.Rotation.ThreeAndFive
import PirTuning.Proofs.Search.GeneratorSets
import PirTuning.Proofs.Search.Interleaving

/-!
# The candidates are enough

A search enumerates odd generators below the modulus, in ascending order and hardly
ever repeated.  Nothing is lost by that: a feasible set of any words has at least two
useful residues, and the candidate made of these is evaluated alike.  So the score of
a search is the least cost of all sets of its size, and a triple is never dearer than
the best pair, which is among the triples with one generator repeated.
-/

namespace PirTuning.Search

open Rotation

/-- What the feasible sets of `count` words of 64 bits cost. -/
def wordCosts (ring : SlotRing) (count : Nat) : Set Nat :=
  {cost | ∃ generators : List UInt64, generators.length = count ∧
    ∃ times, evaluate ring (generators.map UInt64.toNat) noCeiling = .feasible cost times}

variable {ring : SlotRing} {arity : Arity} {generators : List Nat} {modulus : Nat}

/-! ## Equivalent candidates -/

/-- Generators of different classes modulo 8 have different useful residues. -/
theorem card_oddClasses_le (eight_dvd : 8 ∣ modulus) :
    (oddClasses generators).card ≤ (usefulResidues modulus generators).card := by
  have subset : oddClasses generators ⊆ (usefulResidues modulus generators).image (· % 8) := by
    intro r member
    obtain ⟨⟨g, g_member, rfl⟩, classes⟩ := mem_oddClasses.mp member
    have class_eq : g % modulus % 8 = g % 8 := Nat.mod_mod_of_dvd g eight_dvd
    exact Finset.mem_image.mpr ⟨g % modulus,
      mem_usefulResidues.mpr ⟨⟨g, g_member, rfl⟩, by omega, by omega⟩, class_eq⟩
  exact (Finset.card_le_card subset).trans Finset.card_image_le

/-- Every feasible set has a candidate that is evaluated alike. -/
theorem exists_candidate (two_le : 2 ≤ ring.logN) (some_generator : 0 < generators.length)
    (le_size : generators.length ≤ arity.size) (feasible : Feasible ring generators) :
    ∃ candidate ∈ arity.generatorSets ring.modulus, ∀ ceiling,
      evaluate ring candidate ceiling = evaluate ring generators ceiling := by
  have two_le_card : 2 ≤ (usefulResidues ring.modulus generators).card :=
    ((feasible_iff_card_oddClasses two_le some_generator).mp feasible).trans
      (card_oddClasses_le (ring.eight_dvd_modulus two_le))
  have card_le_size := (card_usefulResidues_le ring.modulus generators).trans le_size
  obtain ⟨candidate, member, set_eq⟩ := exists_generatorSet
    (fun _ => range_of_mem_usefulResidues) two_le_card card_le_size
  have same : usefulResidues ring.modulus candidate = usefulResidues ring.modulus generators :=
    (usefulResidues_of_range (forall_of_mem_generatorSets member).2).trans set_eq
  exact ⟨candidate, member, fun ceiling => evaluate_eq_of_usefulResidues
    (length_pos_of_mem_generatorSets candidate member) some_generator same ceiling⟩

theorem exists_feasible_candidate (two_le : 2 ≤ ring.logN) (arity : Arity) :
    ∃ candidate ∈ arity.generatorSets ring.modulus, Feasible ring candidate := by
  have feasible := feasible_three_five two_le
  have le_size : [3, 5].length ≤ arity.size := by cases arity <;> decide
  obtain ⟨candidate, member, alike⟩ := exists_candidate two_le (by simp) le_size feasible
  exact ⟨candidate, member, by rwa [Feasible, alike]⟩

/-! ## Words -/

theorem map_toNat_ofNat (small : ∀ g ∈ generators, g < 2 ^ 64) :
    (generators.map UInt64.ofNat).map UInt64.toNat = generators := by
  rw [List.map_map]
  exact (List.map_congr_left fun g member => UInt64.toNat_ofNat_of_lt' (small g member)).trans
    (List.map_id generators)

theorem wordCosts_subset (ring : SlotRing) {count : Nat} (pos : 0 < count) :
    wordCosts ring count ⊆ wordCosts ring (count + 1) := by
  rintro cost ⟨generators, rfl, times, feasible⟩
  cases generators with
  | nil => cases pos
  | cons g generators =>
    -- repeating a generator is free
    refine ⟨g :: g :: generators, rfl, times, Eq.trans ?_ feasible⟩
    exact evaluate_eq_of_usefulResidues (by simp) (by simp)
      (usefulResidues_cons_of_mem _ List.mem_cons_self) noCeiling

theorem mem_wordCosts {cost : Nat} {times : List Nat}
    (member : generators ∈ arity.generatorSets ring.modulus)
    (feasible : evaluate ring generators noCeiling = .feasible cost times) :
    cost ∈ wordCosts ring arity.size := by
  obtain ⟨length_eq, range⟩ := forall_of_mem_generatorSets member
  have small : ∀ g ∈ generators, g < 2 ^ 64 := fun g inside =>
    ((range g inside).2.2.trans_le ring.modulus_le).trans (by decide)
  refine ⟨generators.map UInt64.ofNat, by rw [List.length_map, length_eq], times, ?_⟩
  rwa [map_toNat_ofNat small]

/-- What bounds the costs of the candidates bounds those of all sets of words. -/
theorem mem_lowerBounds_wordCosts (two_le : 2 ≤ ring.logN) {score : Nat}
    (least : ∀ g ∈ arity.generatorSets ring.modulus, ∀ cost times,
      evaluate ring g noCeiling = .feasible cost times → score ≤ cost) :
    score ∈ lowerBounds (wordCosts ring arity.size) := by
  rintro cost ⟨generators, length_eq, times, feasible⟩
  have size_eq : (generators.map UInt64.toNat).length = arity.size := by
    rw [List.length_map, length_eq]
  have some_generator : 0 < (generators.map UInt64.toNat).length := by
    rw [size_eq]
    cases arity <;> decide
  obtain ⟨candidate, member, alike⟩ :=
    exists_candidate two_le some_generator (Nat.le_of_eq size_eq) ⟨cost, times, feasible⟩
  exact least candidate member cost times ((alike noCeiling).trans feasible)

/-! ## The global minimum -/

/-- Whatever the order in which the candidates were settled, the record has the least
    cost of all sets of words. -/
theorem Settled.isLeast_score {sets : List (List Nat)} {p : Progress}
    (history : Settled ring sets p) (perm : sets.Perm (arity.generatorSets ring.modulus))
    (two_le : 2 ≤ ring.logN) :
    ∃ best, p.shared.record = some best ∧ IsLeast (wordCosts ring arity.size) best.score := by
  have some_generator : ∀ g ∈ sets, 0 < g.length := fun g member =>
    length_pos_of_mem_generatorSets g (perm.mem_iff.mp member)
  cases recorded : p.shared.record with
  | none =>
    obtain ⟨candidate, member, cost, times, feasible⟩ := exists_feasible_candidate two_le arity
    rw [history.record_eq some_generator, List.argmin_eq_none, feasibleSets_eq_nil_iff] at recorded
    exact absurd feasible (recorded candidate (perm.mem_iff.mpr member) cost times)
  | some best =>
    obtain ⟨member, feasible, least⟩ := history.record_spec some_generator recorded
    exact ⟨best, rfl, mem_wordCosts (perm.mem_iff.mp member) feasible,
      mem_lowerBounds_wordCosts two_le fun g inside => least g (perm.mem_iff.mpr inside)⟩

theorem isLeast_searchRing (two_le : 2 ≤ ring.logN) (arity : Arity) :
    ∃ best, (searchRing arity ring).best = some best ∧
      IsLeast (wordCosts ring arity.size) best.score := by
  rw [searchRing_eq]
  exact (settled_soloRun arity ring).isLeast_score (.refl _) two_le

/-- In a ring of at least four slots a search of either shape finds a set, and its
    score is the least cost among all feasible sets of that many words, whatever their
    parity, order and repetitions.  This holds for any number of workers and for any
    schedule of theirs.  The best triple is never dearer than the best pair. -/
theorem search_finds_global_minimum (ring : SlotRing) (two_le : 2 ≤ ring.logN) :
    (∀ workers : SearchWorkers, workers.Scheduled → ∀ arity threads, ∃ outcome best,
      search workers arity { logN := ring.logN, threads := threads } = .ok outcome ∧
      outcome.best = some best ∧ IsLeast (wordCosts ring arity.size) best.score) ∧
    (∀ arity pool, Pool.Steps ring (Pool.start arity ring) pool → pool.Done →
      ∃ best, pool.progress.finish.best = some best ∧
        IsLeast (wordCosts ring arity.size) best.score) ∧
    ∀ pair triple, (searchRing .pair ring).best = some pair →
      (searchRing .triple ring).best = some triple → triple.score ≤ pair.score := by
  have complete_least (arity : Arity) (pool : Pool)
      (run : Pool.Steps ring (Pool.start arity ring) pool) (complete : pool.Done) :
      ∃ best, pool.progress.finish.best = some best ∧
        IsLeast (wordCosts ring arity.size) best.score := by
    obtain ⟨settled, ledger⟩ :=
      (Pool.Ledger.start arity ring).steps length_pos_of_mem_generatorSets run
    exact ledger.history.isLeast_score (ledger.settled_perm complete) two_le
  refine ⟨?_, complete_least, ?_⟩
  · intro workers scheduled arity threads
    by_cases one_worker : workers.count threads = 1
    · obtain ⟨best, found, least⟩ := isLeast_searchRing two_le arity
      exact ⟨searchRing arity ring, best, search_of_one one_worker rfl arity, found, least⟩
    · obtain ⟨pool, run, complete, same, -⟩ := scheduled (workers.count threads) arity ring
      obtain ⟨best, found, least⟩ := complete_least arity pool run complete
      refine ⟨_, best, search_of_more one_worker rfl arity, same.trans found, least⟩
  · intro pair triple found found'
    obtain ⟨pair', found_pair, least⟩ := isLeast_searchRing two_le .pair
    obtain ⟨triple', found_triple, least'⟩ := isLeast_searchRing two_le .triple
    obtain rfl : pair' = pair := Option.some.inj (found_pair.symm.trans found)
    obtain rfl : triple' = triple := Option.some.inj (found_triple.symm.trans found')
    exact least.mono least' (wordCosts_subset ring Nat.zero_lt_two)

/-- With four slots 13 and 11 cost 3.  They are not enumerated, but the pair that is
    found costs no more, by whichever workers. -/
theorem search_finds_global_minimum_small :
    2 ≤ SlotRing.fourSlots.logN ∧
      (∃ outcome best, search (.one searchRing) .pair
          { logN := SlotRing.fourSlots.logN, threads := some 2 } = .ok outcome ∧
        outcome.best = some best ∧ best.score ≤ 3) ∧
      (∃ pair triple, (searchRing .pair .fourSlots).best = some pair ∧
        (searchRing .triple .fourSlots).best = some triple ∧ triple.score ≤ pair.score) ∧
      ∃ pool, Pool.Steps .fourSlots (Pool.start .pair .fourSlots) pool ∧ pool.Done ∧
        ∃ best, pool.progress.finish.best = some best ∧ best.score ≤ 3 := by
  have two_le : 2 ≤ SlotRing.fourSlots.logN := by decide
  have feasible : evaluate .fourSlots [13, 11] noCeiling = .feasible 3 [1, 1] :=
    (evaluate_noCeiling (by decide)).trans (by decide +kernel)
  have cost : 3 ∈ wordCosts .fourSlots Arity.pair.size := ⟨[13, 11], rfl, [1, 1], feasible⟩
  obtain ⟨searched, scheduled, ordered⟩ := search_finds_global_minimum .fourSlots two_le
  refine ⟨two_le, ?_, ?_, ?_⟩
  · obtain ⟨outcome, best, run, found, -, least⟩ :=
      searched (.one searchRing) scheduled_one .pair (some 2)
    exact ⟨outcome, best, run, found, least cost⟩
  · obtain ⟨pair, found, _⟩ := isLeast_searchRing two_le .pair
    obtain ⟨triple, found', _⟩ := isLeast_searchRing two_le .triple
    exact ⟨pair, triple, found, found', ordered pair triple found found'⟩
  · obtain ⟨p, run⟩ := Pool.exists_complete .fourSlots
      (Arity.pair.generatorSets SlotRing.fourSlots.modulus) {}
    obtain ⟨best, found, -, least⟩ := scheduled .pair ⟨[], [], p⟩ run ⟨rfl, rfl⟩
    exact ⟨⟨[], [], p⟩, run, ⟨rfl, rfl⟩, best, found, least cost⟩

end PirTuning.Search
