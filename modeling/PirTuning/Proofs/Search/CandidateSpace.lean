import Mathlib.Data.List.Lex
import Mathlib.Data.Set.Function
import PirTuning.Proofs.Search.GeneratorSets
import PirTuning.Proofs.Search.Itinerary

/-!
# The space of the candidates

Candidates come in ascending lexicographic order, each once.  Forgetting the order of its
generators turns a candidate into a set, and every set of the right size comes from one
candidate: among the triples a set of two is the candidate that has its smaller number
twice.  A search does not step through the candidates but counts off each row; it
comes to the same list.
-/

namespace PirTuning.Search

open Walk Rotation

variable {modulus : Nat} {arity : Arity} {generators : List Nat}

/-! ## Order -/

theorem exists_tail_of_mem_setsFrom {outer : Nat}
    (member : generators ∈ arity.setsFrom modulus outer) : ∃ tail, generators = outer :: tail := by
  cases arity with
  | pair =>
    obtain ⟨h, _, rfl⟩ := List.mem_map.mp member
    exact ⟨[h], rfl⟩
  | triple =>
    obtain ⟨g, _, among⟩ := List.mem_flatMap.mp member
    obtain ⟨h, _, rfl⟩ := List.mem_map.mp among
    exact ⟨[g, h], rfl⟩

theorem pairwise_setsFrom (arity : Arity) (modulus outer : Nat) :
    (arity.setsFrom modulus outer).Pairwise (List.Lex (· < ·)) := by
  cases arity with
  | pair =>
    rw [Arity.setsFrom, List.pairwise_map]
    exact (pairwise_everyOther _ modulus).imp fun less => .cons (.rel less)
  | triple =>
    rw [Arity.setsFrom, List.pairwise_flatMap]
    constructor
    · intro g _
      rw [List.pairwise_map]
      exact (pairwise_everyOther _ modulus).imp fun less => .cons (.cons (.rel less))
    · refine (pairwise_everyOther outer modulus).imp fun less a a_member b b_member => ?_
      obtain ⟨h, _, rfl⟩ := List.mem_map.mp a_member
      obtain ⟨h', _, rfl⟩ := List.mem_map.mp b_member
      exact .cons (.rel less)

theorem pairwise_generatorSets (arity : Arity) (modulus : Nat) :
    (arity.generatorSets modulus).Pairwise (List.Lex (· < ·)) := by
  rw [generatorSets_eq, List.pairwise_flatMap]
  refine ⟨fun outer _ => pairwise_setsFrom arity modulus outer, ?_⟩
  refine (pairwise_everyOther firstGenerator modulus).imp fun less a a_member b b_member => ?_
  obtain ⟨tail, rfl⟩ := exists_tail_of_mem_setsFrom a_member
  obtain ⟨tail', rfl⟩ := exists_tail_of_mem_setsFrom b_member
  exact .rel less

theorem nodup_generatorSets (arity : Arity) (modulus : Nat) :
    (arity.generatorSets modulus).Nodup :=
  (pairwise_generatorSets arity modulus).nodup

/-! ## Sets -/

/-- The candidate with some ascending generators. -/
def Arity.candidateOf : Arity → List Nat → List Nat
  | .triple, [g, h] => [g, g, h]
  | _, ascending => ascending

theorem sort_ascending {ascending : List Nat} (pairwise : ascending.Pairwise (· < ·)) :
    ascending.toFinset.sort (· ≤ ·) = ascending :=
  (List.toFinset_sort _ (pairwise.imp Nat.ne_of_lt)).mpr (pairwise.imp Nat.le_of_lt)

theorem card_ascending {ascending : List Nat} (pairwise : ascending.Pairwise (· < ·)) :
    ascending.toFinset.card = ascending.length :=
  List.toFinset_card_of_nodup (pairwise.imp Nat.ne_of_lt)

/-- A candidate is spelled by the ascending list of its generators. -/
theorem exists_ascending_of_mem (member : generators ∈ arity.generatorSets modulus) :
    ∃ ascending : List Nat, ascending.Pairwise (· < ·) ∧ 2 ≤ ascending.length ∧
      ascending.length ≤ arity.size ∧ ascending.toFinset = generators.toFinset ∧
      arity.candidateOf ascending = generators := by
  cases arity with
  | pair =>
    obtain ⟨g, h, rfl, -, -, -, lt, -⟩ := mem_pairs.mp member
    exact ⟨[g, h], by simpa using lt, Nat.le_refl 2, Nat.le_refl 2, rfl, rfl⟩
  | triple =>
    obtain ⟨f, g, h, rfl, -, -, -, -, le, lt, -⟩ := mem_triples.mp member
    rcases Nat.lt_or_eq_of_le le with less | rfl
    · refine ⟨[f, g, h], ?_, by simp, Nat.le_refl 3, rfl, rfl⟩
      simpa using ⟨⟨less, Nat.lt_trans less lt⟩, lt⟩
    · refine ⟨[f, h], by simpa using lt, Nat.le_refl 2, ?_, by simp, rfl⟩
      exact Nat.le_succ 2

/-- Candidates and sets of generators correspond to each other. -/
theorem bijOn_toFinset (arity : Arity) (modulus : Nat) :
    Set.BijOn List.toFinset {generators | generators ∈ arity.generatorSets modulus}
      {residues | 2 ≤ residues.card ∧ residues.card ≤ arity.size ∧
        ∀ r ∈ residues, Odd r ∧ 3 ≤ r ∧ r < modulus} := by
  refine ⟨?_, ?_, ?_⟩
  · intro generators member
    obtain ⟨ascending, pairwise, two_le, le_size, same, -⟩ := exists_ascending_of_mem member
    refine ⟨?_, ?_, fun r among => ?_⟩
    · rwa [← same, card_ascending pairwise]
    · rwa [← same, card_ascending pairwise]
    · exact (forall_of_mem_generatorSets member).2 r (List.mem_toFinset.mp among)
  · have recovers : Set.LeftInvOn (fun residues => arity.candidateOf (residues.sort (· ≤ ·)))
        List.toFinset {generators | generators ∈ arity.generatorSets modulus} := by
      intro generators member
      obtain ⟨ascending, pairwise, -, -, same, spelled⟩ := exists_ascending_of_mem member
      change arity.candidateOf (generators.toFinset.sort (· ≤ ·)) = generators
      rw [← same, sort_ascending pairwise, spelled]
    exact recovers.injOn
  · rintro residues ⟨two_le, le_size, candidates⟩
    exact exists_generatorSet candidates two_le le_size

/-! ## Rows counted off -/

/-- The last generators of a row by their index: as many as fit in, two apart. -/
def countedValues (last modulus : Nat) : List Nat :=
  (List.range ((modulus - (last + 2) + 1) / 2)).map fun j => last + 2 + 2 * j

/-- The candidates row by row, each row counted off. -/
def Arity.countedSets (modulus : Nat) : Arity → List (List Nat)
  | .pair => (pairRows modulus).toList.flatMap fun g =>
      (countedValues g modulus).map fun h => [g, h]
  | .triple => (tripleRows modulus).toList.flatMap fun (f, g) =>
      (countedValues g modulus).map fun h => [f, g, h]

theorem toList_everyOther_eq_map (start stop : Nat) :
    (everyOther start stop).toList
      = (List.range ((stop - start + 1) / 2)).map fun j => start + 2 * j := by
  by_cases lt : start < stop
  · have more : (stop - start + 1) / 2 = (stop - (start + 2) + 1) / 2 + 1 := by omega
    rw [toList_everyOther_of_lt lt, toList_everyOther_eq_map (start + 2) stop, more,
      List.range_succ_eq_map, List.map_cons, List.map_map]
    congr 1
    apply List.map_congr_left
    intro j _
    simp only [Function.comp_apply]
    omega
  · have none_left : (stop - start + 1) / 2 = 0 := by omega
    rw [toList_everyOther_of_le (Nat.not_lt.mp lt), none_left]
    rfl
termination_by stop - start

theorem toList_innerValues (last modulus : Nat) :
    (innerValues last modulus).toList = countedValues last modulus :=
  toList_everyOther_eq_map (last + 2) modulus

theorem countedSets_eq (arity : Arity) (modulus : Nat) :
    arity.countedSets modulus = arity.generatorSets modulus := by
  cases arity with
  | pair =>
    rw [Arity.generatorSets, toList_pairCandidates, List.map_flatMap]
    simp only [List.map_map, Function.comp_def, Arity.countedSets, toList_innerValues]
  | triple =>
    rw [Arity.generatorSets, toList_tripleCandidates, List.map_flatMap]
    simp only [List.map_map, Function.comp_def, Arity.countedSets, toList_innerValues]

/-! ## Room for the next value -/

theorem odd_of_mem_tripleRows {f g : Nat} (member : (f, g) ∈ (tripleRows modulus).toList) :
    Odd g ∧ g < modulus := by
  rw [toList_tripleRows] at member
  obtain ⟨f', f'_member, among⟩ := List.mem_flatMap.mp member
  obtain ⟨g', g'_member, same⟩ := List.mem_map.mp among
  cases same
  obtain ⟨g_odd, -, lt⟩ := (mem_everyOther_of_odd (mem_pairRows.mp f'_member).1).mp g'_member
  exact ⟨g_odd, lt⟩

/-- An odd number below a word is not the largest one but one, so two more is a word. -/
theorem add_two_lt_size {g : Nat} (odd : Odd g) (modulus : UInt64) (lt : g < modulus.toNat) :
    g + 2 < UInt64.size := by
  have below : modulus.toNat < UInt64.size := modulus.toNat_lt_size
  obtain ⟨k, rfl⟩ := odd
  simp only [UInt64.size] at below ⊢
  omega

/-! ## The enumeration -/

/-- The candidates of a modulus of 64 bits are the ascending lists of odd numbers from 3 on,
    where a triple may begin with the same number twice, each once and in lexicographic
    order.  As sets they are all sets of the right size, each once, and no row is followed by a
    value that does not fit into a word.  A search of a ring considers the same list, one row
    after the other and each counted off. -/
theorem candidate_space (modulus : UInt64) :
    (∀ generators, generators ∈ Arity.pair.generatorSets modulus.toNat ↔
      ∃ g h, generators = [g, h] ∧ Odd g ∧ Odd h ∧ 3 ≤ g ∧ g < h ∧ h < modulus.toNat) ∧
    (∀ generators, generators ∈ Arity.triple.generatorSets modulus.toNat ↔
      ∃ f g h, generators = [f, g, h] ∧ Odd f ∧ Odd g ∧ Odd h ∧ 3 ≤ f ∧ f ≤ g ∧ g < h ∧
        h < modulus.toNat) ∧
    (∀ arity : Arity, (arity.generatorSets modulus.toNat).Pairwise (List.Lex (· < ·)) ∧
      (arity.generatorSets modulus.toNat).Nodup ∧
      Set.BijOn List.toFinset {generators | generators ∈ arity.generatorSets modulus.toNat}
        {residues | 2 ≤ residues.card ∧ residues.card ≤ arity.size ∧
          ∀ r ∈ residues, Odd r ∧ 3 ≤ r ∧ r < modulus.toNat}) ∧
    (∀ g ∈ (pairRows modulus.toNat).toList, g + 2 < UInt64.size) ∧
    (∀ row ∈ (tripleRows modulus.toNat).toList, row.2 + 2 < UInt64.size) ∧
    ∀ (arity : Arity) (ring : SlotRing),
      arity.countedSets ring.modulus = arity.generatorSets ring.modulus ∧
      (∀ (p : Progress) (last : Nat) (candidate : Nat → List Nat),
        p.row ring last candidate
          = ((countedValues last ring.modulus).map candidate).foldl (Progress.consider ring) p) ∧
      searchRing arity ring
        = ((itinerary arity ring.modulus).foldl (Progress.visit ring) {}).finish ∧
      (itinerary arity ring.modulus).filterMap Stop.candidate?
        = arity.generatorSets ring.modulus := by
  refine ⟨fun _ => mem_pairs, fun _ => mem_triples, fun arity =>
    ⟨pairwise_generatorSets arity _, nodup_generatorSets arity _, bijOn_toFinset arity _⟩,
    ?_, ?_, ?_⟩
  · intro g member
    obtain ⟨g_odd, -, lt⟩ := mem_pairRows.mp member
    exact add_two_lt_size g_odd modulus lt
  · rintro ⟨f, g⟩ member
    obtain ⟨g_odd, lt⟩ := odd_of_mem_tripleRows member
    exact add_two_lt_size g_odd modulus lt
  · intro arity ring
    refine ⟨countedSets_eq arity ring.modulus, fun p last candidate => ?_, searchRing_eq arity ring,
      candidates_itinerary arity ring.modulus⟩
    rw [row_eq, toList_innerValues]

end PirTuning.Search
