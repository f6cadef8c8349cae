import Mathlib.Algebra.Ring.Parity
import Mathlib.Data.Finset.Sort
import PirTuning.Proofs.Search.Enumeration

/-!
# The sets that are enumerated

The candidates are the ascending lists of odd numbers from 3 up to the modulus, where
a triple may begin with the same number twice.  Seen as sets these are all sets of
two, respectively of two or three, such numbers.
-/

namespace PirTuning

theorem Walk.mem_everyOther {start stop a : Nat} :
    a ∈ (everyOther start stop).toList ↔ start ≤ a ∧ a < stop ∧ (a - start) % 2 = 0 := by
  by_cases lt : start < stop
  · rw [toList_everyOther_of_lt lt, List.mem_cons, mem_everyOther]
    omega
  · rw [toList_everyOther_of_le (Nat.not_lt.mp lt)]
    simp only [List.not_mem_nil, false_iff]
    omega
termination_by stop - start

theorem Walk.pairwise_everyOther (start stop : Nat) :
    (everyOther start stop).toList.Pairwise (· < ·) := by
  by_cases lt : start < stop
  · rw [toList_everyOther_of_lt lt, List.pairwise_cons]
    refine ⟨fun a member => ?_, pairwise_everyOther (start + 2) stop⟩
    have := (mem_everyOther.mp member).1
    omega
  · rw [toList_everyOther_of_le (Nat.not_lt.mp lt)]
    exact .nil
termination_by stop - start

namespace Search

open Walk

variable {modulus : Nat}

/-- Number of generators in a set. -/
def Arity.size : Arity → Nat
  | .pair => 2
  | .triple => 3

/-! ## Members -/

theorem mem_pairRows {g : Nat} :
    g ∈ (pairRows modulus).toList ↔ Odd g ∧ 3 ≤ g ∧ g < modulus := by
  rw [pairRows, mem_everyOther, firstGenerator, Nat.odd_iff]
  omega

/-- The rows of one outermost generator. -/
theorem mem_everyOther_of_odd {f g : Nat} (odd : Odd f) :
    g ∈ (everyOther f modulus).toList ↔ Odd g ∧ f ≤ g ∧ g < modulus := by
  rw [mem_everyOther]
  rw [Nat.odd_iff] at odd ⊢
  omega

theorem mem_innerValues {g h : Nat} (odd : Odd g) :
    h ∈ (innerValues g modulus).toList ↔ Odd h ∧ g < h ∧ h < modulus := by
  rw [innerValues, mem_everyOther]
  rw [Nat.odd_iff] at odd ⊢
  omega

theorem mem_pairs {generators : List Nat} :
    generators ∈ Arity.pair.generatorSets modulus ↔
      ∃ g h, generators = [g, h] ∧ Odd g ∧ Odd h ∧ 3 ≤ g ∧ g < h ∧ h < modulus := by
  simp only [Arity.generatorSets, toList_pairCandidates, List.mem_map, List.mem_flatMap,
    mem_pairRows]
  constructor
  · rintro ⟨_, ⟨g, ⟨g_odd, three_le, _⟩, h, h_member, rfl⟩, rfl⟩
    obtain ⟨h_odd, lt, h_lt⟩ := (mem_innerValues g_odd).mp h_member
    exact ⟨g, h, rfl, g_odd, h_odd, three_le, lt, h_lt⟩
  · rintro ⟨g, h, rfl, g_odd, h_odd, three_le, lt, h_lt⟩
    exact ⟨(g, h), ⟨g, ⟨g_odd, three_le, by omega⟩, h,
      (mem_innerValues g_odd).mpr ⟨h_odd, lt, h_lt⟩, rfl⟩, rfl⟩

theorem mem_triples {generators : List Nat} :
    generators ∈ Arity.triple.generatorSets modulus ↔
      ∃ f g h, generators = [f, g, h] ∧ Odd f ∧ Odd g ∧ Odd h ∧ 3 ≤ f ∧ f ≤ g ∧ g < h ∧
        h < modulus := by
  simp only [Arity.generatorSets, toList_tripleCandidates, toList_tripleRows, List.mem_map,
    List.mem_flatMap, mem_pairRows]
  constructor
  · rintro ⟨_, ⟨_, ⟨f, ⟨f_odd, three_le, _⟩, g, g_member, rfl⟩, h, h_member, rfl⟩, rfl⟩
    obtain ⟨g_odd, le, _⟩ := (mem_everyOther_of_odd f_odd).mp g_member
    obtain ⟨h_odd, lt, h_lt⟩ := (mem_innerValues g_odd).mp h_member
    exact ⟨f, g, h, rfl, f_odd, g_odd, h_odd, three_le, le, lt, h_lt⟩
  · rintro ⟨f, g, h, rfl, f_odd, g_odd, h_odd, three_le, le, lt, h_lt⟩
    exact ⟨(f, g, h), ⟨(f, g), ⟨f, ⟨f_odd, three_le, by omega⟩, g,
      (mem_everyOther_of_odd f_odd).mpr ⟨g_odd, le, by omega⟩, rfl⟩, h,
      (mem_innerValues g_odd).mpr ⟨h_odd, lt, h_lt⟩, rfl⟩, rfl⟩

theorem forall_of_mem_generatorSets {arity : Arity} {generators : List Nat}
    (member : generators ∈ arity.generatorSets modulus) :
    generators.length = arity.size ∧ ∀ g ∈ generators, Odd g ∧ 3 ≤ g ∧ g < modulus := by
  cases arity with
  | pair =>
    obtain ⟨g, h, rfl, g_odd, h_odd, three_le, lt, h_lt⟩ := mem_pairs.mp member
    refine ⟨rfl, ?_⟩
    simp only [List.forall_mem_cons, List.not_mem_nil, false_imp_iff, implies_true, and_true]
    exact ⟨⟨g_odd, by omega⟩, h_odd, by omega⟩
  | triple =>
    obtain ⟨f, g, h, rfl, f_odd, g_odd, h_odd, three_le, le, lt, h_lt⟩ := mem_triples.mp member
    refine ⟨rfl, ?_⟩
    simp only [List.forall_mem_cons, List.not_mem_nil, false_imp_iff, implies_true, and_true]
    exact ⟨⟨f_odd, by omega⟩, ⟨g_odd, by omega⟩, h_odd, by omega⟩

/-! ## Sets -/

theorem exists_ascending (residues : Finset Nat) :
    ∃ ascending : List Nat, ascending.length = residues.card ∧
      ascending.Pairwise (· < ·) ∧ ascending.toFinset = residues :=
  ⟨residues.sort (· ≤ ·), residues.length_sort _, residues.sortedLT_sort.pairwise,
    residues.sort_toFinset _⟩

/-- Every set of the right size is enumerated; among the triples a set of two has its
    smaller number twice. -/
theorem exists_generatorSet {arity : Arity} {residues : Finset Nat}
    (candidates : ∀ r ∈ residues, Odd r ∧ 3 ≤ r ∧ r < modulus) (two_le : 2 ≤ residues.card)
    (le_size : residues.card ≤ arity.size) :
    ∃ generators ∈ arity.generatorSets modulus, generators.toFinset = residues := by
  obtain ⟨ascending, length_eq, pairwise, rfl⟩ := exists_ascending residues
  cases arity with
  | pair =>
    have two : ascending.length = 2 := length_eq.trans (Nat.le_antisymm le_size two_le)
    obtain ⟨g, h, rfl⟩ := List.length_eq_two.mp two
    obtain ⟨g_odd, three_le, _⟩ := candidates g (by simp)
    obtain ⟨h_odd, _, h_lt⟩ := candidates h (by simp)
    have lt : g < h := by simpa using pairwise
    exact ⟨[g, h], mem_pairs.mpr ⟨g, h, rfl, g_odd, h_odd, three_le, lt, h_lt⟩, rfl⟩
  | triple =>
    have two_or_three : ascending.length = 2 ∨ ascending.length = 3 := by
      rw [length_eq]
      exact Nat.le_and_le_add_one_iff.mp ⟨two_le, le_size⟩
    -- two residues make a triple with the smaller one twice
    rcases two_or_three with two | three
    · obtain ⟨g, h, rfl⟩ := List.length_eq_two.mp two
      obtain ⟨g_odd, three_le, _⟩ := candidates g (by simp)
      obtain ⟨h_odd, _, h_lt⟩ := candidates h (by simp)
      have lt : g < h := by simpa using pairwise
      exact ⟨[g, g, h], mem_triples.mpr
        ⟨g, g, h, rfl, g_odd, g_odd, h_odd, three_le, Nat.le_refl g, lt, h_lt⟩, by simp⟩
    · obtain ⟨f, g, h, rfl⟩ := List.length_eq_three.mp three
      obtain ⟨f_odd, three_le, _⟩ := candidates f (by simp)
      obtain ⟨g_odd, _, _⟩ := candidates g (by simp)
      obtain ⟨h_odd, _, h_lt⟩ := candidates h (by simp)
      obtain ⟨⟨lt, _⟩, lt'⟩ : (f < g ∧ f < h) ∧ g < h := by simpa using pairwise
      exact ⟨[f, g, h], mem_triples.mpr
        ⟨f, g, h, rfl, f_odd, g_odd, h_odd, three_le, Nat.le_of_lt lt, lt', h_lt⟩, rfl⟩

end Search

end PirTuning
