import Mathlib.Algebra.Ring.GeomSum
import PirTuning.Proofs.Rotation.Feasibility

/-!
# The cost of 3 and 5

Target 3 is one of the generators, and every other target is 1 modulo 4, which makes
it a power of 5 with an exponent below half the number of slots.  So 3 and 5 are
cheap.  A set that misses a target at all misses 3 or 5, the two targets of the
largest weights, and before the depths run out it is charged more for that one than
3 and 5 cost altogether.  Any ceiling that 3 and 5 have set cuts it off.
-/

namespace PirTuning.Rotation

variable {ring : SlotRing} {generators : List Nat}

/-! ## Powers of 5 -/

theorem pow_five_modEq (k : Nat) : 5 ^ 2 ^ k ≡ 1 + 4 * 2 ^ k [MOD 2 * (4 * 2 ^ k)] := by
  induction k with
  | zero => rfl
  | succ k ih =>
    have double : 4 * 2 ^ (k + 1) = 2 * (4 * 2 ^ k) := by ring
    rw [double, Nat.pow_succ, Nat.pow_mul, Nat.pow_two]
    exact square_modEq (Dvd.intro _ rfl) ih

/-- What is 1 modulo 4 is a power of 5 modulo any power of two. -/
theorem exists_pow_five (k : Nat) {x : Nat} (one : x % 4 = 1) :
    ∃ e < 2 ^ k, 5 ^ e ≡ x [MOD 4 * 2 ^ k] := by
  induction k with
  | zero => exact ⟨0, Nat.one_pos, one.symm⟩
  | succ k ih =>
    obtain ⟨e, lt, congruent⟩ := ih
    have double : 4 * 2 ^ (k + 1) = 2 * (4 * 2 ^ k) := by ring
    have odd : Odd (5 ^ e) := Odd.pow (by decide)
    rw [double]
    rcases modEq_or_modEq_double odd congruent with same | shifted
    · exact ⟨e, by rw [Nat.pow_succ]; omega, same⟩
    · -- the digit that doubling adds is put right by the power that is 1 but for this digit
      refine ⟨e + 2 ^ k, by rw [Nat.pow_succ]; omega, ?_⟩
      rw [Nat.pow_add]
      exact ((pow_five_modEq k).mul_left _).trans shifted

/-! ## Depths -/

theorem reachedAt_three_five {i : Nat} (lt : i < ring.logN) :
    ∃ t ≤ ring.slots / 2, ReachedAt ring [3, 5] i t := by
  obtain ⟨n, logN_eq⟩ : ∃ n, ring.logN = n + 1 := ⟨ring.logN - 1, by omega⟩
  have half : ring.slots / 2 = 2 ^ n := by
    rw [ring.slots_eq, logN_eq, Nat.pow_succ, Nat.mul_div_cancel _ Nat.two_pos]
  have modulus_eq : ring.modulus = 4 * 2 ^ n := by
    rw [ring.modulus_eq, logN_eq]
    ring
  rw [half]
  have target_eq := ring.target_eq lt
  obtain ⟨d, d_eq⟩ : ∃ d, ring.logN - i = d + 1 := ⟨ring.logN - i - 1, by omega⟩
  rw [d_eq] at target_eq
  -- the last target is 3 itself; the others are 1 modulo 4 and so powers of 5
  cases d with
  | zero =>
    refine ⟨1, Nat.one_le_two_pow, [1, 0], rfl, rfl, ?_⟩
    rw [target_eq]
    exact Nat.ModEq.refl 3
  | succ d =>
    have one : ring.target i % 4 = 1 := by
      rw [target_eq, Nat.pow_succ, Nat.pow_succ]
      omega
    obtain ⟨e, e_lt, congruent⟩ := exists_pow_five n one
    refine ⟨e, Nat.le_of_lt e_lt, [0, e], rfl, by simp, ?_⟩
    rw [modulus_eq]
    simpa [monomial] using congruent

/-- No weight of the targets is paid more than half the number of slots. -/
theorem lowerBound_three_five_le (ring : SlotRing) (t : Nat) :
    lowerBound ring [3, 5] t ≤ (ring.slots - 1) * (ring.slots / 2) := by
  have weights : ∑ i ∈ Finset.range ring.logN, 2 ^ i = ring.slots - 1 := by
    rw [Nat.geomSum_eq (Nat.le_refl 2), ring.slots_eq, Nat.div_one]
  rw [← weights, Finset.sum_mul]
  refine Finset.sum_le_sum fun i member => Nat.mul_le_mul_left _ ?_
  obtain ⟨s, le, reached⟩ := reachedAt_three_five (Finset.mem_range.mp member)
  have below : s < ring.modulus := by
    have := ring.modulus_pos
    rw [SlotRing.modulus] at this ⊢
    omega
  obtain ⟨first, first_le, found⟩ := reached.exists_firstDepth? below
  rw [found, Option.elim_some]
  exact (min_le_left first t).trans (first_le.trans le)

theorem feasible_three_five (two_le : 2 ≤ ring.logN) : Feasible ring [3, 5] :=
  -- 3 and 5 are of different classes modulo 8, whatever the size of the ring
  (feasible_iff_card_oddClasses two_le (by simp)).mpr (by decide)

/-! ## Sets that miss a target -/

theorem exists_unreached_of_not_feasible (two_le : 2 ≤ ring.logN)
    (some_generator : 0 < generators.length) (infeasible : ¬ Feasible ring generators) :
    ∃ i < ring.logN, ring.logN - 2 ≤ i ∧ firstDepth? ring generators i = none := by
  by_contra all_reached
  refine infeasible ((feasible_iff_card_oddClasses two_le some_generator).mpr
    (two_classes_of_targets two_le fun i lt late => ?_))
  by_contra missed
  exact all_reached ⟨i, lt, late, firstDepth?_eq_none_iff.mpr missed⟩

/-- By the last depth such a set is charged as much as 3 and 5 ever cost. -/
theorem le_lowerBound_of_not_feasible (two_le : 2 ≤ ring.logN)
    (some_generator : 0 < generators.length) (infeasible : ¬ Feasible ring generators) :
    (ring.slots - 1) * (ring.slots / 2)
      ≤ lowerBound ring generators (lastDepth ring generators) := by
  obtain ⟨i, lt, late, unreached⟩ :=
    exists_unreached_of_not_feasible two_le some_generator infeasible
  obtain ⟨n, logN_eq⟩ : ∃ n, ring.logN = n + 2 := ⟨ring.logN - 2, by omega⟩
  have slots_eq : ring.slots = 4 * 2 ^ n := by
    rw [ring.slots_eq, logN_eq]
    ring
  have weight : 2 ^ n ≤ 2 ^ i := Nat.pow_le_pow_right Nat.two_pos (by omega)
  have halves : (4 * 2 ^ n - 1) * (4 * 2 ^ n / 2) = 2 ^ n * (2 * (4 * 2 ^ n - 1)) := by
    rw [show 4 * 2 ^ n / 2 = 2 * 2 ^ n by omega]
    ring
  rw [lastDepth_of_unreached lt unreached]
  -- an open target with a large index is charged with the last depth below the modulus
  calc (ring.slots - 1) * (ring.slots / 2)
      = 2 ^ n * (2 * (4 * 2 ^ n - 1)) := by rw [slots_eq, halves]
    _ ≤ 2 ^ i * (ring.modulus - 1) := by
      refine Nat.mul_le_mul weight ?_
      rw [SlotRing.modulus, slots_eq]
      omega
    _ ≤ lowerBound ring generators (ring.modulus - 1) := le_lowerBound_of_unreached lt unreached _

/-- A ceiling that is no higher than this cuts every such set off. -/
theorem exists_pruned_of_not_feasible (two_le : 2 ≤ ring.logN)
    (some_generator : 0 < generators.length) (infeasible : ¬ Feasible ring generators)
    {ceiling : Nat} (le : ceiling ≤ (ring.slots - 1) * (ring.slots / 2)) :
    ∃ depth bound, depth < ring.modulus ∧
      evaluate ring generators ceiling = .pruned depth bound := by
  rcases evaluate_cases ring some_generator ceiling with ⟨t, le_last, _, _, cut⟩ | ⟨below, _⟩
  · exact ⟨t, _, Nat.lt_of_le_of_lt le_last (lastDepth_lt ring generators), cut⟩
  · have charged := le_lowerBound_of_not_feasible two_le some_generator infeasible
    omega

/-- A feasible set is never exhausted, whatever the ceiling. -/
theorem Feasible.evaluate_ne_exhausted (feasible : Feasible ring generators)
    (some_generator : 0 < generators.length) (ceiling : Nat) :
    evaluate ring generators ceiling ≠ .exhausted := by
  obtain ⟨cost, times, own⟩ := feasible
  rw [evaluate_noCeiling some_generator] at own
  rcases evaluate_cases ring some_generator ceiling with ⟨t, _, _, _, cut⟩ | ⟨_, whole⟩
  · simp [cut]
  · simp [whole, own]

end PirTuning.Rotation
