import Mathlib.Algebra.Ring.Parity
import Mathlib.Data.Nat.ModEq
import Mathlib.Order.Bounds.Defs
import PirTuning.Rotation.Ring
import PirTuning.Proofs.Rotation.Splits

/-!
# Reaching a target

A target is reached at a depth if some split of that depth, read as exponents of
the generators, multiplies out to the target.  Nothing here looks at how an
evaluation goes about it: `ReachedAt` is the condition, and the first depth at
which it holds is what an evaluation and a search for witnesses have in common.
-/

namespace PirTuning.Rotation

/-- The product of generator powers that a list of exponents stands for. -/
def monomial (generators exponents : List Nat) : Nat :=
  (List.zipWith (· ^ ·) generators exponents).prod

@[simp] theorem monomial_cons (g e : Nat) (generators exponents : List Nat) :
    monomial (g :: generators) (e :: exponents) = g ^ e * monomial generators exponents := by
  simp [monomial]

@[simp] theorem monomial_nil_right (generators : List Nat) : monomial generators [] = 1 := by
  simp [monomial]

theorem monomial_zeros (generators : List Nat) (count : Nat) :
    monomial generators (List.replicate count 0) = 1 := by
  induction count generalizing generators with
  | zero => exact monomial_nil_right generators
  | succ count ih =>
    cases generators with
    | nil => rfl
    | cons g generators => rw [List.replicate_succ, monomial_cons, ih, Nat.pow_zero]

/-- Generators without an exponent count as if theirs were zero. -/
theorem monomial_append_zeros (generators exponents : List Nat) (count : Nat) :
    monomial generators (exponents ++ List.replicate count 0) = monomial generators exponents := by
  induction exponents generalizing generators with
  | nil => rw [List.nil_append, monomial_zeros, monomial_nil_right]
  | cons e exponents ih =>
    cases generators with
    | nil => simp [monomial]
    | cons g generators => rw [List.cons_append, monomial_cons, monomial_cons, ih]

/-- Reducing a power, and the running product with it, leaves the residue of the
    whole product alone. -/
theorem accumulate_mod (modulus acc power rest : Nat) :
    acc * (power % modulus) % modulus * rest % modulus = acc * (power * rest) % modulus := by
  rw [← Nat.mul_assoc]
  exact Nat.ModEq.mul_right rest ((Nat.mod_modEq _ _).trans
    (Nat.ModEq.mul_left acc (Nat.mod_modEq power modulus)))

/-- Modulo an even number a residue determines whether its number is odd. -/
theorem odd_of_modEq {p x modulus : Nat} (even : 2 ∣ modulus) (congruent : p ≡ x [MOD modulus])
    (odd : Odd x) : Odd p := by
  have same : p % 2 = x % 2 := congruent.of_dvd even
  rwa [Nat.odd_iff, same, ← Nat.odd_iff]

/-- Some exponents that add up to `t` lead to target `i`. -/
def ReachedAt (ring : SlotRing) (generators : List Nat) (i t : Nat) : Prop :=
  ∃ exponents : List Nat, exponents.length = generators.length ∧ exponents.sum = t ∧
    monomial generators exponents ≡ ring.target i [MOD ring.modulus]

instance (ring : SlotRing) (generators : List Nat) (i t : Nat) :
    Decidable (ReachedAt ring generators i t) :=
  decidable_of_iff
    (∃ split ∈ Split.all generators.length t,
      monomial generators split ≡ ring.target i [MOD ring.modulus])
    (by simp only [Split.mem_all, ReachedAt, and_assoc])

/-- The first depth below `limit` at which target `i` is reached. -/
def depthBelow? (ring : SlotRing) (generators : List Nat) (limit i : Nat) : Option Nat :=
  (List.range limit).find? fun t => ReachedAt ring generators i t

/-- The first depth of target `i` among those that are ever looked at. -/
def firstDepth? (ring : SlotRing) (generators : List Nat) (i : Nat) : Option Nat :=
  depthBelow? ring generators ring.modulus i

/-! ## First depths -/

section

variable {ring : SlotRing} {generators : List Nat} {i : Nat}

theorem depthBelow?_eq_some_iff {limit t : Nat} :
    depthBelow? ring generators limit i = some t ↔
      t < limit ∧ IsLeast {s | ReachedAt ring generators i s} t := by
  simp only [depthBelow?, List.find?_range_eq_some, decide_eq_true_eq, List.mem_range,
    Bool.not_eq_true', decide_eq_false_iff_not]
  constructor
  · rintro ⟨reached, below, earlier⟩
    refine ⟨below, reached, fun s hit => ?_⟩
    by_contra later
    exact earlier s (by omega) hit
  · rintro ⟨below, reached, least⟩
    exact ⟨reached, below, fun s earlier hit => absurd (least hit) (by omega)⟩

theorem depthBelow?_eq_none_iff {limit : Nat} :
    depthBelow? ring generators limit i = none ↔
      ∀ t < limit, ¬ ReachedAt ring generators i t := by
  simp [depthBelow?]

/-- What is reached at a depth that is looked at has a first depth. -/
theorem ReachedAt.exists_firstDepth? {t : Nat} (reached : ReachedAt ring generators i t)
    (lt : t < ring.modulus) : ∃ s ≤ t, firstDepth? ring generators i = some s := by
  cases found : firstDepth? ring generators i with
  | none => exact absurd reached (depthBelow?_eq_none_iff.mp found t lt)
  | some s => exact ⟨s, (depthBelow?_eq_some_iff.mp found).2.2 reached, rfl⟩

theorem depthBelow?_succ (t : Nat) :
    depthBelow? ring generators (t + 1) i
      = (depthBelow? ring generators t i).or
          (if ReachedAt ring generators i t then some t else none) := by
  by_cases hit : ReachedAt ring generators i t <;>
    simp [depthBelow?, List.range_succ, List.find?_append, hit]

theorem depthBelow?_mono {limit limit' t : Nat} (le : limit ≤ limit')
    (found : depthBelow? ring generators limit i = some t) :
    depthBelow? ring generators limit' i = some t := by
  obtain ⟨below, least⟩ := depthBelow?_eq_some_iff.mp found
  exact depthBelow?_eq_some_iff.mpr ⟨by omega, least⟩

/-- A record of the depths below `limit` knows the first depth exactly if that is
    below `limit`. -/
theorem depthBelow?_eq_filter {limit : Nat} (le : limit ≤ ring.modulus) :
    depthBelow? ring generators limit i
      = (firstDepth? ring generators i).filter (· < limit) := by
  cases found : firstDepth? ring generators i with
  | none =>
    rw [firstDepth?, depthBelow?_eq_none_iff] at found
    rw [Option.filter_none, depthBelow?_eq_none_iff]
    exact fun t below => found t (by omega)
  | some t =>
    obtain ⟨_, least⟩ := depthBelow?_eq_some_iff.mp found
    by_cases below : t < limit
    · rw [Option.filter_some, if_pos (by simpa using below)]
      exact depthBelow?_eq_some_iff.mpr ⟨below, least⟩
    · rw [Option.filter_some, if_neg (by simpa using below), depthBelow?_eq_none_iff]
      exact fun s earlier hit => below (Nat.lt_of_le_of_lt (least.2 hit) earlier)

end

/-! ## Targets -/

namespace SlotRing

theorem slots_eq (ring : SlotRing) : ring.slots = 2 ^ ring.logN :=
  Nat.one_shiftLeft _

theorem modulus_eq (ring : SlotRing) : ring.modulus = 2 ^ (ring.logN + 1) := by
  rw [modulus, slots_eq, Nat.pow_succ, Nat.mul_comm]

theorem target_eq (ring : SlotRing) {i : Nat} (lt : i < ring.logN) :
    ring.target i = 1 + 2 ^ (ring.logN - i) := by
  have shifted : ring.slots >>> i = 2 ^ (ring.logN - i) := by
    rw [slots_eq, Nat.shiftRight_eq_div_pow, Nat.pow_div (by omega) (by omega)]
  have small : 2 ^ (ring.logN - i) ≤ 2 ^ ring.logN := Nat.pow_le_pow_right (by omega) (by omega)
  have two_le : 2 ^ 1 ≤ 2 ^ ring.logN := Nat.pow_le_pow_right (by omega) ring.logN_pos
  rw [target, shifted, modulus_eq, Nat.mod_eq_of_lt]
  rw [Nat.pow_succ]
  omega

theorem target_lt (ring : SlotRing) (i : Nat) : ring.target i < ring.modulus :=
  Nat.mod_lt _ ring.modulus_pos

theorem target_inj (ring : SlotRing) {i j : Nat} (hi : i < ring.logN) (hj : j < ring.logN)
    (same : ring.target i = ring.target j) : i = j := by
  rw [ring.target_eq hi, ring.target_eq hj] at same
  have exponents : ring.logN - i = ring.logN - j :=
    Nat.pow_right_injective (by omega) (Nat.add_left_cancel same)
  omega

/-- A value is found among the targets at the one index whose target it is. -/
theorem idxOf?_targets (ring : SlotRing) {value i : Nat} :
    ring.targets.idxOf? value = some i ↔ i < ring.logN ∧ ring.target i = value := by
  rw [List.idxOf?_eq_some_iff]
  constructor
  · rintro ⟨lt, same, _⟩
    rw [length_targets] at lt
    simp only [targets, List.getElem_map, List.getElem_range] at same
    exact ⟨lt, same⟩
  · rintro ⟨lt, same⟩
    simp only [targets, List.getElem_map, List.getElem_range]
    refine ⟨by simpa using lt, same, fun j before other => ?_⟩
    exact absurd (ring.target_inj (by omega) lt (other.trans same.symm)) (by omega)

theorem one_lt_modulus (ring : SlotRing) : 1 < ring.modulus := by
  rw [modulus_eq]
  exact Nat.one_lt_two_pow (by omega)

theorem modulus_le (ring : SlotRing) : ring.modulus ≤ 2 ^ 31 := by
  rw [modulus_eq]
  exact Nat.pow_le_pow_right (by omega) (Nat.succ_le_succ ring.logN_le)

theorem two_dvd_modulus (ring : SlotRing) : 2 ∣ ring.modulus :=
  ⟨ring.slots, rfl⟩

theorem odd_target (ring : SlotRing) {i : Nat} (lt : i < ring.logN) : Odd (ring.target i) := by
  have even : Even (2 ^ (ring.logN - i)) := Nat.even_pow.mpr ⟨even_two, by omega⟩
  rw [ring.target_eq lt]
  exact odd_one.add_even even

/-- The smallest ring that has candidate sets: targets 5 and 3 modulo 8. -/
def fourSlots : SlotRing := ⟨2, by decide, by decide⟩

/-- Targets 9, 5 and 3 modulo 16. -/
def eightSlots : SlotRing := ⟨3, by decide, by decide⟩

end SlotRing

end PirTuning.Rotation
