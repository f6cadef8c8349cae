import Mathlib.Algebra.Order.BigOperators.Group.Finset
import Mathlib.Order.Lattice.Nat
import PirTuning.Proofs.Rotation.Layers

/-!
# Bounds by depth

What a record charges after depth `t` is a function of the first depths alone:
each target pays for its first depth or for `t`, whichever comes first.  That
bound grows with `t` up to the cost, and stays far below `noCeiling`.  Beside it
stands the last depth that an evaluation without a ceiling looks at, from which
on the record does not change any more.
-/

namespace PirTuning.Rotation

/-- The weighted first depths, none of them charged with more than `t`; a target
    that is never reached is charged with `t`. -/
def lowerBound (ring : SlotRing) (generators : List Nat) (t : Nat) : Nat :=
  ∑ i ∈ Finset.range ring.logN, 2 ^ i * (firstDepth? ring generators i).elim t (min · t)

/-- The latest first depth, or the last depth below the modulus if some target is
    never reached. -/
def lastDepth (ring : SlotRing) (generators : List Nat) : Nat :=
  if ∀ i < ring.logN, (firstDepth? ring generators i).isSome then
    (Finset.range ring.logN).sup fun i => (firstDepth? ring generators i).getD 0
  else ring.modulus - 1

variable {ring : SlotRing} {generators : List Nat}

/-! ## The bound -/

theorem lowerBound_mono (ring : SlotRing) (generators : List Nat) {t t' : Nat} (le : t ≤ t') :
    lowerBound ring generators t ≤ lowerBound ring generators t' := by
  apply Finset.sum_le_sum
  intro i _
  apply Nat.mul_le_mul_left
  cases firstDepth? ring generators i with
  | none => exact le
  | some first => exact min_le_min_left first le

/-- A target that is never reached is charged for every depth. -/
theorem le_lowerBound_of_unreached {i : Nat} (lt : i < ring.logN)
    (unreached : firstDepth? ring generators i = none) (t : Nat) :
    2 ^ i * t ≤ lowerBound ring generators t := by
  have charge : 2 ^ i * (firstDepth? ring generators i).elim t (min · t) = 2 ^ i * t := by
    rw [unreached, Option.elim_none]
  rw [← charge]
  exact Finset.single_le_sum (f := fun i => 2 ^ i * (firstDepth? ring generators i).elim t (min · t))
    (fun _ _ => Nat.zero_le _) (Finset.mem_range.mpr lt)

/-- The record after depth `t` is charged with the bound. -/
theorem runningCost_recordBefore {t : Nat} (lt : t < ring.modulus) :
    (recordBefore ring generators (t + 1)).runningCost t = lowerBound ring generators t := by
  rw [Discovery.runningCost, recordBefore, Discovery.times_ofSlots, Discovery.charge_range]
  apply Finset.sum_congr rfl
  intro i _
  rw [depthBelow?_eq_filter (by omega)]
  cases firstDepth? ring generators i with
  | none => rfl
  | some first =>
    by_cases before : first < t + 1
    · rw [Option.filter_some, if_pos (by simpa using before)]
      exact congrArg (2 ^ i * ·) (Nat.min_eq_left (Nat.le_of_lt_succ before)).symm
    · rw [Option.filter_some, if_neg (by simpa using before)]
      exact congrArg (2 ^ i * ·) (Nat.min_eq_right (show t ≤ first by omega)).symm

/-- A charge takes up at most 61 bits. -/
theorem lowerBound_lt {t : Nat} (lt : t < ring.modulus) :
    lowerBound ring generators t < 2 ^ 61 := by
  have small : ∀ slot ∈ (recordBefore ring generators (t + 1)).times, slot.getD t < 2 ^ 31 := by
    intro slot member
    obtain ⟨i, _, rfl⟩ := List.mem_map.mp member
    apply lt_of_le_of_lt _ (lt.trans_le ring.modulus_le)
    cases found : depthBelow? ring generators (t + 1) i with
    | none => exact Nat.le_refl t
    | some s => exact Nat.le_of_lt_succ (depthBelow?_eq_some_iff.mp found).1
  have places : (recordBefore ring generators (t + 1)).times.length = ring.logN := by
    simp [recordBefore]
  have below := Discovery.charge_lt small
  rw [← Discovery.runningCost, runningCost_recordBefore lt, places] at below
  exact below.trans_le (Nat.pow_le_pow_right Nat.two_pos (Nat.add_le_add_right ring.logN_le 31))

theorem lowerBound_lt_noCeiling {t : Nat} (lt : t < ring.modulus) :
    lowerBound ring generators t < noCeiling :=
  (lowerBound_lt lt).trans (by decide)

/-! ## The last depth -/

theorem firstDepth?_lt {i t : Nat} (found : firstDepth? ring generators i = some t) :
    t < ring.modulus :=
  (depthBelow?_eq_some_iff.mp found).1

theorem lastDepth_lt (ring : SlotRing) (generators : List Nat) :
    lastDepth ring generators < ring.modulus := by
  unfold lastDepth
  split
  · rw [Finset.sup_lt_iff (bot_lt_iff_ne_bot.mpr (Nat.ne_of_gt ring.modulus_pos))]
    intro i _
    cases found : firstDepth? ring generators i with
    | none => exact ring.modulus_pos
    | some t => exact firstDepth?_lt found
  · exact Nat.sub_lt ring.modulus_pos Nat.one_pos

theorem lastDepth_of_unreached {i : Nat} (lt : i < ring.logN)
    (unreached : firstDepth? ring generators i = none) :
    lastDepth ring generators = ring.modulus - 1 := by
  rw [lastDepth, if_neg]
  intro all_reached
  have := all_reached i lt
  rw [unreached] at this
  cases this

/-- Every first depth is at most the last depth. -/
theorem firstDepth?_le_lastDepth {i t : Nat} (lt : i < ring.logN)
    (found : firstDepth? ring generators i = some t) : t ≤ lastDepth ring generators := by
  unfold lastDepth
  split
  · have at_most := Finset.le_sup (f := fun i => (firstDepth? ring generators i).getD 0)
      (Finset.mem_range.mpr lt)
    simpa [found] using at_most
  · have := firstDepth?_lt found
    omega

/-- Before the last depth is finished, some target is open. -/
theorem open_before_lastDepth {t : Nat} (lt : t < lastDepth ring generators) :
    none ∈ (recordBefore ring generators (t + 1)).times := by
  by_contra closed
  -- with every slot closed by depth `t`, no first depth could lie after it
  have reached : ∀ i < ring.logN, ∃ s ≤ t, firstDepth? ring generators i = some s := by
    intro i below
    have slot : depthBelow? ring generators (t + 1) i ≠ none := fun is_open =>
      closed (List.mem_map.mpr ⟨i, List.mem_range.mpr below, is_open⟩)
    obtain ⟨s, found⟩ := Option.ne_none_iff_exists'.mp slot
    have := lastDepth_lt ring generators
    exact ⟨s, Nat.le_of_lt_succ (depthBelow?_eq_some_iff.mp found).1,
      depthBelow?_mono (by omega) found⟩
  have all_reached : ∀ i < ring.logN, (firstDepth? ring generators i).isSome := by
    intro i below
    obtain ⟨s, _, found⟩ := reached i below
    rw [found, Option.isSome_some]
  have at_most : lastDepth ring generators ≤ t := by
    rw [lastDepth, if_pos all_reached]
    apply Finset.sup_le
    intro i member
    obtain ⟨s, le, found⟩ := reached i (Finset.mem_range.mp member)
    rw [found]
    exact le
  omega

/-- After the last depth the record stays as it is. -/
theorem recordBefore_lastDepth (ring : SlotRing) (generators : List Nat) :
    recordBefore ring generators (lastDepth ring generators + 1)
      = recordBefore ring generators ring.modulus := by
  have last_lt := lastDepth_lt ring generators
  refine congrArg Discovery.ofSlots (List.map_congr_left fun i member => ?_)
  have lt : i < ring.logN := List.mem_range.mp member
  rw [depthBelow?_eq_filter (by omega), depthBelow?_eq_filter (Nat.le_refl _)]
  cases found : firstDepth? ring generators i with
  | none => rfl
  | some t =>
    have := firstDepth?_le_lastDepth lt found
    have := firstDepth?_lt found
    rw [Option.filter_some, Option.filter_some, if_pos (by simp; omega), if_pos (by simp; omega)]

end PirTuning.Rotation
