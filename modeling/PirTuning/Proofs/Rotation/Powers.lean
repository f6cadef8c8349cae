import Mathlib.Algebra.Group.Nat.Defs
import Mathlib.Data.Nat.Size
import Mathlib.Logic.Function.Iterate
import PirTuning.Rotation.Power

/-!
# Square-and-multiply

The machine is always on its way to the same number, its `goal`: a step takes a
digit from the exponent and leaves the goal alone, and without an exponent the
result is the goal.  So `modPow` computes the power that its name says.

In words the machine does the same as long as its products fit.  Both factors of a
product are below the modulus, so a modulus of at most 32 bits leaves room for all of
them.
-/

namespace PirTuning.Rotation

namespace Squaring

/-- The number that the machine is on its way to. -/
def goal (modulus : Nat) (s : Squaring) : Nat :=
  s.result * s.base ^ s.exponent % modulus

/-- Consuming a digit keeps the goal. -/
theorem goal_step (modulus : Nat) (s : Squaring) :
    (s.step modulus).goal modulus = s.goal modulus := by
  have square : ∀ e, (s.base * s.base % modulus) ^ e % modulus = s.base ^ (2 * e) % modulus := by
    intro e
    rw [← Nat.pow_mod, ← Nat.pow_two, ← Nat.pow_mul]
  simp only [goal, step]
  rw [Nat.mul_mod, square, ← Nat.mul_mod]
  have digits := Nat.div_add_mod s.exponent 2
  by_cases odd : s.exponent % 2 = 1
  · -- the digit moves from the exponent into the result
    rw [if_pos odd]
    have exponent_eq : s.exponent = 2 * (s.exponent / 2) + 1 := by omega
    conv => rhs; rw [exponent_eq, Nat.pow_succ]
    rw [Nat.mul_mod, Nat.mod_mod, ← Nat.mul_mod, Nat.mul_assoc, Nat.mul_comm s.base]
  · -- the result stays, and only the base is squared
    rw [if_neg odd]
    have exponent_eq : s.exponent = 2 * (s.exponent / 2) := by omega
    conv => rhs; rw [exponent_eq]

/-- A step leaves the result below the modulus. -/
theorem step_result_lt {modulus : Nat} {s : Squaring} (h : s.result < modulus) :
    (s.step modulus).result < modulus := by
  simp only [step]
  split
  · exact Nat.mod_lt _ (by omega)
  · exact h

theorem run_eq_goal (modulus : Nat) (s : Squaring) (h : s.result < modulus) :
    s.run modulus = s.goal modulus := by
  by_cases done : s.exponent = 0
  · rw [run_of_zero done, goal, done, Nat.pow_zero, Nat.mul_one, Nat.mod_eq_of_lt h]
  · rw [run_of_ne_zero done, run_eq_goal modulus (s.step modulus) (step_result_lt h), goal_step]
termination_by s.exponent
decreasing_by simp only [step]; omega

/-! ### Rounds -/

theorem exponent_iterate (modulus : Nat) (s : Squaring) (rounds : Nat) :
    ((step modulus)^[rounds] s).exponent = s.exponent / 2 ^ rounds := by
  induction rounds with
  | zero => simp
  | succ rounds ih =>
    rw [Function.iterate_succ_apply', Nat.pow_succ, ← Nat.div_div_eq_div_mul, ← ih]
    rfl

theorem run_iterate (modulus : Nat) (s : Squaring) {rounds : Nat} (le : rounds ≤ s.exponent.size) :
    ((step modulus)^[rounds] s).run modulus = s.run modulus := by
  induction rounds with
  | zero => rfl
  | succ rounds ih =>
    -- a digit is left as long as there were fewer rounds than digits
    have digits : 2 ^ rounds ≤ s.exponent := Nat.lt_size.mp le
    have more : ((step modulus)^[rounds] s).exponent ≠ 0 := by
      rw [exponent_iterate]
      exact Nat.ne_of_gt (Nat.div_pos digits (Nat.two_pow_pos rounds))
    rw [Function.iterate_succ_apply', ← run_of_ne_zero more]
    exact ih (Nat.le_of_succ_le le)

/-- One round for each binary digit of the exponent uses it up. -/
theorem exponent_iterate_size (modulus : Nat) (s : Squaring) :
    ((step modulus)^[s.exponent.size] s).exponent = 0 := by
  rw [exponent_iterate]
  exact Nat.div_eq_of_lt (Nat.lt_size_self s.exponent)

theorem result_iterate_size (modulus : Nat) (s : Squaring) :
    ((step modulus)^[s.exponent.size] s).result = s.run modulus := by
  rw [← run_of_zero (exponent_iterate_size modulus s), run_iterate modulus s (Nat.le_refl _)]

end Squaring

theorem modPow_eq (base exponent : Nat) {modulus : Nat} (h : 0 < modulus) :
    modPow base exponent modulus = base ^ exponent % modulus := by
  rw [modPow, Squaring.run_eq_goal _ _ (Nat.mod_lt _ h)]
  simp only [Squaring.goal, Squaring.start]
  rw [Nat.mul_mod, Nat.mod_mod, ← Nat.mul_mod, Nat.one_mul, ← Nat.pow_mod]

/-! ## One factor after the other -/

/-- A product with one factor more, reduced. -/
def multiplyIn (base modulus product : Nat) : Nat :=
  product * (base % modulus) % modulus

theorem iterate_multiplyIn (base modulus times : Nat) :
    (multiplyIn base modulus)^[times] (1 % modulus) = base ^ times % modulus := by
  induction times with
  | zero => rfl
  | succ times ih =>
    rw [Function.iterate_succ_apply', ih, multiplyIn, ← Nat.mul_mod, ← Nat.pow_succ]

/-! ## Words -/

/-- Residues of a modulus of at most 32 bits can be multiplied. -/
theorem exists_mulMod {modulus a b : UInt64} (le : modulus.toNat ≤ 2 ^ 32)
    (a_lt : a.toNat < modulus.toNat) (b_lt : b.toNat < modulus.toNat) :
    ∃ c, Word.mulMod modulus a b = .ok c ∧ c.toNat = a.toNat * b.toNat % modulus.toNat := by
  have product_lt : a.toNat * b.toNat < 2 ^ 32 * 2 ^ 32 :=
    Nat.mul_lt_mul'' (Nat.lt_of_lt_of_le a_lt le) (Nat.lt_of_lt_of_le b_lt le)
  have reduced_lt := Nat.mod_lt (a.toNat * b.toNat) (Nat.zero_lt_of_lt a_lt)
  have fits := UInt64.toNat_ofNat_of_lt' (Nat.lt_trans reduced_lt modulus.toNat_lt_size)
  exact ⟨.ofNat (a.toNat * b.toNat % modulus.toNat),
    Word.mulMod_eq_ok_iff.mpr ⟨product_lt, Nat.zero_lt_of_lt a_lt, fits⟩, fits⟩

theorem exists_wordPowFrom {modulus result base : UInt64} (le : modulus.toNat ≤ 2 ^ 32)
    (result_lt : result.toNat < modulus.toNat) (base_lt : base.toNat < modulus.toNat)
    (exponent : UInt64) :
    ∃ power, wordPowFrom modulus result base exponent = .ok power ∧
      power.toNat
        = Squaring.run modulus.toNat ⟨result.toNat, base.toNat, exponent.toNat⟩ := by
  -- the invariant is that result and base are residues
  have residue_lt := fun a => Nat.mod_lt a (Nat.zero_lt_of_lt base_lt)
  rw [wordPowFrom]
  by_cases done : exponent = 0
  · subst done
    rw [if_pos rfl, Squaring.run_of_zero UInt64.toNat_zero]
    exact ⟨result, rfl, rfl⟩
  · have more : exponent.toNat ≠ 0 := fun zero => done (UInt64.toNat_inj.mp zero)
    obtain ⟨square, squared, square_eq⟩ := exists_mulMod le base_lt base_lt
    have square_lt : square.toNat < modulus.toNat := square_eq ▸ residue_lt _
    rw [if_neg done, Squaring.run_of_ne_zero more]
    simp only [Squaring.step, ← square_eq, ← Word.toNat_shiftRight_one]
    by_cases odd : exponent.toNat % 2 = 1
    · obtain ⟨product, multiplied, product_eq⟩ := exists_mulMod le result_lt base_lt
      have product_lt : product.toNat < modulus.toNat := product_eq ▸ residue_lt _
      obtain ⟨power, rest, power_eq⟩ :=
        exists_wordPowFrom le product_lt square_lt (exponent >>> 1)
      refine ⟨power, ?_, ?_⟩
      · rw [if_pos (Word.and_one_eq_one_iff.mpr odd), multiplied, squared, Word.ok_bind,
          Word.ok_bind, rest]
      · rw [if_pos odd, ← product_eq]
        exact power_eq
    · obtain ⟨power, rest, power_eq⟩ :=
        exists_wordPowFrom le result_lt square_lt (exponent >>> 1)
      refine ⟨power, ?_, ?_⟩
      · rw [if_neg (mt Word.and_one_eq_one_iff.mp odd), squared, Word.ok_bind, Word.ok_bind, rest]
      · rw [if_neg odd]
        exact power_eq
termination_by exponent.toNat
decreasing_by all_goals exact Word.shiftRight_one_lt done

theorem exists_wordPow {modulus : UInt64} (pos : 0 < modulus.toNat) (le : modulus.toNat ≤ 2 ^ 32)
    (base exponent : UInt64) :
    ∃ power, wordPow base exponent modulus = .ok power ∧
      power.toNat = modPow base.toNat exponent.toNat modulus.toNat := by
  have reduced : ∀ a, Word.mod a modulus = .ok (a % modulus) := fun a =>
    Word.mod_eq_ok_iff.mpr ⟨pos, UInt64.toNat_mod a modulus⟩
  have residue_lt : ∀ a, (a % modulus).toNat < modulus.toNat := fun a =>
    UInt64.toNat_mod a modulus ▸ Nat.mod_lt _ pos
  obtain ⟨power, computed, power_eq⟩ :=
    exists_wordPowFrom le (residue_lt 1) (residue_lt base) exponent
  refine ⟨power, ?_, ?_⟩
  · rw [wordPow, reduced, reduced, Word.ok_bind, Word.ok_bind, computed]
  · rw [power_eq, UInt64.toNat_mod, UInt64.toNat_mod]
    rfl

/-- The power modulo a number of at most 32 bits, in 64-bit words: no product is too large for
    a word, and the result is the power, which is also what one gets by multiplying one factor
    after the other in.  The machine is done after one step for each binary digit of the
    exponent. -/
theorem wordPow_is_exact {modulus : UInt64} (pos : 0 < modulus) (le : modulus ≤ 4294967296)
    (base exponent : UInt64) :
    ∃ power : UInt64,
      wordPow base exponent modulus = .ok power ∧
      power.toNat = base.toNat ^ exponent.toNat % modulus.toNat ∧
      (modulus = 1 → power = 0) ∧
      power.toNat
        = (multiplyIn base.toNat modulus.toNat)^[exponent.toNat] (1 % modulus.toNat) ∧
      modPow? base.toNat exponent.toNat modulus.toNat = some power.toNat ∧
      ((Squaring.step modulus.toNat)^[exponent.toNat.size]
        (.start base.toNat exponent.toNat modulus.toNat)).exponent = 0 ∧
      ((Squaring.step modulus.toNat)^[exponent.toNat.size]
        (.start base.toNat exponent.toNat modulus.toNat)).result = power.toNat := by
  rw [Word.pos_iff] at pos
  rw [UInt64.le_iff_toNat_le] at le
  obtain ⟨power, computed, power_eq⟩ := exists_wordPow pos le base exponent
  have value : power.toNat = base.toNat ^ exponent.toNat % modulus.toNat := by
    rw [power_eq, modPow_eq _ _ pos]
  refine ⟨power, computed, value, ?_, ?_, ?_, ?_, ?_⟩
  · rintro rfl
    rw [← UInt64.toNat_inj, value]
    exact Nat.mod_one _
  · rw [iterate_multiplyIn, value]
  · rw [modPow?, if_neg (Nat.ne_of_gt pos), power_eq]
  · exact Squaring.exponent_iterate_size _ (.start base.toNat exponent.toNat modulus.toNat)
  · rw [power_eq]
    exact Squaring.result_iterate_size _ (.start base.toNat exponent.toNat modulus.toNat)

/-- The square of the largest residue modulo `2 ^ 32` is just below `2 ^ 64`. -/
theorem wordPow_is_exact_squared :
    0 < (4294967296 : UInt64) ∧ (4294967296 : UInt64) ≤ 4294967296 ∧
      ∃ power, wordPow 4294967295 2 4294967296 = .ok power ∧ power.toNat = 1 := by
  have pos : 0 < (4294967296 : UInt64) := by decide
  have le : (4294967296 : UInt64) ≤ 4294967296 := by decide
  obtain ⟨power, computed, value, -⟩ := wordPow_is_exact pos le 4294967295 2
  exact ⟨pos, le, power, computed, value⟩

end PirTuning.Rotation
