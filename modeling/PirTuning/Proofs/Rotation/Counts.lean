import Mathlib.Data.Nat.Choose.Bounds
import PirTuning.Proofs.Rotation.Enumeration

/-!
# The number of splits in words

A count runs through binomial coefficients: the next factor and the division by its place
lead from one to the next, and the division is always exact.  What may go wrong is the
product before the division, which is larger than the coefficient behind it.  The last
product is the largest, so a count comes to an end exactly if that one fits into a word.
-/

namespace PirTuning.Rotation.Split

variable {n acc : UInt64} {i : Nat}

/-! ## One factor -/

theorem choose_mul_sub (m i : Nat) : m.choose i * (m - i) = (i + 1) * m.choose (i + 1) := by
  rw [Nat.mul_comm (i + 1), Nat.choose_succ_right_eq]

/-- A coefficient is no larger than the product in front of it. -/
theorem choose_lt_of_product {m : Nat} (pos : 0 < i) (fits : i * m.choose i < UInt64.size) :
    m.choose i < UInt64.size :=
  (Nat.le_mul_of_pos_left _ pos).trans_lt fits

theorem sub_ofNat_eq (lt : i < n.toNat) :
    Word.sub n (.ofNat i) = .ok (.ofNat (n.toNat - i)) := by
  have n_lt := n.toNat_lt_size
  rw [Word.sub_eq_ok_iff, UInt64.toNat_ofNat_of_lt' (by omega : n.toNat - i < UInt64.size),
    UInt64.toNat_ofNat_of_lt' (lt.trans n_lt)]
  omega

theorem countStep?_of_fits (lt : i < n.toNat) (acc_eq : acc.toNat = n.toNat.choose i)
    (fits : (i + 1) * n.toNat.choose (i + 1) < UInt64.size) :
    countStep? n acc i = .ok (.ofNat (n.toNat.choose (i + 1))) := by
  have n_lt := n.toNat_lt_size
  have factor_eq : (UInt64.ofNat (n.toNat - i)).toNat = n.toNat - i :=
    UInt64.toNat_ofNat_of_lt' (by omega)
  have product_eq := UInt64.toNat_ofNat_of_lt' fits
  have place_eq : (UInt64.ofNat (i + 1)).toNat = i + 1 := UInt64.toNat_ofNat_of_lt' (by omega)
  have quotient_eq := UInt64.toNat_ofNat_of_lt' (choose_lt_of_product (Nat.succ_pos i) fits)
  have multiplied : Word.mul acc (.ofNat (n.toNat - i))
      = .ok (.ofNat ((i + 1) * n.toNat.choose (i + 1))) := by
    rw [Word.mul_eq_ok_iff, product_eq, acc_eq, factor_eq, choose_mul_sub]
  have place : Word.add (.ofNat i) 1 = .ok (.ofNat (i + 1)) := by
    rw [Word.add_eq_ok_iff, place_eq, UInt64.toNat_ofNat_of_lt' (lt.trans n_lt), UInt64.toNat_one]
  have divided : Word.div (.ofNat ((i + 1) * n.toNat.choose (i + 1))) (.ofNat (i + 1))
      = .ok (.ofNat (n.toNat.choose (i + 1))) := by
    rw [Word.div_eq_ok_iff, product_eq, place_eq, quotient_eq]
    exact ⟨Nat.succ_pos i, Nat.mul_comm _ _⟩
  rw [countStep?, sub_ofNat_eq lt, Word.ok_bind, multiplied, Word.ok_bind, place, Word.ok_bind,
    divided]

theorem countStep?_of_large (lt : i < n.toNat) (acc_eq : acc.toNat = n.toNat.choose i)
    (large : UInt64.size ≤ (i + 1) * n.toNat.choose (i + 1)) :
    ∃ factor : UInt64, UInt64.size ≤ acc.toNat * factor.toNat ∧
      countStep? n acc i = .error (.product acc factor) := by
  have n_lt := n.toNat_lt_size
  have overflow : UInt64.size ≤ acc.toNat * (UInt64.ofNat (n.toNat - i)).toNat := by
    rw [acc_eq, UInt64.toNat_ofNat_of_lt' (by omega : n.toNat - i < UInt64.size), choose_mul_sub]
    exact large
  refine ⟨.ofNat (n.toNat - i), overflow, ?_⟩
  rw [countStep?, sub_ofNat_eq lt, Word.ok_bind, Word.mul, if_neg (Nat.not_lt.mpr overflow)]
  rfl

/-! ## All factors -/

/-- The products on the way to `n` choose `factors` fit into a word. -/
def ProductsFit (n factors : Nat) : Prop :=
  ∀ i < factors, (i + 1) * n.choose (i + 1) < UInt64.size

/-- The factors lead to the coefficient, or one of their products does not fit.  No difference
    is below zero on the way, and no division leaves a remainder. -/
theorem foldlM_countStep?_cases (n : UInt64) (factors : Nat) (le : factors ≤ n.toNat) :
    (ProductsFit n.toNat factors ∧ n.toNat.choose factors < UInt64.size ∧
      (List.range factors).foldlM (countStep? n) 1 = .ok (.ofNat (n.toNat.choose factors))) ∨
    (¬ ProductsFit n.toNat factors ∧ ∃ a b : UInt64, UInt64.size ≤ a.toNat * b.toNat ∧
      (List.range factors).foldlM (countStep? n) 1 = .error (.product a b)) := by
  -- as long as all products fit, the fold holds a binomial coefficient, and each division is exact
  induction factors with
  | zero =>
    refine .inl ⟨fun i lt => absurd lt (Nat.not_lt_zero i), ?_, ?_⟩
    · rw [Nat.choose_zero_right]
      decide
    · rw [Nat.choose_zero_right]
      rfl
  | succ factors ih =>
    rw [List.range_succ, List.foldlM_append]
    rcases ih (Nat.le_of_succ_le le) with ⟨fit, acc_lt, so_far⟩ | ⟨unfit, a, b, large, stopped⟩
    · have acc_eq := UInt64.toNat_ofNat_of_lt' acc_lt
      simp only [so_far, Word.ok_bind, List.foldlM_cons, List.foldlM_nil, bind_pure]
      by_cases fits : (factors + 1) * n.toNat.choose (factors + 1) < UInt64.size
      · refine .inl ⟨fun i lt => ?_, choose_lt_of_product (Nat.succ_pos _) fits,
          countStep?_of_fits le acc_eq fits⟩
        rcases Nat.lt_succ_iff_lt_or_eq.mp lt with before | rfl
        · exact fit i before
        · exact fits
      · obtain ⟨factor, large, stopped⟩ := countStep?_of_large le acc_eq (Nat.not_lt.mp fits)
        exact .inr ⟨fun fit => fits (fit _ (Nat.lt_succ_self _)), _, factor, large, stopped⟩
    · refine .inr ⟨fun fit => unfit fun i lt => fit i (Nat.lt_succ_of_lt lt), a, b, large, ?_⟩
      rw [stopped]
      rfl

theorem count?_eq_foldlM {k : Nat} (pos : 0 < k) (k_lt : k < 2 ^ 32) (t : UInt32) :
    count? k t =
      (List.range (k - 1)).foldlM (countStep? (.ofNat (t.toNat + k - 1))) 1 := by
  have fits : t.toNat + k < UInt64.size :=
    (Nat.add_lt_add t.toNat_lt_size k_lt).trans (by decide)
  have k_eq : (UInt64.ofNat k).toNat = k := UInt64.toNat_ofNat_of_lt' (k_lt.trans (by decide))
  have factors_eq : (UInt64.ofNat (k - 1)).toNat = k - 1 :=
    UInt64.toNat_ofNat_of_lt' (by omega)
  have places_eq : (UInt64.ofNat (t.toNat + k)).toNat = t.toNat + k :=
    UInt64.toNat_ofNat_of_lt' fits
  have n_eq : (UInt64.ofNat (t.toNat + k - 1)).toNat = t.toNat + k - 1 :=
    UInt64.toNat_ofNat_of_lt' (by omega)
  -- sum and differences in front of the fold stay inside a word for fewer than 2 ^ 32 places
  have places : Word.add t.toUInt64 (.ofNat k) = .ok (.ofNat (t.toNat + k)) := by
    rw [Word.add_eq_ok_iff, places_eq, k_eq, UInt32.toNat_toUInt64]
  have n : Word.sub (.ofNat (t.toNat + k)) 1 = .ok (.ofNat (t.toNat + k - 1)) := by
    rw [Word.sub_eq_ok_iff, places_eq, n_eq, UInt64.toNat_one]
    omega
  have factors : Word.sub (.ofNat k) 1 = .ok (.ofNat (k - 1)) := by
    rw [Word.sub_eq_ok_iff, k_eq, factors_eq, UInt64.toNat_one]
    omega
  rw [count?, places, Word.ok_bind, n, Word.ok_bind, factors, Word.ok_bind, factors_eq]

theorem count?_cases {k : Nat} (pos : 0 < k) (k_lt : k < 2 ^ 32) (t : UInt32) :
    (ProductsFit (t.toNat + k - 1) (k - 1) ∧ (t.toNat + k - 1).choose (k - 1) < UInt64.size ∧
      count? k t = .ok (.ofNat ((t.toNat + k - 1).choose (k - 1)))) ∨
    (¬ ProductsFit (t.toNat + k - 1) (k - 1) ∧ ∃ a b : UInt64,
      UInt64.size ≤ a.toNat * b.toNat ∧ count? k t = .error (.product a b)) := by
  have n_lt : t.toNat + k - 1 < UInt64.size :=
    (Nat.sub_le _ _).trans_lt ((Nat.add_lt_add t.toNat_lt_size k_lt).trans (by decide))
  have cases := foldlM_countStep?_cases (.ofNat (t.toNat + k - 1)) (k - 1)
  rw [UInt64.toNat_ofNat_of_lt' n_lt] at cases
  rw [count?_eq_foldlM pos k_lt]
  exact cases (by omega)

/-! ## The largest product -/

/-- Up to the middle of a row the coefficients grow. -/
theorem choose_le_of_le_middle {m i j : Nat} (le : i ≤ j) (middle : 2 * j ≤ m) :
    m.choose i ≤ m.choose j := by
  induction le with
  | refl => exact Nat.le_refl _
  | @step j le ih =>
    have more : m.choose j ≤ m.choose (j + 1) := Nat.choose_le_succ_of_lt_half_left (by omega)
    exact (ih (by omega)).trans more

/-- Each product is a coefficient of the row above times the length of its own, so the last
    one is the largest unless the row is so short that all of them are small. -/
theorem products_fit {m j : Nat} (j_le : j ≤ 28)
    (last : (j + 1) * (m + 1).choose (j + 1) < UInt64.size) {i : Nat} (le : i ≤ j) :
    (i + 1) * (m + 1).choose (i + 1) < UInt64.size := by
  have product_eq : ∀ i, (i + 1) * (m + 1).choose (i + 1) = (m + 1) * m.choose i := fun i => by
    rw [Nat.mul_comm, Nat.add_one_mul_choose_eq]
  rw [product_eq] at last ⊢
  by_cases middle : 2 * j ≤ m
  · exact (Nat.mul_le_mul_left _ (choose_le_of_le_middle le middle)).trans_lt last
  · have m_le : m ≤ 55 := by omega
    calc (m + 1) * m.choose i
        ≤ 56 * 2 ^ 55 := Nat.mul_le_mul (Nat.succ_le_succ m_le)
          ((Nat.choose_le_two_pow m i).trans (Nat.pow_le_pow_right Nat.two_pos m_le))
      _ < UInt64.size := by decide

/-- The largest depth whose splits across `k` places can be counted in words. -/
def lastCounted : Nat → Nat
  | 3 => 4294967294
  | 4 => 3329019
  | 5 => 102566
  | _ => 4294967295

theorem lt_iff_of_monotone {f : Nat → Nat} (grows : Monotone f) {bound last : Nat}
    (below : f last < bound) (above : bound ≤ f (last + 1)) (t : Nat) :
    f t < bound ↔ t ≤ last := by
  constructor
  · intro fits
    by_contra later
    exact absurd fits (Nat.not_lt.mpr (above.trans (grows (Nat.lt_of_not_le later))))
  · intro le
    exact (grows le).trans_lt below

theorem product_fits_iff {k : Nat} (two_le : 2 ≤ k) (le_five : k ≤ 5) (t : UInt32) :
    (k - 1) * (t.toNat + k - 1).choose (k - 1) < UInt64.size ↔ t.toNat ≤ lastCounted k := by
  have grows : Monotone fun t => (k - 1) * (t + k - 1).choose (k - 1) := fun t t' le =>
    Nat.mul_le_mul_left _ (Nat.choose_le_choose _ (by omega))
  -- `k - 1` factors over a factorial can be evaluated
  simp only [Nat.choose_eq_descFactorial_div_factorial] at grows ⊢
  have t_le : t.toNat ≤ 4294967295 := Nat.le_of_lt_succ t.toNat_lt_size
  obtain rfl | rfl | rfl | rfl : k = 2 ∨ k = 3 ∨ k = 4 ∨ k = 5 := by omega
  · exact iff_of_true ((grows t_le).trans_lt (by decide)) t_le
  · exact lt_iff_of_monotone grows (by decide) (by decide) _
  · exact lt_iff_of_monotone grows (by decide) (by decide) _
  · exact lt_iff_of_monotone grows (by decide) (by decide) _

/-! ## The count -/

theorem productsFit_iff_last {k : Nat} (two_le : 2 ≤ k) (le_thirty : k ≤ 30) (t : Nat) :
    ProductsFit (t + k - 1) (k - 1) ↔
      (k - 1) * (t + k - 1).choose (k - 1) < UInt64.size := by
  obtain ⟨j, rfl⟩ := Nat.exists_eq_add_of_le' two_le
  refine ⟨fun fit => fit j (Nat.lt_succ_self j), fun last i lt => ?_⟩
  exact products_fit (m := t + j) (by omega) last (Nat.le_of_lt_succ lt)

/-- The splits of a depth are as many as the binomial coefficient says.  The count comes to that
    number, without a remainder in any division, exactly if its last product, `k - 1` times the
    number itself, fits into a word: for pairs always, for the other arities up to a depth of
    their own.  Beyond that it stops at a product that is too large. -/
theorem count_is_exact_iff {k : Nat} (two_le : 2 ≤ k) (le_five : k ≤ 5) (t : UInt32) :
    (walk k t.toNat).toList.length = (t.toNat + k - 1).choose (k - 1) ∧
    (∀ c, count? k t = .ok c ↔
      (k - 1) * (t.toNat + k - 1).choose (k - 1) < UInt64.size ∧
        c.toNat = (t.toNat + k - 1).choose (k - 1)) ∧
    ((k - 1) * (t.toNat + k - 1).choose (k - 1) < UInt64.size ↔ t.toNat ≤ lastCounted k) ∧
    (lastCounted k < t.toNat → ∃ a b : UInt64,
      UInt64.size ≤ a.toNat * b.toNat ∧ count? k t = .error (.product a b)) := by
  have last := product_fits_iff two_le le_five t
  have fit_iff := productsFit_iff_last two_le (by omega) t.toNat
  have k_lt : k < 2 ^ 32 := le_five.trans_lt (by decide)
  have cases := count?_cases (Nat.zero_lt_of_lt two_le) k_lt t
  rw [fit_iff] at cases
  refine ⟨?_, fun c => ?_, last, fun later => ?_⟩
  · obtain ⟨j, rfl⟩ := Nat.exists_eq_add_of_le' two_le
    rw [toList_walk (Nat.succ_pos _)]
    exact length_all (j + 1) t.toNat
  · rcases cases with ⟨fits, number_lt, counted⟩ | ⟨unfit, a, b, -, stopped⟩
    · rw [counted, Except.ok.injEq, ← UInt64.toNat_inj, UInt64.toNat_ofNat_of_lt' number_lt]
      exact ⟨fun eq => ⟨fits, eq.symm⟩, fun ⟨_, eq⟩ => eq.symm⟩
    · rw [stopped]
      exact iff_of_false nofun fun ⟨fits, _⟩ => unfit fits
  · rcases cases with ⟨fits, -⟩ | ⟨-, stopped⟩
    · exact absurd (last.mp fits) (Nat.not_le.mpr later)
    · exact stopped

/-- There are 286 splits of 10 across four places, and 858 is the largest product. -/
theorem count_is_exact_iff_ten :
    2 ≤ 4 ∧ 4 ≤ 5 ∧ count? 4 10 = .ok 286 ∧ 3 * 286 < UInt64.size := by
  have fits : 3 * (10 + 4 - 1).choose 3 < UInt64.size := by decide
  exact ⟨by decide, by decide,
    ((count_is_exact_iff (k := 4) (by decide) (by decide) 10).2.1 286).mpr ⟨fits, by decide⟩, fits⟩

/-- The triples of the largest depth are few enough for a word, but their count stops. -/
theorem triples_are_not_counted :
    (walk 3 4294967295).toList.length = 9223372039002259456 ∧
    9223372039002259456 < UInt64.size ∧
    count? 3 4294967295 = .error (.product 4294967297 4294967296) := by
  refine ⟨?_, by decide, by decide⟩
  rw [toList_walk (Nat.succ_pos 2), length_all 2, Nat.choose_eq_descFactorial_div_factorial]
  decide

end PirTuning.Rotation.Split
