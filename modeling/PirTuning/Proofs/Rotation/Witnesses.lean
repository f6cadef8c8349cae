import Mathlib.Data.List.Lex
import Mathlib.Order.Bounds.Basic
import PirTuning.Rotation.Witness
import PirTuning.Proofs.Rotation.Powers
import PirTuning.Proofs.Rotation.Reach

/-!
# The search for witnesses

Square-and-multiply and the reduced running product come to the same residue as
multiplying the powers out, so the depth of the earliest witness is the first
depth at which the target is reached.
-/

namespace PirTuning.Rotation.Witness

theorem productOn_eq {modulus acc : Nat} (reduced : acc < modulus) (generators split : List Nat) :
    productOn modulus acc generators split = acc * monomial generators split % modulus := by
  induction generators generalizing split acc with
  | nil => simp [productOn, monomial, Nat.mod_eq_of_lt reduced]
  | cons g generators ih =>
    cases split with
    | nil => simp [productOn, Nat.mod_eq_of_lt reduced]
    | cons e split =>
      have positive : 0 < modulus := Nat.zero_lt_of_lt reduced
      rw [productOn, ih (Nat.mod_lt _ positive), modPow_eq _ _ positive, monomial_cons,
        accumulate_mod]

theorem product_eq {modulus : Nat} (positive : 0 < modulus) (generators split : List Nat) :
    product modulus generators split = monomial generators split % modulus := by
  rw [product, productOn_eq (Nat.mod_lt _ positive)]
  exact Nat.ModEq.trans (Nat.ModEq.mul_right _ (Nat.mod_modEq _ _)) (by rw [Nat.one_mul])

variable {ring : SlotRing} {generators : List Nat} {i : Nat}

/-- A depth holds a witness exactly if the target is reached at it. -/
theorem isSome_find? (ring : SlotRing) (i : Nat) (some_generator : 0 < generators.length) (t : Nat) :
    ((Split.walk generators.length t).find?
        fun split => product ring.modulus generators split == ring.target i).isSome
      = decide (ReachedAt ring generators i t) := by
  rw [Walk.find?_eq, Bool.eq_iff_iff, List.find?_isSome]
  simp only [decide_eq_true_eq, beq_iff_eq]
  have residue : ∀ split, product ring.modulus generators split = ring.target i ↔
      monomial generators split ≡ ring.target i [MOD ring.modulus] := by
    intro split
    rw [product_eq ring.modulus_pos, Nat.ModEq, Nat.mod_eq_of_lt (ring.target_lt i)]
  simp only [residue, Split.mem_walk some_generator, ReachedAt, and_assoc]

theorem depth_earliestFrom? (some_generator : 0 < generators.length) (t depths : Nat) :
    (earliestFrom? ring.modulus generators (ring.target i) t depths).map Witness.depth
      = (List.range' t depths).find? fun s => ReachedAt ring generators i s := by
  induction depths generalizing t with
  | zero => rfl
  | succ depths ih =>
    have here := isSome_find? ring i some_generator t
    rw [earliestFrom?, List.range'_succ, List.find?_cons]
    cases hit : (Split.walk generators.length t).find?
        (fun split => product ring.modulus generators split == ring.target i) with
    | none =>
      rw [hit] at here
      rw [← here]
      exact ih (t + 1)
    | some split =>
      rw [hit] at here
      rw [← here]
      rfl

end Witness

variable {ring : SlotRing} {generators : List Nat} {i : Nat}

/-- The depth of the earliest witness is the first depth below the limit. -/
theorem depth_earliestWitness? (some_generator : 0 < generators.length) (lt : i < ring.logN)
    (limit : Nat) :
    (earliestWitness? ring generators i limit).map Witness.depth
      = depthBelow? ring generators limit i := by
  have target_eq : ring.targets[i]? = some (ring.target i) := by
    simp [SlotRing.targets, lt]
  rw [earliestWitness?, target_eq, depthBelow?, List.range_eq_range']
  exact Witness.depth_earliestFrom? some_generator 0 limit

/-! ## The earliest exponents -/

/-- Exponents whose product is a target: none with a smaller sum lead there, and none of the
    same sum that come before them. -/
structure Earliest (ring : SlotRing) (generators : List Nat) (i : Nat) (exponents : List Nat) :
    Prop where
  length_eq : exponents.length = generators.length
  product_eq : monomial generators exponents % ring.modulus = ring.target i
  least_sum : ∀ other : List Nat, other.length = generators.length →
    monomial generators other % ring.modulus = ring.target i → exponents.sum ≤ other.sum
  first : ∀ other : List Nat, other.length = generators.length → other.sum = exponents.sum →
    monomial generators other % ring.modulus = ring.target i →
    ¬ List.Lex (· < ·) other exponents

theorem reachedAt_iff_exists {t : Nat} :
    ReachedAt ring generators i t ↔ ∃ exponents : List Nat, exponents.length = generators.length ∧
      exponents.sum = t ∧ monomial generators exponents % ring.modulus = ring.target i := by
  simp only [ReachedAt, Nat.ModEq, Nat.mod_eq_of_lt (ring.target_lt i)]

/-- What a walk finds comes before everything else that it could have found. -/
theorem find?_walk {k t : Nat} (pos : 0 < k) {found : List Nat} {p : List Nat → Bool}
    (first : (Split.walk k t).find? p = some found) :
    found.length = k ∧ found.sum = t ∧ p found = true ∧
      ∀ other : List Nat, other.length = k → other.sum = t → p other = true →
        ¬ List.Lex (· < ·) other found := by
  rw [Walk.find?_eq, List.find?_eq_some_iff_append] at first
  obtain ⟨holds, before, after, split, none_before⟩ := first
  have member : found ∈ (Split.walk k t).toList := by simp [split]
  obtain ⟨length_eq, sum_eq⟩ := (Split.mem_walk pos).mp member
  refine ⟨length_eq, sum_eq, holds, fun other other_length other_sum other_holds less => ?_⟩
  have among := (Split.mem_walk pos).mpr ⟨other_length, other_sum⟩
  have ordered := Split.pairwise_walk pos t
  rw [split, List.mem_append, List.mem_cons] at among
  rw [split, List.pairwise_append, List.pairwise_cons] at ordered
  rcases among with earlier | rfl | later
  · simpa [other_holds] using none_before other earlier
  · exact Std.Asymm.asymm _ _ less less
  · exact Std.Asymm.asymm _ _ less (ordered.2.1.1 other later)

theorem Witness.find?_of_earliestFrom? {modulus target t depths : Nat} {witness : Witness}
    (found : earliestFrom? modulus generators target t depths = some witness) :
    (Split.walk generators.length witness.depth).find?
      (fun split => product modulus generators split == target) = some witness.split := by
  induction depths generalizing t with
  | zero => cases found
  | succ depths ih =>
    rw [earliestFrom?] at found
    split at found
    next split hit =>
      cases found
      exact hit
    next => exact ih found

theorem Earliest.isLeast {exponents : List Nat} (earliest : Earliest ring generators i exponents) :
    IsLeast {t | ReachedAt ring generators i t} exponents.sum := by
  constructor
  · exact reachedAt_iff_exists.mpr ⟨exponents, earliest.length_eq, rfl, earliest.product_eq⟩
  · intro t reached
    obtain ⟨other, length_eq, rfl, product_eq⟩ := reachedAt_iff_exists.mp reached
    exact earliest.least_sum other length_eq product_eq

theorem Earliest.unique {a b : List Nat} (ha : Earliest ring generators i a)
    (hb : Earliest ring generators i b) : a = b := by
  have sums : a.sum = b.sum := ha.isLeast.unique hb.isLeast
  exact Std.Trichotomous.trichotomous a b (hb.first a ha.length_eq sums ha.product_eq)
    (ha.first b hb.length_eq sums.symm hb.product_eq)

/-- The first of the earliest exponents lead to the target without the rest exactly if the rest
    are zero: otherwise their sum would be smaller. -/
theorem Earliest.take_reaches_iff {exponents : List Nat}
    (earliest : Earliest ring generators i exponents) (count : Nat) :
    monomial generators (exponents.take count) % ring.modulus = ring.target i ↔
      (exponents.take count).sum = exponents.sum := by
  have cut : (exponents.take count).sum + (exponents.drop count).sum = exponents.sum := by
    rw [← List.sum_append, List.take_append_drop]
  have filled := monomial_append_zeros generators (exponents.take count)
    (exponents.drop count).length
  constructor
  · intro reached
    -- filled up with zeros, the first exponents would be a smaller way to the target
    have least := earliest.least_sum
      (exponents.take count ++ List.replicate (exponents.drop count).length 0)
      (by rw [List.length_append, List.length_replicate, ← List.length_append,
        List.take_append_drop, earliest.length_eq])
      (by rw [filled, reached])
    rw [List.sum_append, List.sum_replicate_nat, Nat.mul_zero] at least
    omega
  · intro same
    have rest_zero : ∀ e ∈ exponents.drop count, e = 0 :=
      List.sum_eq_zero_iff_forall_eq_nat.mp (by omega)
    rw [← List.eq_replicate_of_mem rest_zero, List.take_append_drop] at filled
    rw [← filled, earliest.product_eq]

theorem earliest_of_witness (some_generator : 0 < generators.length) (lt : i < ring.logN)
    {limit : Nat} {witness : Witness}
    (found : earliestWitness? ring generators i limit = some witness) :
    witness.depth < limit ∧ witness.split.sum = witness.depth ∧
      Earliest ring generators i witness.split := by
  have depth := depth_earliestWitness? some_generator lt limit
  rw [found, Option.map_some, eq_comm, depthBelow?_eq_some_iff] at depth
  obtain ⟨below, -, least⟩ := depth
  have target_eq : ring.targets[i]? = some (ring.target i) := by
    simp [SlotRing.targets, lt]
  rw [earliestWitness?, target_eq] at found
  obtain ⟨length_eq, sum_eq, holds, first⟩ :=
    find?_walk some_generator (Witness.find?_of_earliestFrom? found)
  simp only [beq_iff_eq, Witness.product_eq ring.modulus_pos] at holds first
  refine ⟨below, sum_eq, length_eq, holds, fun other other_length reached => ?_, ?_⟩
  · rw [sum_eq]
    exact least (reachedAt_iff_exists.mpr ⟨other, other_length, rfl, reached⟩)
  · intro other other_length other_sum reached
    exact first other other_length (other_sum.trans sum_eq) reached

/-- The search for witnesses finds the earliest exponents if their sum is below the limit, and
    nothing else. -/
theorem earliestWitness?_eq_some_iff (some_generator : 0 < generators.length)
    (lt : i < ring.logN) {limit : Nat} {witness : Witness} :
    earliestWitness? ring generators i limit = some witness ↔
      witness.depth < limit ∧ witness.split.sum = witness.depth ∧
        Earliest ring generators i witness.split := by
  refine ⟨earliest_of_witness some_generator lt, ?_⟩
  rintro ⟨below, sum_eq, earliest⟩
  have depth := depth_earliestWitness? some_generator lt limit
  rw [depthBelow?_eq_some_iff.mpr ⟨sum_eq ▸ below, earliest.isLeast⟩, Option.map_eq_some_iff]
    at depth
  obtain ⟨other, found, depth_eq⟩ := depth
  obtain ⟨-, -, other_earliest⟩ := earliest_of_witness some_generator lt found
  have split_eq : other.split = witness.split := other_earliest.unique earliest
  rw [found]
  cases other
  cases witness
  simp_all

/-! ## What a search answers -/

/-- Earliest exponents come first among all that lead to the target, smaller sums before larger
    ones and each sum in lexicographic order. -/
theorem earliest_iff {exponents : List Nat} :
    Earliest ring generators i exponents ↔ exponents.length = generators.length ∧
      monomial generators exponents % ring.modulus = ring.target i ∧
      ∀ other : List Nat, other.length = generators.length →
        monomial generators other % ring.modulus = ring.target i →
        exponents.sum < other.sum ∨ exponents.sum = other.sum ∧
          (exponents = other ∨ List.Lex (· < ·) exponents other) := by
  constructor
  · intro earliest
    refine ⟨earliest.length_eq, earliest.product_eq, fun other length_eq product_eq => ?_⟩
    rcases Nat.lt_or_eq_of_le (earliest.least_sum other length_eq product_eq) with less | same
    · exact .inl less
    · refine .inr ⟨same, ?_⟩
      -- of two exponent lists that are neither equal nor in this order the other one comes first
      by_contra later
      rw [not_or] at later
      have not_before := earliest.first other length_eq same.symm product_eq
      exact later.1 (Std.Trichotomous.trichotomous _ _ later.2 not_before)
  · rintro ⟨length_eq, product_eq, least⟩
    refine ⟨length_eq, product_eq, fun other other_length reached => ?_,
      fun other other_length same reached before => ?_⟩
    · rcases least other other_length reached with less | ⟨same, -⟩
      · exact Nat.le_of_lt less
      · exact Nat.le_of_eq same
    · rcases least other other_length reached with less | ⟨-, rfl | after⟩
      · omega
      · exact Std.Asymm.asymm _ _ before before
      · exact Std.Asymm.asymm _ _ before after

theorem earliestWitness?_of_no_target (none_there : ring.logN ≤ i) (limit : Nat) :
    earliestWitness? ring generators i limit = none := by
  have no_target : ring.targets[i]? = none :=
    List.getElem?_eq_none (by rwa [ring.length_targets])
  rw [earliestWitness?, no_target]

theorem index_lt_of_witness {limit : Nat} {witness : Witness}
    (found : earliestWitness? ring generators i limit = some witness) : i < ring.logN := by
  by_contra beyond
  rw [earliestWitness?_of_no_target (Nat.not_lt.mp beyond)] at found
  cases found

/-- A search has an answer if the index has a target and exponents of a sum below the limit
    lead there, and only then.  The answer is the least sum, together with the
    lexicographically least exponents of that sum; a higher limit does not change it. -/
theorem witness_search_is_exact (two_le : 2 ≤ generators.length) (index : Nat) :
    (∀ limit, (∃ witness, earliestWitness? ring generators index limit = some witness) ↔
      index < ring.logN ∧ ∃ exponents : List Nat, exponents.length = generators.length ∧
        exponents.sum < limit ∧
        monomial generators exponents % ring.modulus = ring.target index) ∧
    (∀ limit witness, earliestWitness? ring generators index limit = some witness ↔
      index < ring.logN ∧ witness.depth < limit ∧ witness.split.sum = witness.depth ∧
        witness.split.length = generators.length ∧
        monomial generators witness.split % ring.modulus = ring.target index ∧
        ∀ other : List Nat, other.length = generators.length →
          monomial generators other % ring.modulus = ring.target index →
          witness.split.sum < other.sum ∨ witness.split.sum = other.sum ∧
            (witness.split = other ∨ List.Lex (· < ·) witness.split other)) ∧
    ∀ limit limit' witness, limit ≤ limit' →
      earliestWitness? ring generators index limit = some witness →
      earliestWitness? ring generators index limit' = some witness := by
  have some_generator : 0 < generators.length := Nat.zero_lt_of_lt two_le
  refine ⟨fun limit => ?_, fun limit witness => ?_, fun limit limit' witness le found => ?_⟩
  · constructor
    · rintro ⟨witness, found⟩
      have lt := index_lt_of_witness found
      obtain ⟨below, sum_eq, earliest⟩ := earliest_of_witness some_generator lt found
      exact ⟨lt, witness.split, earliest.length_eq, sum_eq ▸ below, earliest.product_eq⟩
    · rintro ⟨lt, exponents, length_eq, below, product_eq⟩
      have reached : ReachedAt ring generators index exponents.sum :=
        reachedAt_iff_exists.mpr ⟨exponents, length_eq, rfl, product_eq⟩
      -- a search without a result would have missed the depth that these exponents reach
      cases found : earliestWitness? ring generators index limit with
      | some witness => exact ⟨witness, rfl⟩
      | none =>
        have depth := depth_earliestWitness? some_generator lt limit
        rw [found, Option.map_none, eq_comm, depthBelow?_eq_none_iff] at depth
        exact absurd reached (depth _ below)
  · rw [← earliest_iff]
    constructor
    · intro found
      have lt := index_lt_of_witness found
      exact ⟨lt, (earliestWitness?_eq_some_iff some_generator lt).mp found⟩
    · rintro ⟨lt, answer⟩
      exact (earliestWitness?_eq_some_iff some_generator lt).mpr answer
  · have lt := index_lt_of_witness found
    rw [earliestWitness?_eq_some_iff some_generator lt] at found ⊢
    exact ⟨Nat.lt_of_lt_of_le found.1 le, found.2⟩

/-- Modulo 8 the product of 3 and 7 is target 5, and no power of one of them is. -/
theorem witness_search_is_exact_small :
    2 ≤ [3, 7].length ∧ earliestWitness? .fourSlots [3, 7] 0 3 = some ⟨2, [1, 1]⟩ ∧ 3 ≤ 100 ∧
      earliestWitness? .fourSlots [3, 7] 0 100 = some ⟨2, [1, 1]⟩ := by
  have found : earliestWitness? .fourSlots [3, 7] 0 3 = some ⟨2, [1, 1]⟩ := by decide +kernel
  exact ⟨by decide, found, by decide,
    (witness_search_is_exact (by decide) 0).2.2 3 100 _ (by decide) found⟩

end PirTuning.Rotation
