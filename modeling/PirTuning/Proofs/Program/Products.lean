import PirTuning.Proofs.Program.Report

/-!
# Products in a report

The line of a target ends with a product of named powers.  There are names for three
generators at most, so from the fourth generator on exponents are left out of print, and no
part of the line is a product of all generators.  What is left out decides whether the rest
still comes to the target.
-/

namespace PirTuning.Program

open PirTuning.Rotation

variable {ring : SlotRing} {generators times exponents : List Nat}

/-! ## Factors -/

/-- A product of named powers. -/
def factorsText (factors : List (String × Nat)) : String :=
  " * ".intercalate (factors.map fun factor => s!"{factor.1}^{factor.2}")

/-- The exponents that have names in print, with these names. -/
def namedExponents (exponents : List Nat) : List (String × Nat) :=
  (labels exponents.length).zip exponents

/-- The line of target `i`, reached at depth `t` by the product of some factors. -/
def factorsLine (ring : SlotRing) (i t : Nat) (factors : List (String × Nat)) : String :=
  s!"  1 + N/2^{i} = {ring.target i} (weight {ring.weight i}): t={t} via {factorsText factors}"

/-- One factor for each generator, with a name of its own.  The product is target `i`, and the
    exponents sum to `t`. -/
structure Complete (ring : SlotRing) (generators : List Nat) (i t : Nat)
    (factors : List (String × Nat)) : Prop where
  names_nodup : (factors.map Prod.fst).Nodup
  length_eq : factors.length = generators.length
  sum_eq : (factors.map Prod.snd).sum = t
  product_eq : monomial generators (factors.map Prod.snd) % ring.modulus = ring.target i

/-- A line shows a text somewhere. -/
def Contains (line text : String) : Prop :=
  text.toList <:+: line.toList

theorem productText_eq_factorsText (exponents : List Nat) :
    productText exponents = factorsText (namedExponents exponents) := by
  rw [productText, factorsText, namedExponents, List.map_zip_eq_zipWith]
  rfl

theorem witnessLine_eq_factorsLine {i t : Nat}
    (found : earliestWitness? ring generators i (t + 1) = some ⟨t, exponents⟩) :
    witnessLine ring generators i (ring.target i) t
      = factorsLine ring i t (namedExponents exponents) := by
  have product := productText_eq_factorsText exponents
  unfold witnessLine factorsLine
  rw [found, ← product]

/-- Only the first three exponents have names. -/
theorem map_snd_namedExponents (two_le : 2 ≤ exponents.length) :
    (namedExponents exponents).map Prod.snd = exponents.take 3 := by
  match exponents, two_le with
  | [a, b], _ => rfl
  | a :: b :: c :: later, _ => simp [namedExponents, labels]

theorem map_fst_namedExponents (two_le : 2 ≤ exponents.length) :
    (namedExponents exponents).map Prod.fst = labels exponents.length := by
  apply List.map_fst_zip
  rw [labels]
  split
  next two => rw [two]; rfl
  next more => exact Nat.lt_of_le_of_ne two_le (Ne.symm more)

/-! ## Stars -/

/-- Number of stars in a text. -/
def stars (text : String) : Nat :=
  text.toList.count '*'

@[simp] theorem stars_append (a b : String) : stars (a ++ b) = stars a + stars b := by
  simp [stars]

@[simp] theorem stars_repr (n : Nat) : stars n.repr = 0 := by
  have digits : ∀ c ∈ Nat.toDigits 10 n, c.isDigit = true := fun c member =>
    Nat.isDigit_of_mem_toDigits (by decide) (by decide) member
  have no_star : '*' ∉ Nat.toDigits 10 n := fun member => by simpa using digits _ member
  rw [stars, Nat.toList_repr]
  exact List.count_eq_zero_of_not_mem no_star

/-- Between two parts stands one star. -/
theorem stars_intercalate (first : String) (parts : List String) :
    stars (" * ".intercalate (first :: parts))
      = stars first + (parts.map stars).sum + parts.length := by
  induction parts generalizing first with
  | nil => simp
  | cons second parts ih =>
    have separator : stars " * " = 1 := by decide
    rw [String.intercalate_cons_cons, stars_append, stars_append, ih, separator]
    simp only [List.map_cons, List.sum_cons, List.length_cons]
    omega

theorem stars_factorsText {factors : List (String × Nat)} (some_factor : factors ≠ []) :
    stars (factorsText factors) + 1
      = (factors.map fun factor => stars factor.1).sum + factors.length := by
  have power : ∀ factor : String × Nat, stars s!"{factor.1}^{factor.2}" = stars factor.1 := by
    have caret : stars "^" = 0 := by decide
    simp [caret, toString]
  cases factors with
  | nil => contradiction
  | cons first factors =>
    rw [factorsText, List.map_cons, stars_intercalate, List.map_map]
    simp only [Function.comp_def, power, List.map_cons, List.sum_cons, List.length_cons,
      List.length_map]
    omega

theorem stars_namedExponents (two_le : 2 ≤ exponents.length) :
    stars (factorsText (namedExponents exponents)) ≤ 2 := by
  have names := map_fst_namedExponents two_le
  have few : (namedExponents exponents).length ≤ 3 := by
    rw [← List.length_map Prod.fst, names, labels]
    split <;> decide
  have no_star : ((namedExponents exponents).map fun factor => stars factor.1).sum = 0 := by
    rw [← Function.comp_def stars, ← List.map_map, names, labels]
    split <;> decide
  have some_name : namedExponents exponents ≠ [] := by
    rw [← List.length_pos_iff_ne_nil, ← List.length_map Prod.fst, names, labels]
    split <;> decide
  have stars_eq := stars_factorsText some_name
  omega

theorem stars_factorsLine (i t : Nat) (factors : List (String × Nat)) :
    stars (factorsLine ring i t factors) = stars (factorsText factors) := by
  have texts : stars "  1 + N/2^" = 0 ∧ stars " = " = 0 ∧ stars " (weight " = 0 ∧
      stars "): t=" = 0 ∧ stars " via " = 0 := by decide
  unfold factorsLine
  simp [toString, texts]

theorem Contains.stars_le {line text : String} (contains : Contains line text) :
    stars text ≤ stars line :=
  contains.sublist.count_le '*'

theorem contains_factorsLine (i t : Nat) (factors : List (String × Nat)) :
    Contains (factorsLine ring i t factors) (factorsText factors) := by
  refine ⟨s!"  1 + N/2^{i} = {ring.target i} (weight {ring.weight i}): t={t} via ".toList, [], ?_⟩
  unfold factorsLine
  simp [toString]

/-- A line has room for one factor more than it has stars. -/
theorem length_le_of_contains {line : String} {factors : List (String × Nat)}
    (contains : Contains line (factorsText factors)) : factors.length ≤ stars line + 1 := by
  cases factors with
  | nil => simp
  | cons first factors =>
    have stars_eq := stars_factorsText (List.cons_ne_nil first factors)
    have stars_le := contains.stars_le
    omega

theorem length_le_three {i t : Nat} {factors : List (String × Nat)}
    (two_le : 2 ≤ exponents.length)
    (contains : Contains (factorsLine ring i t (namedExponents exponents)) (factorsText factors)) :
    factors.length ≤ 3 := by
  have more_stars := length_le_of_contains contains
  rw [stars_factorsLine] at more_stars
  exact more_stars.trans (Nat.succ_le_succ (stars_namedExponents two_le))

/-! ## Lines -/

theorem complete_namedExponents {i : Nat} (earliest : Earliest ring generators i exponents)
    (two_le : 2 ≤ generators.length) (le_three : generators.length ≤ 3) :
    Complete ring generators i exponents.sum (namedExponents exponents) := by
  have length_eq := earliest.length_eq
  have shown : (namedExponents exponents).map Prod.snd = exponents := by
    rw [map_snd_namedExponents (by omega), List.take_of_length_le (by omega)]
  refine ⟨?_, ?_, ?_, ?_⟩
  · rw [map_fst_namedExponents (by omega), labels]
    split <;> decide
  · rw [← length_eq, ← congrArg List.length shown, List.length_map]
  · rw [shown]
  · rw [shown, earliest.product_eq]

/-- A set of generators that reaches all targets gets a line for each of them, which shows the
    first three of the earliest exponents.  The line has a product of all generators exactly
    if there are at most three of them; what it shows otherwise comes to the target only if
    the exponents that it leaves out are zero. -/
theorem products_of_witnessLines (two_le : 2 ≤ generators.length) {cost : Nat}
    (feasible : evaluate ring generators noCeiling = .feasible cost times) :
    ∃ exponents : Nat → List Nat,
      witnessLines? ring generators times = some ((List.range ring.logN).map fun i =>
        factorsLine ring i (times.getD i 0) (namedExponents (exponents i))) ∧
      ∀ i < ring.logN,
        Earliest ring generators i (exponents i) ∧ (exponents i).sum = times.getD i 0 ∧
        (namedExponents (exponents i)).map Prod.snd = (exponents i).take 3 ∧
        ((∃ factors, Complete ring generators i (times.getD i 0) factors ∧
          Contains (factorsLine ring i (times.getD i 0) (namedExponents (exponents i)))
            (factorsText factors)) ↔ generators.length ≤ 3) ∧
        (monomial generators ((exponents i).take 3) % ring.modulus = ring.target i ↔
          ((exponents i).take 3).sum = times.getD i 0) := by
  obtain ⟨length_eq, -, reached⟩ := earliest_of_feasible (by omega) feasible
  choose! exponents found sum_eq earliest using reached
  refine ⟨exponents, ?_, fun i lt => ?_⟩
  · rw [witnessLines?_eq length_eq]
    refine congrArg some (List.map_congr_left fun i member => ?_)
    exact witnessLine_eq_factorsLine (found i (List.mem_range.mp member))
  · have many : 2 ≤ (exponents i).length := (earliest i lt).length_eq.symm ▸ two_le
    refine ⟨earliest i lt, sum_eq i lt, map_snd_namedExponents many, ⟨?_, ?_⟩, ?_⟩
    · rintro ⟨factors, complete, contains⟩
      rw [← complete.length_eq]
      exact length_le_three many contains
    · intro le_three
      have complete := complete_namedExponents (earliest i lt) two_le le_three
      rw [sum_eq i lt] at complete
      exact ⟨_, complete, contains_factorsLine i _ _⟩
    · rw [← sum_eq i lt]
      exact (earliest i lt).take_reaches_iff 3

/-- Of the four generators 3, 7, 9 and 5 modulo 8 the last one is needed for target 5. -/
theorem products_of_four_generators :
    2 ≤ [3, 7, 9, 5].length ∧ evaluate .fourSlots [3, 7, 9, 5] noCeiling = .feasible 3 [1, 1] ∧
      ∃ (exponents : List Nat) (line : String),
        (witnessLines? .fourSlots [3, 7, 9, 5] [1, 1]).bind List.head? = some line ∧
        Earliest .fourSlots [3, 7, 9, 5] 0 exponents ∧ exponents.sum = 1 ∧
        line = factorsLine .fourSlots 0 1 (namedExponents exponents) ∧
        ¬ ∃ factors, Complete .fourSlots [3, 7, 9, 5] 0 1 factors ∧
          Contains line (factorsText factors) := by
  have feasible : evaluate .fourSlots [3, 7, 9, 5] noCeiling = .feasible 3 [1, 1] := by
    decide +kernel
  obtain ⟨exponents, lines, each⟩ := products_of_witnessLines (by decide) feasible
  obtain ⟨earliest, sum_eq, -, complete_iff, -⟩ := each 0 (by decide)
  refine ⟨by decide, feasible, exponents 0, _, ?_, earliest, sum_eq, rfl, ?_⟩
  · rw [lines]
    rfl
  · intro complete
    exact absurd (complete_iff.mp complete) (by decide)

/-- The same lines in full: what is printed for target 5 comes to 1. -/
theorem fourth_generator_not_shown :
    evaluate .fourSlots [3, 7, 9, 5] noCeiling = .feasible 3 [1, 1] ∧
      witnessLines? .fourSlots [3, 7, 9, 5] [1, 1] = some [
        "  1 + N/2^0 = 5 (weight 1): t=1 via f^0 * g^0 * h^0",
        "  1 + N/2^1 = 3 (weight 2): t=1 via f^1 * g^0 * h^0"] ∧
      ¬ ∃ factors, Complete .fourSlots [3, 7, 9, 5] 0 1 factors ∧
        Contains "  1 + N/2^0 = 5 (weight 1): t=1 via f^0 * g^0 * h^0" (factorsText factors) := by
  refine ⟨by decide +kernel, by decide +kernel, ?_⟩
  rintro ⟨factors, complete, contains⟩
  have four : factors.length = 4 := complete.length_eq
  have le_three := length_le_of_contains contains
  rw [four] at le_three
  exact absurd le_three (by decide)

end PirTuning.Program
