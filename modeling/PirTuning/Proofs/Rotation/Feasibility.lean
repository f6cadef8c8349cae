import Mathlib.Data.ZMod.Units
import Mathlib.GroupTheory.OrderOfElement
import Mathlib.Tactic.LinearCombination
import PirTuning.Proofs.Rotation.Pruning
import PirTuning.Proofs.Rotation.Words

/-!
# Which generator sets are feasible

Two of the targets are 3 and 5, and modulo 8 their products are all odd residues.  So
a feasible set needs generators from two of the classes 3, 5 and 7 modulo 8; even
generators are of no use to it.  Conversely two classes are enough for every odd
residue, whatever the size of the ring: a product that is 1 plus half the modulus
squares to 1 plus the whole modulus, which is the one digit that is missing when the
modulus doubles.
-/

namespace PirTuning.Rotation

/-- Those of the residues 3, 5 and 7 that the generators have modulo 8. -/
def oddClasses (generators : List Nat) : Finset Nat :=
  (generators.map (· % 8)).toFinset ∩ {3, 5, 7}

/-- The generators that are units. -/
def unitGenerators (modulus : Nat) (generators : List Nat) : Set (ZMod modulus)ˣ :=
  {u | ∃ g ∈ generators, (g : ZMod modulus) = u}

/-- Without a ceiling every target is reached. -/
def Feasible (ring : SlotRing) (generators : List Nat) : Prop :=
  ∃ cost times, evaluate ring generators noCeiling = .feasible cost times

variable {generators : List Nat}

theorem mem_oddClasses {r : Nat} :
    r ∈ oddClasses generators ↔
      (∃ g ∈ generators, g % 8 = r) ∧ (r = 3 ∨ r = 5 ∨ r = 7) := by
  simp [oddClasses]

/-! ## Modulo 8 -/

theorem odd_mod_eight {a b x : Nat} (a_class : a = 3 ∨ a = 5 ∨ a = 7)
    (b_class : b = 3 ∨ b = 5 ∨ b = 7) (ne : a ≠ b) (odd : Odd x) :
    x % 8 = 1 ∨ x % 8 = a ∨ x % 8 = b ∨ x % 8 = a * b % 8 := by
  rw [Nat.odd_iff] at odd
  rcases a_class with rfl | rfl | rfl <;> rcases b_class with rfl | rfl | rfl <;> omega

/-- Two classes make up all odd residues modulo 8. -/
theorem exists_product_mod_eight (two_classes : 2 ≤ (oddClasses generators).card) {x : Nat}
    (odd : Odd x) : ∃ p ∈ products generators, p ≡ x [MOD 8] := by
  obtain ⟨a, a_class, b, b_class, ne⟩ := Finset.one_lt_card.mp two_classes
  obtain ⟨⟨g, g_member, rfl⟩, a_cases⟩ := mem_oddClasses.mp a_class
  obtain ⟨⟨h, h_member, rfl⟩, b_cases⟩ := mem_oddClasses.mp b_class
  rcases odd_mod_eight a_cases b_cases ne odd with one | first | second | both
  · exact ⟨1, one_mem _, one.symm⟩
  · exact ⟨g, mem_products g_member, first.symm⟩
  · exact ⟨h, mem_products h_member, second.symm⟩
  · exact ⟨g * h, mul_mem (mem_products g_member) (mem_products h_member),
      (Nat.mul_mod g h 8).trans both.symm⟩

/-- What one class makes up modulo 8: itself and 1, apart from even numbers. -/
def oneClass (r : Nat) (square : r * r % 8 = 1) : Submonoid Nat where
  carrier := {p | p % 2 = 0 ∨ p % 8 = 1 ∨ p % 8 = r}
  one_mem' := .inr (.inl rfl)
  mul_mem' := by
    intro p q left right
    have product : p * q % 8 = (p % 8) * (q % 8) % 8 := Nat.mul_mod p q 8
    rcases left with even | one | same
    · exact .inl (by rw [Nat.mul_mod, even, Nat.zero_mul])
    · rcases right with even | residue
      · exact .inl (by rw [Nat.mul_mod, even, Nat.mul_zero])
      · refine .inr ?_
        rwa [product, one, Nat.one_mul, Nat.mod_mod]
    · rcases right with even | one | same'
      · exact .inl (by rw [Nat.mul_mod, even, Nat.mul_zero])
      · refine .inr (.inr ?_)
        rw [product, one, Nat.mul_one, Nat.mod_mod, same]
      · refine .inr (.inl ?_)
        rw [product, same, same', square]

theorem products_le_oneClass {r : Nat} (square : r * r % 8 = 1)
    (one_class : oddClasses generators ⊆ {r}) : products generators ≤ oneClass r square := by
  refine Submonoid.closure_le.mpr fun g member => ?_
  by_cases some_class : g % 8 = 3 ∨ g % 8 = 5 ∨ g % 8 = 7
  · exact .inr (.inr (Finset.mem_singleton.mp
      (one_class (mem_oddClasses.mpr ⟨⟨g, member, rfl⟩, some_class⟩))))
  · change g % 2 = 0 ∨ g % 8 = 1 ∨ g % 8 = r
    omega

/-- Fewer than two classes do not make up both 3 and 5. -/
theorem two_classes_of_products {p q : Nat} (p_member : p ∈ products generators)
    (q_member : q ∈ products generators) (three : p % 8 = 3) (five : q % 8 = 5) :
    2 ≤ (oddClasses generators).card := by
  by_contra few
  obtain ⟨r, square, one_class⟩ : ∃ r, r * r % 8 = 1 ∧ oddClasses generators ⊆ {r} := by
    rcases (oddClasses generators).eq_empty_or_nonempty with empty | ⟨r, r_class⟩
    · exact ⟨1, rfl, by simp [empty]⟩
    · have alone : ∀ s ∈ oddClasses generators, s = r := fun s s_class =>
        Finset.card_le_one.mp (Nat.le_of_lt_succ (Nat.not_le.mp few)) s s_class r r_class
      obtain ⟨_, rfl | rfl | rfl⟩ := mem_oddClasses.mp r_class
      all_goals exact ⟨_, rfl, fun s s_class => Finset.mem_singleton.mpr (alone s s_class)⟩
  have p_residue : p % 2 = 0 ∨ p % 8 = 1 ∨ p % 8 = r := products_le_oneClass square one_class p_member
  have q_residue : q % 2 = 0 ∨ q % 8 = 1 ∨ q % 8 = r := products_le_oneClass square one_class q_member
  omega

/-! ## Doubling the modulus -/

theorem square_modEq {u half : Nat} (four_dvd : 4 ∣ half) (congruent : u ≡ 1 + half [MOD 2 * half]) :
    u * u ≡ 1 + 2 * half [MOD 2 * (2 * half)] := by
  obtain ⟨quarter, rfl⟩ := four_dvd
  obtain ⟨c, u_eq⟩ := Nat.modEq_iff_dvd.mp congruent
  rw [Nat.modEq_iff_dvd]
  -- the square of the half is a multiple of the new modulus, and drops out
  refine ⟨c - quarter * (1 - 2 * c) ^ 2, ?_⟩
  push_cast at u_eq ⊢
  have u_eq' : (u : ℤ) = 1 + 4 * quarter - 2 * (4 * quarter) * c := by linear_combination -u_eq
  rw [u_eq']
  ring

/-- Of an odd number and its product with 1 plus the modulus, one has the residue of
    `x` modulo the double. -/
theorem modEq_or_modEq_double {p x modulus : Nat} (odd : Odd p) (congruent : p ≡ x [MOD modulus]) :
    p ≡ x [MOD 2 * modulus] ∨ p * (1 + modulus) ≡ x [MOD 2 * modulus] := by
  obtain ⟨q, rfl⟩ := odd
  obtain ⟨c, x_eq⟩ := Nat.modEq_iff_dvd.mp congruent
  simp only [Nat.modEq_iff_dvd]
  push_cast at x_eq ⊢
  rcases Int.even_or_odd' c with ⟨d, rfl | rfl⟩
  · exact .inl ⟨d, by linear_combination x_eq⟩
  · exact .inr ⟨d - q, by linear_combination x_eq⟩

/-- Two classes make up every odd residue modulo a power of two. -/
theorem exists_product_modEq (two_classes : 2 ≤ (oddClasses generators).card) (k : Nat) {x : Nat}
    (odd : Odd x) : ∃ p ∈ products generators, p ≡ x [MOD 8 * 2 ^ k] := by
  induction k generalizing x with
  | zero => simpa using exists_product_mod_eight two_classes odd
  | succ k ih =>
    have halves : 8 * 2 ^ k = 2 * (4 * 2 ^ k) := by ring
    have double : 8 * 2 ^ (k + 1) = 2 * (8 * 2 ^ k) := by ring
    obtain ⟨p, p_member, congruent⟩ := ih odd
    obtain ⟨u, u_member, half⟩ := ih (x := 1 + 4 * 2 ^ k) ⟨2 * 2 ^ k, by ring⟩
    rw [halves] at half
    have square := square_modEq (Dvd.intro _ rfl) half
    have p_odd : Odd p := odd_of_modEq ⟨4 * 2 ^ k, halves⟩ congruent odd
    -- the digit that doubling adds is right, or the square puts it right
    rw [double]
    rcases modEq_or_modEq_double p_odd congruent with same | shifted
    · exact ⟨p, p_member, same⟩
    · rw [halves] at shifted ⊢
      exact ⟨p * (u * u), mul_mem p_member (mul_mem u_member u_member),
        (square.mul_left p).trans shifted⟩

/-! ## The unit group -/

theorem mem_generated_of_closure_eq_top {modulus : Nat} [NeZero modulus]
    (top : Subgroup.closure (unitGenerators modulus generators) = ⊤) (u : (ZMod modulus)ˣ) :
    (u : ZMod modulus) ∈ generated modulus generators := by
  -- the group is finite, so inverses are products as well
  have member : u ∈ Submonoid.closure (unitGenerators modulus generators) := by
    rw [← Subgroup.closure_toSubmonoid_of_finite, top]
    exact Subgroup.mem_top u
  have below : Submonoid.closure (unitGenerators modulus generators)
      ≤ (generated modulus generators).comap (Units.coeHom (ZMod modulus)) :=
    Submonoid.closure_le.mpr fun u generator => Submonoid.subset_closure generator
  exact below member

theorem mem_closure_unitGenerators {modulus : Nat} {u : (ZMod modulus)ˣ}
    (member : (u : ZMod modulus) ∈ generated modulus generators) :
    u ∈ Subgroup.closure (unitGenerators modulus generators) := by
  generalize residue : (u : ZMod modulus) = r at member
  induction member using Submonoid.closure_induction generalizing u with
  | mem r generator =>
    obtain ⟨g, member, eq⟩ := generator
    exact Subgroup.subset_closure ⟨g, member, eq.trans residue.symm⟩
  | one =>
    rw [Units.val_eq_one.mp residue]
    exact one_mem _
  | mul r s _ _ left right =>
    -- a factor that were no unit would show in the product
    have unit : IsUnit (r * s) := residue ▸ u.isUnit
    obtain ⟨⟨v, rfl⟩, ⟨w, rfl⟩⟩ := IsUnit.mul_iff.mp unit
    obtain rfl : u = v * w := Units.ext residue
    exact mul_mem (left rfl) (right rfl)

theorem SlotRing.coprime_modulus_iff (ring : SlotRing) {x : Nat} :
    x.Coprime ring.modulus ↔ Odd x := by
  rw [ring.modulus_eq, Nat.coprime_pow_right_iff (Nat.succ_pos _), Nat.coprime_two_right]

variable {ring : SlotRing}

/-- The units are the odd residues, so they are generated as soon as those are. -/
theorem closure_unitGenerators_eq_top_iff :
    Subgroup.closure (unitGenerators ring.modulus generators) = ⊤ ↔
      ∀ x : Nat, Odd x → (x : ZMod ring.modulus) ∈ generated ring.modulus generators := by
  have : NeZero ring.modulus := ⟨Nat.ne_of_gt ring.modulus_pos⟩
  constructor
  · intro top x odd
    have coprime := ring.coprime_modulus_iff.mpr odd
    rw [← ZMod.coe_unitOfCoprime x coprime]
    exact mem_generated_of_closure_eq_top top _
  · intro odds
    rw [Subgroup.eq_top_iff']
    intro u
    apply mem_closure_unitGenerators
    rw [← ZMod.natCast_zmod_val (u : ZMod ring.modulus)]
    exact odds _ (ring.coprime_modulus_iff.mp (ZMod.val_coe_unit_coprime u))

/-! ## The criterion -/

theorem exhausted_iff_not_feasible (some_generator : 0 < generators.length) :
    evaluate ring generators noCeiling = .exhausted ↔ ¬ Feasible ring generators := by
  rw [Feasible, evaluate_noCeiling some_generator]
  cases result : verdict ring generators with
  | feasible cost times => simp
  | pruned depth bound => exact absurd result (verdict_ne_pruned depth bound)
  | exhausted => simp

theorem feasible_iff_targets (some_generator : 0 < generators.length) :
    Feasible ring generators ↔ ∀ i < ring.logN,
      (ring.target i : ZMod ring.modulus) ∈ generated ring.modulus generators := by
  rw [← not_iff_not, ← exhausted_iff_not_feasible some_generator,
    evaluate_noCeiling some_generator, verdict_eq_exhausted_iff]
  simp only [firstDepth?_eq_none_iff, not_forall, exists_prop]

theorem generated_of_two_classes (two_le : 2 ≤ ring.logN)
    (two_classes : 2 ≤ (oddClasses generators).card) {x : Nat} (odd : Odd x) :
    (x : ZMod ring.modulus) ∈ generated ring.modulus generators := by
  have modulus_eq : ring.modulus = 8 * 2 ^ (ring.logN - 2) := by
    rw [ring.modulus_eq, show ring.logN + 1 = 3 + (ring.logN - 2) by omega, Nat.pow_add]
  rw [mem_generated_iff, modulus_eq]
  exact exists_product_modEq two_classes _ odd

theorem SlotRing.eight_dvd_modulus (ring : SlotRing) (two_le : 2 ≤ ring.logN) :
    8 ∣ ring.modulus := by
  rw [ring.modulus_eq]
  exact Nat.pow_dvd_pow 2 (show 3 ≤ ring.logN + 1 by omega)

/-- The last two targets, 5 and 3, are enough to tell. -/
theorem two_classes_of_targets (two_le : 2 ≤ ring.logN)
    (targets : ∀ i < ring.logN, ring.logN - 2 ≤ i →
      (ring.target i : ZMod ring.modulus) ∈ generated ring.modulus generators) :
    2 ≤ (oddClasses generators).card := by
  have class_of : ∀ d, 1 ≤ d → d ≤ 2 →
      ∃ p ∈ products generators, p % 8 = (1 + 2 ^ d) % 8 := by
    intro d pos le
    obtain ⟨p, member, congruent⟩ :=
      mem_generated_iff.mp (targets (ring.logN - d) (by omega) (by omega))
    rw [ring.target_eq (by omega), Nat.sub_sub_self (by omega)] at congruent
    exact ⟨p, member, congruent.of_dvd (ring.eight_dvd_modulus two_le)⟩
  obtain ⟨p, p_member, three⟩ := class_of 1 (by omega) (by omega)
  obtain ⟨q, q_member, five⟩ := class_of 2 (by omega) (by omega)
  exact two_classes_of_products p_member q_member three five

theorem feasible_iff_card_oddClasses (two_le : 2 ≤ ring.logN)
    (some_generator : 0 < generators.length) :
    Feasible ring generators ↔ 2 ≤ (oddClasses generators).card := by
  rw [feasible_iff_targets some_generator]
  constructor
  · exact fun targets => two_classes_of_targets two_le fun i lt _ => targets i lt
  · intro two_classes i lt
    exact generated_of_two_classes two_le two_classes (ring.odd_target lt)

/-- A set is feasible exactly if two of the classes 3, 5 and 7 modulo 8 occur among
    its generators, and exhausted otherwise.  The feasible sets are also those whose
    products reach every odd residue, so that they generate the whole unit group. -/
theorem feasible_iff_two_classes (ring : SlotRing) (two_le_logN : 2 ≤ ring.logN)
    (generators : List Nat) (two_le : 2 ≤ generators.length) :
    (Feasible ring generators ↔ 2 ≤ (oddClasses generators).card) ∧
    (evaluate ring generators noCeiling = .exhausted ↔ ¬ 2 ≤ (oddClasses generators).card) ∧
    (Feasible ring generators ↔
      ∀ x : Nat, Odd x → (x : ZMod ring.modulus) ∈ generated ring.modulus generators) ∧
    (Feasible ring generators ↔
      Subgroup.closure (unitGenerators ring.modulus generators) = ⊤) := by
  have some_generator : 0 < generators.length := by omega
  have classes : Feasible ring generators ↔ _ :=
    feasible_iff_card_oddClasses two_le_logN some_generator
  have residues : Feasible ring generators ↔
      ∀ x : Nat, Odd x → (x : ZMod ring.modulus) ∈ generated ring.modulus generators := by
    constructor
    · intro feasible x odd
      exact generated_of_two_classes two_le_logN (classes.mp feasible) odd
    · intro all
      exact (feasible_iff_targets some_generator).mpr fun i lt => all _ (ring.odd_target lt)
  refine ⟨classes, ?_, residues, ?_⟩
  · rw [exhausted_iff_not_feasible some_generator, classes]
  · rw [closure_unitGenerators_eq_top_iff, residues]

/-- Modulo 16 the pair of 3 and 15 is enough, while 7 and 15 are in one class. -/
theorem feasible_iff_two_classes_small :
    2 ≤ SlotRing.eightSlots.logN ∧ 2 ≤ [3, 15].length ∧ Feasible .eightSlots [3, 15] ∧
      evaluate .eightSlots [7, 15] noCeiling = .exhausted := by
  obtain ⟨feasible, _⟩ :=
    feasible_iff_two_classes .eightSlots (by decide) [3, 15] (by decide)
  obtain ⟨_, exhausted, _⟩ :=
    feasible_iff_two_classes .eightSlots (by decide) [7, 15] (by decide)
  exact ⟨by decide, by decide, feasible.mpr (by decide), exhausted.mpr (by decide)⟩

end PirTuning.Rotation
