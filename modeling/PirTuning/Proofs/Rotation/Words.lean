import Mathlib.Algebra.BigOperators.Group.List.Basic
import Mathlib.Algebra.Group.Submonoid.BigOperators
import Mathlib.Algebra.Group.Submonoid.Membership
import Mathlib.Data.Finset.Card
import Mathlib.Data.ZMod.Basic
import PirTuning.Proofs.Rotation.Reach

/-!
# Words over the generators

A split only counts how often each generator is used.  Written out factor by factor
it becomes a word, and the depth becomes the length of the word.  Words can be cut:
a word that is as long as the modulus has two prefixes with the same residue, and
what stands between them is left out without harm.  So whatever is reached at all
is reached below the modulus.
-/

namespace PirTuning.Rotation

/-- The word takes its letters from the generators, and comes to the residue of `x`. -/
def Spells (modulus : Nat) (generators : List Nat) (x : Nat) (word : List Nat) : Prop :=
  (∀ g ∈ word, g ∈ generators) ∧ word.prod ≡ x [MOD modulus]

/-- The numbers that are products of generators, the empty product included. -/
def products (generators : List Nat) : Submonoid Nat :=
  Submonoid.closure {g | g ∈ generators}

/-- The residues that are products of generators. -/
def generated (modulus : Nat) (generators : List Nat) : Submonoid (ZMod modulus) :=
  Submonoid.closure {r | ∃ g ∈ generators, (g : ZMod modulus) = r}

variable {generators word : List Nat} {modulus x : Nat}

/-! ## Exponents and words -/

theorem exists_word {exponents : List Nat} (length_eq : exponents.length = generators.length) :
    ∃ word : List Nat, word.length = exponents.sum ∧ (∀ g ∈ word, g ∈ generators) ∧
      word.prod = monomial generators exponents := by
  induction generators generalizing exponents with
  | nil =>
    obtain rfl := List.length_eq_zero_iff.mp length_eq
    exact ⟨[], by simp⟩
  | cons g generators ih =>
    cases exponents with
    | nil => simp at length_eq
    | cons e exponents =>
      obtain ⟨word, length_word, letters, prod_word⟩ := ih (by simpa using length_eq)
      refine ⟨List.replicate e g ++ word, by simp [length_word], ?_, by simp [prod_word]⟩
      intro letter member
      rcases List.mem_append.mp member with repeated | later
      · rw [List.eq_of_mem_replicate repeated]
        exact List.mem_cons_self
      · exact List.mem_cons_of_mem g (letters letter later)

/-- One letter more raises one exponent. -/
theorem exists_raised {g : Nat} (member : g ∈ generators) {exponents : List Nat}
    (length_eq : exponents.length = generators.length) :
    ∃ raised : List Nat, raised.length = generators.length ∧ raised.sum = exponents.sum + 1 ∧
      monomial generators raised = g * monomial generators exponents := by
  -- the exponent of one occurrence goes up, the others are kept
  induction generators generalizing exponents with
  | nil => simp at member
  | cons first generators ih =>
    cases exponents with
    | nil => simp at length_eq
    | cons e exponents =>
      have tail_eq : exponents.length = generators.length := by simpa using length_eq
      rcases List.mem_cons.mp member with rfl | later
      · refine ⟨(e + 1) :: exponents, by simp [tail_eq], ?_, ?_⟩
        · simp only [List.sum_cons]
          omega
        · rw [monomial_cons, monomial_cons, Nat.pow_succ', Nat.mul_assoc]
      · obtain ⟨raised, length_raised, sum_raised, monomial_raised⟩ := ih later tail_eq
        refine ⟨e :: raised, by simp [length_raised], ?_, ?_⟩
        · simp only [List.sum_cons, sum_raised]
          omega
        · rw [monomial_cons, monomial_cons, monomial_raised, Nat.mul_left_comm]

theorem exists_exponents (letters : ∀ g ∈ word, g ∈ generators) :
    ∃ exponents : List Nat, exponents.length = generators.length ∧
      exponents.sum = word.length ∧ monomial generators exponents = word.prod := by
  induction word with
  | nil => exact ⟨List.replicate generators.length 0, by simp, by simp, monomial_zeros generators _⟩
  | cons g word ih =>
    obtain ⟨exponents, length_eq, sum_eq, monomial_eq⟩ :=
      ih fun later member => letters later (List.mem_cons_of_mem g member)
    obtain ⟨raised, length_raised, sum_raised, monomial_raised⟩ :=
      exists_raised (letters g List.mem_cons_self) length_eq
    exact ⟨raised, length_raised, by rw [sum_raised, sum_eq, List.length_cons],
      by rw [monomial_raised, monomial_eq, List.prod_cons]⟩

/-- The depths at which a target is reached are the lengths of the words for it. -/
theorem reachedAt_iff {ring : SlotRing} {i t : Nat} :
    ReachedAt ring generators i t ↔
      ∃ word, word.length = t ∧ Spells ring.modulus generators (ring.target i) word := by
  constructor
  · rintro ⟨exponents, length_eq, sum_eq, congruent⟩
    obtain ⟨word, length_word, letters, prod_word⟩ := exists_word length_eq
    exact ⟨word, length_word.trans sum_eq, letters, prod_word ▸ congruent⟩
  · rintro ⟨word, length_word, letters, congruent⟩
    obtain ⟨exponents, length_eq, sum_eq, monomial_eq⟩ := exists_exponents letters
    exact ⟨exponents, length_eq, sum_eq.trans length_word, monomial_eq ▸ congruent⟩

/-! ## Cutting words -/

theorem prod_cut {i j : Nat}
    (same : (word.take i).prod ≡ (word.take j).prod [MOD modulus]) :
    (word.take i ++ word.drop j).prod ≡ word.prod [MOD modulus] := by
  rw [List.prod_append]
  calc (word.take i).prod * (word.drop j).prod
      ≡ (word.take j).prod * (word.drop j).prod [MOD modulus] := same.mul_right _
    _ = word.prod := List.prod_take_mul_prod_drop word j

/-- A word as long as the modulus passes some residue twice, and can do without what
    lies in between. -/
theorem Spells.exists_shorter (spells : Spells modulus generators x word) (pos : 0 < modulus)
    (long : modulus ≤ word.length) :
    ∃ word', word'.length < word.length ∧ Spells modulus generators x word' := by
  -- the empty prefix counts, so there are more prefixes than residues
  have crowded : (Finset.range modulus).card < (Finset.range (word.length + 1)).card := by
    simp only [Finset.card_range]
    omega
  obtain ⟨i, member, j, member', ne, same⟩ := Finset.exists_ne_map_eq_of_card_lt_of_maps_to crowded
    (f := fun i => (word.take i).prod % modulus)
    fun i _ => Finset.mem_range.mpr (Nat.mod_lt _ pos)
  rw [Finset.mem_range] at member member'
  wlog lt : i < j generalizing i j
  · exact this j member' i member ne.symm same.symm (by omega)
  refine ⟨word.take i ++ word.drop j, ?_, fun g letter => ?_, (prod_cut same).trans spells.2⟩
  · simp only [List.length_append, List.length_take, List.length_drop]
    omega
  · rcases List.mem_append.mp letter with before | after
    · exact spells.1 g (List.mem_of_mem_take before)
    · exact spells.1 g (List.mem_of_mem_drop after)

/-- A shortest word is shorter than the modulus. -/
theorem Spells.exists_lt {word : List Nat} (spells : Spells modulus generators x word)
    (pos : 0 < modulus) :
    ∃ word', word'.length < modulus ∧ Spells modulus generators x word' := by
  by_cases short : word.length < modulus
  · exact ⟨word, short, spells⟩
  · obtain ⟨word', shorter, spells'⟩ := spells.exists_shorter pos (Nat.not_lt.mp short)
    exact spells'.exists_lt pos
termination_by word.length

theorem ReachedAt.exists_lt {ring : SlotRing} {i t : Nat} (reached : ReachedAt ring generators i t) :
    ∃ s < ring.modulus, ReachedAt ring generators i s := by
  obtain ⟨word, _, spells⟩ := reachedAt_iff.mp reached
  obtain ⟨word', lt, spells'⟩ := spells.exists_lt ring.modulus_pos
  exact ⟨word'.length, lt, reachedAt_iff.mpr ⟨word', rfl, spells'⟩⟩

/-! ## Products -/

theorem mem_products {g : Nat} (member : g ∈ generators) : g ∈ products generators :=
  Submonoid.subset_closure member

theorem mem_products_iff : x ∈ products generators ↔
    ∃ word : List Nat, (∀ g ∈ word, g ∈ generators) ∧ word.prod = x := by
  constructor
  · exact Submonoid.exists_list_of_mem_closure
  · rintro ⟨word, letters, rfl⟩
    exact list_prod_mem fun g member => mem_products (letters g member)

theorem exists_spells_iff :
    (∃ word, Spells modulus generators x word) ↔ ∃ p ∈ products generators, p ≡ x [MOD modulus] := by
  constructor
  · rintro ⟨word, letters, congruent⟩
    exact ⟨word.prod, mem_products_iff.mpr ⟨word, letters, rfl⟩, congruent⟩
  · rintro ⟨p, member, congruent⟩
    obtain ⟨word, letters, rfl⟩ := mem_products_iff.mp member
    exact ⟨word, letters, congruent⟩

theorem generated_eq_map (modulus : Nat) (generators : List Nat) :
    generated modulus generators = (products generators).map (Nat.castRingHom (ZMod modulus)) := by
  rw [products, MonoidHom.map_mclosure, generated]
  rfl

theorem mem_generated_iff :
    (x : ZMod modulus) ∈ generated modulus generators ↔
      ∃ p ∈ products generators, p ≡ x [MOD modulus] := by
  rw [generated_eq_map, Submonoid.mem_map]
  exact exists_congr fun p => and_congr_right fun _ => ZMod.natCast_eq_natCast_iff p x modulus

theorem firstDepth?_eq_none_iff {ring : SlotRing} {i : Nat} :
    firstDepth? ring generators i = none ↔
      (ring.target i : ZMod ring.modulus) ∉ generated ring.modulus generators := by
  rw [firstDepth?, depthBelow?_eq_none_iff, mem_generated_iff, ← exists_spells_iff]
  constructor
  · rintro unreached ⟨word, spells⟩
    -- the word may be too long for the depths that were looked at, a shorter one is not
    obtain ⟨s, lt, reached⟩ := (reachedAt_iff.mpr ⟨word, rfl, spells⟩).exists_lt
    exact unreached s lt reached
  · intro unspelled t _ reached
    obtain ⟨word, _, spells⟩ := reachedAt_iff.mp reached
    exact unspelled ⟨word, spells⟩

end PirTuning.Rotation
