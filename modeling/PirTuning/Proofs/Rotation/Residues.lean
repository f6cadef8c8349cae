import Mathlib.Data.List.Forall2
import PirTuning.Proofs.Rotation.Pruning
import PirTuning.Proofs.Rotation.Words

/-!
# Useful residues

Of a generator set only the residues count, and of those neither the even ones, which
no odd target has as a factor, nor 1, which a shortest word does without.  Sets with
the same useful residues have words of the same lengths for every target, so they
cannot be told apart by an evaluation, however many generators they spend on it.
-/

namespace PirTuning.Rotation

/-- The residues of the generators, up to the even ones and 1. -/
def usefulResidues (modulus : Nat) (generators : List Nat) : Finset Nat :=
  (generators.map (· % modulus)).toFinset.filter fun r => r % 2 = 1 ∧ r ≠ 1

theorem mem_usefulResidues {modulus r : Nat} {generators : List Nat} :
    r ∈ usefulResidues modulus generators ↔
      (∃ g ∈ generators, g % modulus = r) ∧ r % 2 = 1 ∧ r ≠ 1 := by
  simp [usefulResidues]

variable {ring : SlotRing} {a b : List Nat} {i : Nat}

/-! ## Ranges -/

theorem card_usefulResidues_le (modulus : Nat) (generators : List Nat) :
    (usefulResidues modulus generators).card ≤ generators.length :=
  calc (usefulResidues modulus generators).card
      ≤ (generators.map (· % modulus)).toFinset.card := Finset.card_filter_le _ _
    _ ≤ (generators.map (· % modulus)).length := List.toFinset_card_le _
    _ = generators.length := List.length_map _

theorem range_of_mem_usefulResidues {r : Nat} (member : r ∈ usefulResidues ring.modulus a) :
    Odd r ∧ 3 ≤ r ∧ r < ring.modulus := by
  obtain ⟨⟨g, _, rfl⟩, odd, ne_one⟩ := mem_usefulResidues.mp member
  exact ⟨Nat.odd_iff.mpr odd, by omega, Nat.mod_lt g ring.modulus_pos⟩

theorem usefulResidues_of_range {modulus : Nat} {generators : List Nat}
    (range : ∀ g ∈ generators, Odd g ∧ 3 ≤ g ∧ g < modulus) :
    usefulResidues modulus generators = generators.toFinset := by
  ext r
  rw [mem_usefulResidues, List.mem_toFinset]
  constructor
  · rintro ⟨⟨g, member, rfl⟩, _⟩
    rwa [Nat.mod_eq_of_lt (range g member).2.2]
  · intro member
    obtain ⟨odd, three_le, lt⟩ := range r member
    exact ⟨⟨r, member, Nat.mod_eq_of_lt lt⟩, Nat.odd_iff.mp odd, by omega⟩

/-! ## Rearranged sets -/

theorem usefulResidues_mono (modulus : Nat) (subset : a ⊆ b) :
    usefulResidues modulus a ⊆ usefulResidues modulus b := by
  intro r member
  rw [mem_usefulResidues] at member ⊢
  obtain ⟨⟨g, g_member, same⟩, useful⟩ := member
  exact ⟨⟨g, subset g_member, same⟩, useful⟩

theorem usefulResidues_of_perm (modulus : Nat) (perm : a.Perm b) :
    usefulResidues modulus a = usefulResidues modulus b :=
  (usefulResidues_mono modulus perm.subset).antisymm (usefulResidues_mono modulus perm.symm.subset)

theorem usefulResidues_cons_of_mem (modulus : Nat) {g : Nat} (member : g ∈ a) :
    usefulResidues modulus (g :: a) = usefulResidues modulus a :=
  (usefulResidues_mono modulus (List.cons_subset.mpr ⟨member, List.Subset.refl a⟩)).antisymm
    (usefulResidues_mono modulus (List.subset_cons_self g a))

@[simp] theorem usefulResidues_map_mod (modulus : Nat) (generators : List Nat) :
    usefulResidues modulus (generators.map (· % modulus)) = usefulResidues modulus generators := by
  simp [usefulResidues, Function.comp_def]

/-! ## Words -/

/-- A word with an odd product can be spelled with other generators, letter by letter,
    where the letters 1 are left out. -/
theorem exists_respelling {modulus : Nat} (even : 2 ∣ modulus)
    (subset : usefulResidues modulus a ⊆ usefulResidues modulus b) {word : List Nat}
    (letters : ∀ g ∈ word, g ∈ a) (odd : Odd word.prod) :
    ∃ word', word'.length ≤ word.length ∧ Spells modulus b word.prod word' := by
  induction word with
  | nil => exact ⟨[], Nat.le_refl 0, by simp, Nat.ModEq.refl _⟩
  | cons g word ih =>
    rw [List.prod_cons, Nat.odd_mul] at odd
    obtain ⟨word', le, letters', congruent⟩ :=
      ih (fun later member => letters later (List.mem_cons_of_mem g member)) odd.2
    have odd_residue : g % modulus % 2 = 1 := by
      rw [Nat.mod_mod_of_dvd g even]
      exact Nat.odd_iff.mp odd.1
    by_cases one : g % modulus = 1
    · -- the letter is left out, which is why the new word may be shorter
      have neutral : g ≡ 1 [MOD modulus] := by
        rw [← one]
        exact (Nat.mod_modEq g modulus).symm
      refine ⟨word', Nat.le_succ_of_le le, letters', congruent.trans ?_⟩
      simpa using (neutral.mul_right word.prod).symm
    · obtain ⟨⟨g', member', same⟩, _⟩ := mem_usefulResidues.mp
        (subset (mem_usefulResidues.mpr ⟨⟨g, letters g List.mem_cons_self, rfl⟩, odd_residue, one⟩))
      refine ⟨g' :: word', Nat.succ_le_succ le, ?_, ?_⟩
      · intro letter member
        rcases List.mem_cons.mp member with rfl | later
        · exact member'
        · exact letters' letter later
      · rw [List.prod_cons, List.prod_cons]
        exact Nat.ModEq.mul same congruent

theorem ReachedAt.exists_le (subset : usefulResidues ring.modulus a ⊆ usefulResidues ring.modulus b)
    (lt : i < ring.logN) {t : Nat} (reached : ReachedAt ring a i t) :
    ∃ s ≤ t, ReachedAt ring b i s := by
  obtain ⟨word, rfl, letters, congruent⟩ := reachedAt_iff.mp reached
  have odd : Odd word.prod := odd_of_modEq ring.two_dvd_modulus congruent (ring.odd_target lt)
  obtain ⟨word', le, letters', congruent'⟩ :=
    exists_respelling ring.two_dvd_modulus subset letters odd
  exact ⟨word'.length, le, reachedAt_iff.mpr ⟨word', rfl, letters', congruent'.trans congruent⟩⟩

/-! ## First depths -/

theorem exists_firstDepth?_le
    (subset : usefulResidues ring.modulus a ⊆ usefulResidues ring.modulus b) (lt : i < ring.logN)
    {t : Nat} (found : firstDepth? ring a i = some t) :
    ∃ s ≤ t, firstDepth? ring b i = some s := by
  obtain ⟨below, reached, _⟩ := depthBelow?_eq_some_iff.mp found
  obtain ⟨s, le, reached'⟩ := reached.exists_le subset lt
  obtain ⟨s', le', found'⟩ := reached'.exists_firstDepth? (Nat.lt_of_le_of_lt le below)
  exact ⟨s', Nat.le_trans le' le, found'⟩

theorem firstDepth?_congr (same : usefulResidues ring.modulus a = usefulResidues ring.modulus b)
    (lt : i < ring.logN) : firstDepth? ring a i = firstDepth? ring b i := by
  cases found : firstDepth? ring a i with
  | none =>
    cases found' : firstDepth? ring b i with
    | none => rfl
    | some s =>
      obtain ⟨t, _, contra⟩ := exists_firstDepth?_le same.symm.subset lt found'
      rw [found] at contra
      cases contra
  | some t =>
    -- each set reaches the target no later than the other
    obtain ⟨s, le, found'⟩ := exists_firstDepth?_le same.subset lt found
    obtain ⟨t', le', found''⟩ := exists_firstDepth?_le same.symm.subset lt found'
    obtain rfl : t = t' := Option.some.inj (found.symm.trans found'')
    rw [found', Nat.le_antisymm le le']

/-! ## Evaluations -/

section

variable (agree : ∀ i < ring.logN, firstDepth? ring a i = firstDepth? ring b i)

include agree

theorem lowerBound_congr (t : Nat) : lowerBound ring a t = lowerBound ring b t := by
  apply Finset.sum_congr rfl
  intro i member
  rw [agree i (Finset.mem_range.mp member)]

theorem lastDepth_congr : lastDepth ring a = lastDepth ring b := by
  unfold lastDepth
  have all_reached : (∀ i < ring.logN, (firstDepth? ring a i).isSome) ↔
      ∀ i < ring.logN, (firstDepth? ring b i).isSome :=
    forall₂_congr fun i lt => by rw [agree i lt]
  have latest : ((Finset.range ring.logN).sup fun i => (firstDepth? ring a i).getD 0)
      = (Finset.range ring.logN).sup fun i => (firstDepth? ring b i).getD 0 :=
    Finset.sup_congr rfl fun i member => by rw [agree i (Finset.mem_range.mp member)]
  simp only [all_reached, latest]

theorem verdict_congr : verdict ring a = verdict ring b := by
  have records : recordBefore ring a ring.modulus = recordBefore ring b ring.modulus :=
    congrArg Discovery.ofSlots
      (List.map_congr_left fun i member => agree i (List.mem_range.mp member))
  rw [verdict, verdict, records, lastDepth_congr agree, lowerBound_congr agree]

/-- An evaluation depends on the first depths of the targets only. -/
theorem evaluate_congr (some_a : 0 < a.length) (some_b : 0 < b.length) (ceiling : Nat) :
    evaluate ring a ceiling = evaluate ring b ceiling := by
  rcases evaluate_cases ring some_b ceiling with ⟨t, le, below, reached, eq⟩ | ⟨below, eq⟩
  · simp only [← lowerBound_congr agree, ← lastDepth_congr agree] at le below reached eq
    rw [eq, evaluate_eq_pruned some_a le below reached]
  · rw [← lowerBound_congr agree, ← lastDepth_congr agree] at below
    rw [eq, evaluate_eq_verdict some_a below, verdict_congr agree]

end

theorem evaluate_eq_of_usefulResidues (some_a : 0 < a.length) (some_b : 0 < b.length)
    (same : usefulResidues ring.modulus a = usefulResidues ring.modulus b) (ceiling : Nat) :
    evaluate ring a ceiling = evaluate ring b ceiling :=
  evaluate_congr (fun _ lt => firstDepth?_congr same lt) some_a some_b ceiling

/-- With more useful residues no target is reached later. -/
theorem verdict_of_subset
    (subset : usefulResidues ring.modulus a ⊆ usefulResidues ring.modulus b) {cost : Nat}
    {times : List Nat} (feasible : verdict ring a = .feasible cost times) :
    ∃ cost' times', verdict ring b = .feasible cost' times' ∧
      List.Forall₂ (· ≤ ·) times' times := by
  obtain ⟨_, length_eq, slots⟩ := verdict_eq_feasible_iff.mp feasible
  have earlier : ∀ i (lt : i < times.length), ∃ s ≤ times[i], firstDepth? ring b i = some s := by
    intro i lt
    have found : firstDepth? ring a i = some times[i] := by
      rw [slots i (length_eq ▸ lt), List.getElem?_eq_getElem lt]
    exact exists_firstDepth?_le subset (length_eq ▸ lt) found
  -- every target that the smaller set reaches the larger one reaches no later
  cases result : verdict ring b with
  | pruned depth bound => exact absurd result (verdict_ne_pruned depth bound)
  | exhausted =>
    obtain ⟨i, lt, unreached⟩ := verdict_eq_exhausted_iff.mp result
    obtain ⟨s, _, found⟩ := earlier i (length_eq ▸ lt)
    rw [unreached] at found
    cases found
  | feasible cost' times' =>
    obtain ⟨_, length_eq', slots'⟩ := verdict_eq_feasible_iff.mp result
    refine ⟨cost', times', rfl, List.forall₂_iff_get.mpr ⟨length_eq'.trans length_eq.symm, ?_⟩⟩
    intro i lt' lt
    obtain ⟨s, le, found⟩ := earlier i lt
    rw [slots' i (length_eq' ▸ lt'), List.getElem?_eq_getElem lt', Option.some.injEq] at found
    exact Nat.le_trans (Nat.le_of_eq found) le

theorem cost_le_of_times_le {cost cost' : Nat} {times times' : List Nat}
    (feasible : verdict ring a = .feasible cost times)
    (feasible' : verdict ring b = .feasible cost' times')
    (times_le : List.Forall₂ (· ≤ ·) times' times) : cost' ≤ cost := by
  obtain ⟨rfl, length_eq, slots⟩ := verdict_eq_feasible_iff.mp feasible
  obtain ⟨rfl, length_eq', slots'⟩ := verdict_eq_feasible_iff.mp feasible'
  rw [lowerBound_lastDepth slots length_eq, lowerBound_lastDepth slots' length_eq']
  refine Finset.sum_le_sum fun i member => Nat.mul_le_mul_left _ ?_
  have lt := Finset.mem_range.mp member
  have le := (List.forall₂_iff_get.mp times_le).2 i (by omega) (by omega)
  simpa [length_eq, length_eq', lt] using le

/-- Sets with the same useful residues are evaluated alike against every ceiling,
    whatever their sizes.  So the order of the generators, repetitions and multiples of
    the modulus make no difference.  With more useful residues a feasible set stays
    feasible, no target is reached later and the cost is no higher. -/
theorem evaluate_of_usefulResidues (ring : SlotRing) (a b : List Nat) (two_le_a : 2 ≤ a.length)
    (two_le_b : 2 ≤ b.length) (ceiling : Nat) :
    (usefulResidues ring.modulus a = usefulResidues ring.modulus b →
      evaluate ring a ceiling = evaluate ring b ceiling) ∧
    (usefulResidues ring.modulus a ⊆ usefulResidues ring.modulus b →
      ∀ cost times, evaluate ring a ceiling = .feasible cost times →
        ∃ cost' times', evaluate ring b ceiling = .feasible cost' times' ∧
          List.Forall₂ (· ≤ ·) times' times ∧ cost' ≤ cost) ∧
    (a.Perm b → evaluate ring a ceiling = evaluate ring b ceiling) ∧
    (∀ g ∈ a, evaluate ring (g :: a) ceiling = evaluate ring a ceiling) ∧
    (∀ g h, evaluate ring [g, g, h] ceiling = evaluate ring [g, h] ceiling) ∧
    evaluate ring (a.map (· % ring.modulus)) ceiling = evaluate ring a ceiling := by
  have some_a : 0 < a.length := by omega
  have some_b : 0 < b.length := by omega
  refine ⟨?_, ?_, ?_, ?_, ?_, ?_⟩
  · intro same
    exact evaluate_eq_of_usefulResidues some_a some_b same ceiling
  · intro subset cost times feasible
    obtain ⟨own, below⟩ := (evaluate_eq_feasible_iff some_a).mp feasible
    obtain ⟨cost', times', own', times_le⟩ := verdict_of_subset subset own
    have cost_le := cost_le_of_times_le own own' times_le
    exact ⟨cost', times', (evaluate_eq_feasible_iff some_b).mpr
      ⟨own', Nat.lt_of_le_of_lt cost_le below⟩, times_le, cost_le⟩
  · intro perm
    exact evaluate_eq_of_usefulResidues some_a some_b (usefulResidues_of_perm _ perm) ceiling
  · intro g member
    exact evaluate_eq_of_usefulResidues (by simp) some_a
      (usefulResidues_cons_of_mem _ member) ceiling
  · intro g h
    exact evaluate_eq_of_usefulResidues (by simp) (by simp)
      (usefulResidues_cons_of_mem _ List.mem_cons_self) ceiling
  · exact evaluate_eq_of_usefulResidues (by simpa using some_a) some_a
      (usefulResidues_map_mod _ a) ceiling

/-- Modulo 8 the useful residues of 13, 8, 11 and 1 are those of 3 and 5. -/
theorem evaluate_of_usefulResidues_small :
    2 ≤ [3, 5].length ∧ 2 ≤ [13, 8, 11, 1].length ∧
      evaluate .fourSlots [3, 5] 3 = evaluate .fourSlots [13, 8, 11, 1] 3 ∧
      evaluate .fourSlots [3, 5] 3 = evaluate .fourSlots [5, 3] 3 ∧
      ∃ cost times, evaluate .fourSlots [3, 5, 7] 9 = .feasible cost times ∧ cost ≤ 3 := by
  obtain ⟨alike, _⟩ :=
    evaluate_of_usefulResidues .fourSlots [3, 5] [13, 8, 11, 1] (by decide) (by decide) 3
  obtain ⟨_, _, permuted, _⟩ :=
    evaluate_of_usefulResidues .fourSlots [3, 5] [5, 3] (by decide) (by decide) 3
  obtain ⟨_, extended, _⟩ :=
    evaluate_of_usefulResidues .fourSlots [3, 5] [3, 5, 7] (by decide) (by decide) 9
  have feasible : evaluate .fourSlots [3, 5] 9 = .feasible 3 [1, 1] :=
    (evaluate_eq_feasible_iff (by decide)).mpr ⟨by decide +kernel, by decide⟩
  obtain ⟨cost, times, feasible', _, le⟩ := extended (by decide) 3 [1, 1] feasible
  exact ⟨by decide, by decide, alike (by decide), permuted (.swap 5 3 []), cost, times,
    feasible', le⟩

end PirTuning.Rotation
