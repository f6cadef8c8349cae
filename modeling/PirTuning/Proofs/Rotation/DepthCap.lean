import PirTuning.Proofs.Rotation.Pruning
import PirTuning.Proofs.Rotation.Words

/-!
# Depths below the modulus suffice

An evaluation stops at the modulus, and a search for witnesses at whatever limit it
is given.  Neither misses anything: what is a product of generators at all is one at
a depth below the modulus.  So exhaustion means that a target is not generated, and
a witness that is not found below the modulus is not found later either.
-/

namespace PirTuning.Rotation

/-! ## Higher limits -/

/-- The first witness stays the first one when more depths are allowed. -/
theorem Witness.earliestFrom?_add {modulus target t depths : Nat} {generators : List Nat}
    {witness : Witness} (found : earliestFrom? modulus generators target t depths = some witness)
    (more : Nat) : earliestFrom? modulus generators target t (depths + more) = some witness := by
  induction depths generalizing t with
  | zero => cases found
  | succ depths ih =>
    rw [Nat.succ_add, earliestFrom?]
    rw [earliestFrom?] at found
    cases hit : (Split.walk generators.length t).find?
        (fun split => product modulus generators split == target) with
    | some split => simpa only [hit] using found
    | none =>
      simp only [hit] at found
      exact ih found

variable {ring : SlotRing} {generators : List Nat}

theorem earliestWitness?_add {index limit : Nat} {witness : Witness}
    (found : earliestWitness? ring generators index limit = some witness) (more : Nat) :
    earliestWitness? ring generators index (limit + more) = some witness := by
  unfold earliestWitness? at found ⊢
  cases target : ring.targets[index]? with
  | none => simp [target] at found
  | some value =>
    simp only [target] at found
    exact Witness.earliestFrom?_add found more

theorem earliestWitness?_eq_none_iff (some_generator : 0 < generators.length) {i : Nat}
    (lt : i < ring.logN) (limit : Nat) :
    earliestWitness? ring generators i limit = none ↔
      ∀ t < limit, ¬ ReachedAt ring generators i t := by
  rw [← Option.map_eq_none_iff (f := Witness.depth), depth_earliestWitness? some_generator lt,
    depthBelow?_eq_none_iff]

/-- From the modulus on the limit makes no difference. -/
theorem earliestWitness?_of_le (some_generator : 0 < generators.length) (index : Nat)
    {limit : Nat} (le : ring.modulus ≤ limit) :
    earliestWitness? ring generators index limit
      = earliestWitness? ring generators index ring.modulus := by
  cases found : earliestWitness? ring generators index ring.modulus with
  | some witness =>
    rw [← Nat.add_sub_cancel' le]
    exact earliestWitness?_add found _
  | none =>
    by_cases lt : index < ring.logN
    · rw [earliestWitness?_eq_none_iff some_generator lt] at found ⊢
      intro t _ reached
      -- a witness beyond the modulus could be cut down to one below it
      obtain ⟨s, below, reached'⟩ := reached.exists_lt
      exact found s below reached'
    · exact earliestWitness?_of_no_target (Nat.not_lt.mp lt) limit

/-! ## The cap -/

/-- A target that is a product of generators at any depth is one at a depth below the
    modulus.  So an evaluation is exhausted exactly if some target is not generated,
    and no limit beyond the modulus changes the answer of a search for witnesses. -/
theorem depths_below_modulus_suffice (ring : SlotRing) (generators : List Nat)
    (two_le : 2 ≤ generators.length) :
    (∀ i t, ReachedAt ring generators i t →
      ∃ s < ring.modulus, ReachedAt ring generators i s) ∧
    (evaluate ring generators noCeiling = .exhausted ↔
      ∃ i < ring.logN,
        (ring.target i : ZMod ring.modulus) ∉ generated ring.modulus generators) ∧
    ∀ index limit, ring.modulus ≤ limit →
      earliestWitness? ring generators index limit
        = earliestWitness? ring generators index ring.modulus := by
  have some_generator : 0 < generators.length := by omega
  refine ⟨fun i t reached => reached.exists_lt, ?_, fun index limit le =>
    earliestWitness?_of_le some_generator index le⟩
  rw [evaluate_noCeiling some_generator, verdict_eq_exhausted_iff]
  exact exists_congr fun i => and_congr_right fun _ => firstDepth?_eq_none_iff

/-- Modulo 16 the product of 7 and 15 is target 9, while target 3 is out of reach. -/
theorem depths_below_modulus_suffice_small :
    2 ≤ [7, 15].length ∧ ReachedAt .eightSlots [7, 15] 0 100 ∧
      (∃ s < SlotRing.eightSlots.modulus, ReachedAt .eightSlots [7, 15] 0 s) ∧
      SlotRing.eightSlots.modulus ≤ 100 ∧ earliestWitness? .eightSlots [7, 15] 2 100 = none := by
  obtain ⟨shorter, exhausted, limits⟩ := depths_below_modulus_suffice .eightSlots [7, 15] (by decide)
  have deep : ReachedAt .eightSlots [7, 15] 0 100 := ⟨[1, 99], rfl, rfl, by decide⟩
  have high : SlotRing.eightSlots.modulus ≤ 100 := by decide
  refine ⟨by decide, deep, shorter 0 100 deep, high, ?_⟩
  rw [limits 2 100 high, earliestWitness?_eq_none_iff (by decide) (by decide)]
  decide +kernel

end PirTuning.Rotation
