import PirTuning.Rotation.Checked
import PirTuning.Proofs.Rotation.Enumeration
import PirTuning.Proofs.Rotation.Pruning
import PirTuning.Proofs.Rotation.Witnesses

/-!
# Runs without a fault

A run that checks itself is never stopped, and it comes to what the run without checks comes
to.  What the checks ask for is carried along as invariants: factors are residues of a ring
whose modulus has at most 32 bits, depth `t` is entered with the powers below `t` and leaves
a charge below 61 bits behind, and a row of registers never holds more than its depth.
-/

namespace PirTuning.Rotation

theorem Split.depth_eq_sum (split : List Nat) : depth split = split.sum := by
  induction split with
  | nil => rfl
  | cons e split ih => rw [depth_cons, ih, List.sum_cons]

namespace Checked

open Registers (contents)

variable {ring : SlotRing} {n : Nat}

/-! ## Arithmetic -/

theorem mul_eq {a b : Nat} (a_lt : a < ring.modulus) (b_lt : b < ring.modulus) :
    mul ring.modulus a b = .ok (a * b % ring.modulus) := by
  have modulus_le := ring.modulus_le
  have fits : ring.modulus < UInt64.size := modulus_le.trans_lt (by decide)
  have product_lt : a * b < 2 ^ 31 * 2 ^ 31 :=
    Nat.mul_lt_mul'' (a_lt.trans_le modulus_le) (b_lt.trans_le modulus_le)
  exact (mul_eq_ok_iff fits).mpr ⟨a_lt, b_lt, product_lt.trans_le (by decide), rfl⟩

/-- Partial sums only grow, so all of them are small if the last one is. -/
theorem addAllWeighted_eq (t : Nat) {slots : List (Option Nat)} {sum i : Nat}
    (places : i + slots.length ≤ 64)
    (fits : sum + 2 ^ i * Discovery.charge t slots < costLimit) :
    addAllWeighted t sum i slots = .ok (sum + 2 ^ i * Discovery.charge t slots) := by
  induction slots generalizing sum i with
  | nil => simp [addAllWeighted, Discovery.charge]
  | cons slot rest ih =>
    rw [List.length_cons] at places
    have total : sum + 2 ^ i * Discovery.charge t (slot :: rest)
        = sum + slot.getD t <<< i + 2 ^ (i + 1) * Discovery.charge t rest := by
      rw [Discovery.charge, Nat.shiftLeft_eq, Nat.pow_succ]
      ring
    rw [total] at fits ⊢
    have first : addWeighted sum i (slot.getD t) = .ok (sum + slot.getD t <<< i) :=
      addWeighted_eq_ok_iff.mpr ⟨by omega, (Nat.le_add_right _ _).trans_lt fits, rfl⟩
    rw [addAllWeighted, first, Word.ok_bind]
    exact ih (by omega) fits

/-- The running cost of a record comes to its charge, unless that is too large. -/
theorem runningCost_eq {d : Discovery} {t : Nat} (places : d.size ≤ 64)
    (fits : d.runningCost t < costLimit) : runningCost d t = .ok (d.runningCost t) := by
  have total : 0 + 2 ^ 0 * Discovery.charge t d.times = d.runningCost t := by
    rw [Nat.zero_add, Nat.pow_zero, Nat.one_mul, Discovery.runningCost]
  rw [runningCost, addAllWeighted_eq t ((Nat.zero_add _).trans_le places) (total ▸ fits), total]

theorem exists_increment {t limit : UInt32} (lt : t < limit) : ∃ t', increment t = .ok t' := by
  rw [UInt32.lt_iff_toNat_lt] at lt
  have limit_lt := limit.toNat_lt_size
  obtain ⟨t', sum⟩ : ∃ t', Registers.add t 1 = .ok t' := by
    apply Registers.exists_add
    rw [UInt32.toNat_one]
    omega
  exact ⟨t', by rw [increment, sum]⟩

/-! ## Power tables -/

section

variable (ring) (generators : List Nat) (t : Nat)

theorem size_upTo (modulus generator : Nat) :
    (PowerTable.upTo modulus generator t).powers.size = t + 1 := by
  simp [PowerTable.upTo]

variable {t} in
theorem lookUp_upTo (modulus generator : Nat) {e : Nat} (le : e ≤ t) :
    lookUp (PowerTable.upTo modulus generator t) e = .ok (generator ^ e % modulus) := by
  have lt : e < t + 1 := Nat.lt_succ_of_le le
  simp [lookUp, PowerTable.upTo, lt]

/-- A table that reaches up to the depth is left alone. -/
theorem extend_upTo (modulus generator : Nat) :
    extend modulus t (PowerTable.upTo modulus generator t)
      = .ok (PowerTable.upTo modulus generator t) := by
  have enough : ¬ (PowerTable.upTo modulus generator t).powers.size ≤ t := by
    rw [size_upTo]
    omega
  rw [extend, if_neg enough]

/-- A table of the depth before grows by one power. -/
theorem extend_upTo_pred (generator : Nat) :
    extend ring.modulus t (PowerTable.upTo ring.modulus generator (t - 1))
      = .ok (PowerTable.upTo ring.modulus generator t) := by
  cases t with
  | zero => exact extend_upTo 0 ring.modulus generator
  | succ t =>
    have short : (PowerTable.upTo ring.modulus generator t).powers.size ≤ t + 1 := by
      rw [size_upTo]
    have last : lookUp (PowerTable.upTo ring.modulus generator t)
        ((PowerTable.upTo ring.modulus generator t).powers.size - 1)
          = .ok (generator ^ t % ring.modulus) := by
      rw [size_upTo, Nat.add_sub_cancel]
      exact lookUp_upTo _ _ (Nat.le_refl t)
    have product : mul ring.modulus (generator ^ t % ring.modulus)
        (PowerTable.upTo ring.modulus generator t).generator
          = .ok (generator ^ t % ring.modulus * (generator % ring.modulus) % ring.modulus) :=
      mul_eq (Nat.mod_lt _ ring.modulus_pos) (Nat.mod_lt _ ring.modulus_pos)
    rw [Nat.add_sub_cancel, extend, if_pos short, last, Word.ok_bind, product, Word.ok_bind,
      PowerTable.push_upTo]
    exact extend_upTo (t + 1) ring.modulus generator

theorem mapM_extend :
    (tablesAt ring generators (t - 1)).mapM (extend ring.modulus t)
      = .ok (tablesAt ring generators t) := by
  have extended : extend ring.modulus t ∘ (fun g => PowerTable.upTo ring.modulus g (t - 1))
      = fun g => pure (PowerTable.upTo ring.modulus g t) :=
    funext fun g => extend_upTo_pred ring t g
  rw [tablesAt, List.mapM_map, extended, List.mapM_pure]
  rfl

theorem holdPowers_tablesAt : holdPowers ring.modulus t generators (tablesAt ring generators t) := by
  rw [holdPowers, beq_iff_eq, tablesAt, List.map_map]
  apply List.map_congr_left
  intro g _
  simp [PowerTable.upTo]

end

/-! ## Splits in registers -/

section

variable {β : Type} {visit : β → List Nat → Except Fault (Bool × β)} {f : β → List Nat → β}
  {keeps : β → Prop}

/-- Visits of the splits of `t` come to what `f` says.  A visit that is not the last one keeps
    the state in order, and a last one leaves nothing to do for the splits behind it. -/
def Performs (visit : β → List Nat → Except Fault (Bool × β)) (f : β → List Nat → β)
    (keeps : β → Prop) (t : Nat) : Prop :=
  ∀ b split, keeps b → split.sum = t → ∃ last, visit b split = .ok (last, f b split) ∧
    (last = false → keeps (f b split)) ∧ (last = true → ∀ later, f (f b split) later = f b split)

/-- The rows of a depth are made without an overflow, and what a scan leaves out makes no
    difference, so it is a fold over the splits. -/
theorem scanRows_eq {t : Nat} (t_lt : t < UInt32.size) (visits : Performs visit f keeps t)
    (row : Vector UInt32 (n + 2)) (sum_eq : (contents row).sum = t) {b : β} (kept : keeps b) :
    scanRows visit b row
      = .ok (((Split.walk (n + 2) t).listFrom (some (contents row))).foldl f b) := by
  -- the row behind is made before this one is visited, so it has to fit in any case
  have fits : Split.depth (contents row) < UInt32.size := by rwa [Split.depth_eq_sum, sum_eq]
  obtain ⟨row', stepped⟩ := Registers.exists_next fits
  obtain ⟨last, visited, more, idle⟩ := visits b (contents row) kept sum_eq
  have follows : (Split.walk (n + 2) t).next (contents row) = row'.map contents :=
    Registers.next?_of_next stepped
  rw [Walk.listFrom_some, List.foldl_cons, follows]
  unfold scanRows
  split
  next failed => cases stepped.symm.trans failed
  next row'' stepped' =>
    cases stepped.symm.trans stepped'
    rw [visited]
    cases last with
    | true => exact congrArg Except.ok (foldl_idle (idle rfl) _).symm
    | false =>
      cases row' with
      | none => simp
      | some row' =>
        have sum_eq' : (contents row').sum = t := by
          rw [← Split.depth_eq_sum, Split.depth_next? follows, Split.depth_eq_sum, sum_eq]
        exact scanRows_eq t_lt visits row' sum_eq' (more rfl)
termination_by Split.room (contents row)
decreasing_by exact Split.room_next? follows

/-- All splits of a depth, from the first row on. -/
theorem scanRows_firstRow {t : UInt32} (visits : Performs visit f keeps t.toNat) {b : β}
    (kept : keeps b) :
    scanRows visit b (firstRow n t) = .ok ((Split.walk (n + 2) t.toNat).toList.foldl f b) := by
  have first : contents (firstRow n t) = Split.first (n + 2) t.toNat :=
    Registers.contents_first n t
  have sum_eq : (contents (firstRow n t)).sum = t.toNat := by
    rw [first, ← Split.depth_eq_sum, Split.depth_first_succ]
  rw [scanRows_eq t.toNat_lt_size visits _ sum_eq kept, first]
  rfl

end

/-! ## Layers -/

theorem productOn_eq {t : Nat} (generators : List Nat) {split : List Nat}
    (bounded : ∀ e ∈ split, e ≤ t) {acc : Nat} (reduced : acc < ring.modulus) :
    productOn ring.modulus acc split (tablesAt ring generators t)
      = .ok (Evaluation.productOn ring.modulus acc split (tablesAt ring generators t)) := by
  induction generators generalizing split acc with
  | nil => cases split <;> rfl
  | cons g generators ih =>
    cases split with
    | nil => rfl
    | cons e split =>
      have e_le := bounded e List.mem_cons_self
      have rest := ih (fun e' member => bounded e' (List.mem_cons_of_mem e member))
        (Nat.mod_lt (acc * (g ^ e % ring.modulus)) ring.modulus_pos)
      rw [tablesAt, List.map_cons, productOn, lookUp_upTo _ _ e_le, Word.ok_bind,
        mul_eq reduced (Nat.mod_lt _ ring.modulus_pos), Word.ok_bind, Evaluation.productOn,
        PowerTable.power_upTo e_le]
      exact rest

/-- A record of the targets of a ring. -/
structure Tracks (ring : SlotRing) (d : Discovery) : Prop where
  sound : d.Sound
  size_eq : d.size = ring.logN

theorem Tracks.note {d : Discovery} (tracks : Tracks ring d) (i t : Nat) :
    Tracks ring (d.note i t) where
  sound := tracks.sound.note i t
  size_eq := (Discovery.size_note d i t).trans tracks.size_eq

theorem performs_visit (generators : List Nat) (t : Nat) :
    Performs (visit ring (tablesAt ring generators t) t)
      (Evaluation.visit ring.modulus ring.targets (tablesAt ring generators t) t)
      (Tracks ring) t := by
  intro d split tracks sum_eq
  have bounded : ∀ e ∈ split, e ≤ t := fun e member => sum_eq ▸ List.le_sum_of_mem member
  have value := productOn_eq generators bounded ring.one_lt_modulus
  cases matched : ring.targets.idxOf?
      (Evaluation.productOn ring.modulus 1 split (tablesAt ring generators t)) with
  | none =>
    have passed : Evaluation.visit ring.modulus ring.targets (tablesAt ring generators t) t d split
        = d := by
      rw [Evaluation.visit, matched]
    rw [passed, visit, value, Word.ok_bind, SlotRing.targetIndex?, matched]
    exact ⟨false, rfl, fun _ => tracks, by simp⟩
  | some i =>
    -- what was matched is a target of the ring, and the record has a slot for each of these
    have lt : i < ring.logN := ((idxOf?_productOn sum_eq).mp matched).1
    obtain ⟨⟨fresh, d'⟩, recorded⟩ : ∃ answer, d.record? i t = some answer := by
      apply Option.ne_none_iff_exists'.mp
      rw [Ne, Discovery.record?_eq_none_iff, tracks.size_eq]
      exact Nat.not_le.mpr lt
    have noted : d.note i t = d' := by rw [Discovery.note, recorded]
    have reached : Evaluation.visit ring.modulus ring.targets (tablesAt ring generators t) t d split
        = d' := by
      rw [Evaluation.visit, matched]
      exact noted
    have tracks' : Tracks ring d' := noted ▸ tracks.note i t
    rw [reached, visit, value, Word.ok_bind, SlotRing.targetIndex?, matched]
    refine ⟨fresh && d'.isComplete, ?_, fun _ => tracks', fun closed later => ?_⟩
    · simp only [recorded]
      rfl
    · exact visit_of_isComplete tracks'.sound (Bool.and_eq_true_iff.mp closed).2 later

/-! ## Depths -/

theorem tracks_recordBefore (generators : List Nat) (t : Nat) :
    Tracks ring (recordBefore ring generators t) where
  sound := Discovery.sound_ofSlots _
  size_eq := by simp [recordBefore, Discovery.size]

section

variable (generators : Vector UInt64 (n + 2))

theorem length_numbers : (numbers generators).length = n + 2 := by simp [numbers]

theorem layer_recordBefore (t : UInt32) :
    layer ring n (tablesAt ring (numbers generators) t.toNat) t
        (recordBefore ring (numbers generators) t.toNat)
      = .ok (recordBefore ring (numbers generators) (t.toNat + 1)) := by
  have places : (tablesAt ring (numbers generators) t.toNat).length = n + 2 := by
    rw [tablesAt, List.length_map, length_numbers]
  have some_generator : 0 < (numbers generators).length := by
    rw [length_numbers]
    exact Nat.succ_pos _
  have tracks : Tracks ring (recordBefore ring (numbers generators) t.toNat) :=
    tracks_recordBefore _ _
  rw [layer, scanRows_firstRow (performs_visit _ _) tracks, ← places,
    ← layer_eq_foldl _ _ _ _ tracks.sound, Rotation.layer_recordBefore ring some_generator]

theorem runningCost_recordBefore {t : Nat} (lt : t < ring.modulus) :
    runningCost (recordBefore ring (numbers generators) (t + 1)) t
      = .ok (lowerBound ring (numbers generators) t) := by
  have charged : (recordBefore ring (numbers generators) (t + 1)).runningCost t
      = lowerBound ring (numbers generators) t :=
    Rotation.runningCost_recordBefore lt
  have places : (recordBefore ring (numbers generators) (t + 1)).size ≤ 30 :=
    (tracks_recordBefore _ _).size_eq.trans_le ring.logN_le
  rw [← charged]
  exact runningCost_eq (places.trans (by decide)) (charged.trans_lt (lowerBound_lt lt))

theorem runDepth_eq {t : UInt32} (lt : t.toNat < ring.modulus) :
    runDepth ring generators t (tablesAt ring (numbers generators) (t.toNat - 1))
        (recordBefore ring (numbers generators) t.toNat)
      = .ok (tablesAt ring (numbers generators) t.toNat,
          recordBefore ring (numbers generators) (t.toNat + 1),
          lowerBound ring (numbers generators) t.toNat) := by
  have powers := holdPowers_tablesAt ring (numbers generators) t.toNat
  rw [runDepth, mapM_extend, Word.ok_bind, if_pos powers, layer_recordBefore, Word.ok_bind,
    runningCost_recordBefore generators lt]
  rfl

theorem depthsFrom_eq (ceiling : Nat) {t limit : UInt32} (le : t.toNat ≤ ring.modulus)
    (limit_eq : limit.toNat = ring.modulus) :
    depthsFrom ring generators ceiling t limit
        (tablesAt ring (numbers generators) (t.toNat - 1))
        (recordBefore ring (numbers generators) t.toNat)
      = .ok (evaluateFrom ring (numbers generators) ceiling t.toNat) := by
  have some_generator : 0 < (numbers generators).length := by
    rw [length_numbers]
    exact Nat.succ_pos _
  have within_iff : t < limit ↔ t.toNat < ring.modulus := by
    rw [UInt32.lt_iff_toNat_lt, limit_eq]
  rw [depthsFrom]
  by_cases lt : t.toNat < ring.modulus
  · rw [if_pos (within_iff.mpr lt), runDepth_eq generators lt, Word.ok_bind,
      evaluateFrom_eq some_generator lt]
    by_cases pruned : ceiling ≤ lowerBound ring (numbers generators) t.toNat
    · simp only [if_pos pruned]
      rfl
    · simp only [if_neg pruned]
      cases (recordBefore ring (numbers generators) (t.toNat + 1)).toVector? with
      | some times => rfl
      | none =>
        -- there is a depth left, so its number fits into the register
        obtain ⟨t', next⟩ := exists_increment (within_iff.mpr lt)
        have t'_eq := increment_eq_ok_iff.mp next
        have rest := depthsFrom_eq ceiling (by omega : t'.toNat ≤ ring.modulus) limit_eq
        rw [t'_eq, Nat.add_sub_cancel] at rest
        simp only
        split
        next failed => cases next.symm.trans failed
        next again =>
          cases next.symm.trans again
          exact rest
  · have past_end : t.toNat = ring.modulus := Nat.le_antisymm le (Nat.not_lt.mp lt)
    rw [if_neg (mt within_iff.mp lt), past_end, evaluateFrom_modulus]
    rfl
termination_by limit.toNat - t.toNat

theorem toNat_depthLimit : (depthLimit ring.modulus).toNat = ring.modulus := by
  have fits : ring.modulus < UInt32.size := ring.modulus_le.trans_lt (by decide)
  rw [depthLimit, if_pos fits]
  exact UInt32.toNat_ofNat_of_lt' fits

theorem evaluate_eq (ceiling : Nat) :
    evaluate ring generators ceiling
      = .ok (Rotation.evaluate ring (numbers generators) ceiling) := by
  have tables : (numbers generators).map (PowerTable.start ring.modulus)
      = tablesAt ring (numbers generators) 0 :=
    List.map_congr_left fun g _ => PowerTable.start_eq_upTo ring.one_lt_modulus g
  have run := depthsFrom_eq generators ceiling (t := 0) (Nat.zero_le ring.modulus)
    toNat_depthLimit
  rwa [UInt32.toNat_zero, recordBefore_zero, ← tables, ← evaluate_eq_evaluateFrom] at run

end

/-! ## Searches for witnesses -/

theorem powFrom_eq {result base exponent : Nat} (result_lt : result < ring.modulus)
    (base_lt : base < ring.modulus) :
    powFrom ring.modulus result base exponent
      = .ok (Squaring.run ring.modulus ⟨result, base, exponent⟩) := by
  have square_lt := Nat.mod_lt (base * base) ring.modulus_pos
  rw [powFrom]
  split
  next done => rw [Squaring.run_of_zero done]
  next more =>
    rw [Squaring.run_of_ne_zero more, mul_eq base_lt base_lt]
    by_cases odd : exponent % 2 = 1
    · simp only [if_pos odd, mul_eq result_lt base_lt, Word.ok_bind, Squaring.step]
      exact powFrom_eq (Nat.mod_lt _ ring.modulus_pos) square_lt
    · simp only [if_neg odd, Word.ok_bind, Squaring.step]
      exact powFrom_eq result_lt square_lt
termination_by exponent

theorem modPow_eq (base exponent : Nat) :
    modPow base exponent ring.modulus = .ok (Rotation.modPow base exponent ring.modulus) := by
  have fits : ring.modulus ≤ 4294967296 := ring.modulus_le.trans (by decide)
  rw [modPow, if_pos ⟨ring.modulus_pos, fits⟩,
    powFrom_eq (Nat.mod_lt _ ring.modulus_pos) (Nat.mod_lt _ ring.modulus_pos)]
  rfl

theorem witnessProductOn_eq {acc : Nat} (reduced : acc < ring.modulus)
    (generators split : List Nat) :
    witnessProductOn ring.modulus acc generators split
      = .ok (Witness.productOn ring.modulus acc generators split) := by
  induction generators generalizing split acc with
  | nil => rfl
  | cons g generators ih =>
    cases split with
    | nil => rfl
    | cons e split =>
      have power_lt : Rotation.modPow g e ring.modulus < ring.modulus := by
        rw [Rotation.modPow_eq g e ring.modulus_pos]
        exact Nat.mod_lt _ ring.modulus_pos
      rw [witnessProductOn, modPow_eq, Word.ok_bind, mul_eq reduced power_lt, Word.ok_bind]
      exact ih (Nat.mod_lt _ ring.modulus_pos) split

/-- The first item that passes a test, as a fold. -/
theorem foldl_or_guard {α : Type} (p : α → Bool) (items : List α) (found : Option α) :
    items.foldl (fun found a => found.or (Option.guard p a)) found
      = found.or (items.find? p) := by
  induction items generalizing found with
  | nil => simp
  | cons a items ih =>
    rw [List.foldl_cons, ih, Option.or_assoc, List.find?_cons]
    cases test : p a <;> simp [Option.guard, test]

theorem performs_tryWitness (generators : List Nat) (target t : Nat) :
    Performs (tryWitness ring.modulus generators target)
      (fun found split => found.or
        (Option.guard (fun split => Witness.product ring.modulus generators split == target) split))
      (· = none) t := by
  rintro found split rfl -
  have value : witnessProductOn ring.modulus (1 % ring.modulus) generators split
      = .ok (Witness.product ring.modulus generators split) :=
    witnessProductOn_eq (Nat.mod_lt 1 ring.modulus_pos) generators split
  simp only [tryWitness, value, Word.ok_bind, Option.none_or, Option.guard]
  by_cases hit : (Witness.product ring.modulus generators split == target) = true
  · rw [if_pos hit, if_pos hit]
    exact ⟨true, rfl, by simp, fun _ later => rfl⟩
  · rw [if_neg hit, if_neg hit]
    exact ⟨false, rfl, fun _ => rfl, by simp⟩

variable (generators : Vector UInt64 (n + 2))

theorem scanRows_tryWitness (target : Nat) (t : UInt32) :
    scanRows (tryWitness ring.modulus (numbers generators) target) none (firstRow n t)
      = .ok ((Split.walk (numbers generators).length t.toNat).find? fun split =>
          Witness.product ring.modulus (numbers generators) split == target) := by
  rw [scanRows_firstRow (performs_tryWitness (numbers generators) target t.toNat) rfl,
    foldl_or_guard, Option.none_or, length_numbers, Walk.find?_eq]

theorem earliestFrom?_eq (target : Nat) {t limit : UInt32} {depths : Nat}
    (limit_eq : limit.toNat = t.toNat + depths) :
    earliestFrom? ring.modulus generators target t limit
      = .ok (Witness.earliestFrom? ring.modulus (numbers generators) target t.toNat depths) := by
  induction depths generalizing t with
  | zero =>
    have past_end : ¬ t < limit := by
      rw [UInt32.lt_iff_toNat_lt]
      omega
    rw [earliestFrom?, if_neg past_end]
    rfl
  | succ depths ih =>
    have within : t < limit := by
      rw [UInt32.lt_iff_toNat_lt]
      omega
    rw [earliestFrom?, if_pos within, scanRows_tryWitness, Word.ok_bind, Witness.earliestFrom?]
    cases (Split.walk (numbers generators).length t.toNat).find? fun split =>
        Witness.product ring.modulus (numbers generators) split == target with
    | some split => rfl
    | none =>
      -- below the limit the register of the depth can go up by one
      obtain ⟨t', next⟩ := exists_increment within
      have t'_eq := increment_eq_ok_iff.mp next
      have rest := ih (by omega : limit.toNat = t'.toNat + depths)
      rw [t'_eq] at rest
      simp only
      split
      next failed => cases next.symm.trans failed
      next again =>
        cases next.symm.trans again
        exact rest

theorem earliestWitness?_eq (index : Nat) (limit : UInt32) :
    earliestWitness? ring generators index limit
      = .ok (Rotation.earliestWitness? ring (numbers generators) index limit.toNat) := by
  rw [earliestWitness?, Rotation.earliestWitness?]
  cases ring.targets[index]? with
  | none => rfl
  | some target => exact earliestFrom?_eq generators target (Nat.zero_add _).symm

/-! ## Both runs -/

/-- No check ever stops a run, however large the ring, the generators, the ceiling and the
    limit are: every product and every partial sum fits into its word, every exponent and every
    target lies inside its table, and the tables of each depth hold what they should.  So an
    evaluation and a search for witnesses on machine words come to what they come to without a
    bound on numbers. -/
theorem runs_without_fault (ring : SlotRing) {n : Nat} (generators : Vector UInt64 (n + 2)) :
    (∀ ceiling, evaluate ring generators ceiling
      = .ok (Rotation.evaluate ring (numbers generators) ceiling)) ∧
    ∀ index limit, earliestWitness? ring generators index limit
      = .ok (Rotation.earliestWitness? ring (numbers generators) index limit.toNat) :=
  ⟨evaluate_eq generators, earliestWitness?_eq generators⟩

end Checked

end PirTuning.Rotation
