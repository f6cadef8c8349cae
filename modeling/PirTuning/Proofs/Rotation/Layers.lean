import Mathlib.Algebra.Order.BigOperators.Group.List
import PirTuning.Rotation.Evaluation
import PirTuning.Proofs.Rotation.Reach
import PirTuning.Proofs.Rotation.Records

/-!
# One layer after the other

The state in which an evaluation enters depth `t` has a closed form: every power
table holds the powers below that depth's end, and the record knows each target's
first depth as far as it is below `t`.  `layer_recordBefore` is the step from one
depth to the next; leaving a layer early changes nothing, since there is nothing
left to note by then.
-/

namespace PirTuning.Rotation

/-! ## Power tables -/

namespace PowerTable

/-- The table of `generator` for depth `t`. -/
def upTo (modulus generator t : Nat) : PowerTable :=
  { generator := generator % modulus
    powers := (Array.range (t + 1)).map fun e => generator ^ e % modulus }

theorem start_eq_upTo {modulus : Nat} (lt : 1 < modulus) (generator : Nat) :
    start modulus generator = upTo modulus generator 0 := by
  have single : Array.range 1 = #[0] := rfl
  simp [start, upTo, single, Nat.mod_eq_of_lt lt]

/-- The next power is the last one times the generator. -/
theorem push_upTo (modulus generator t : Nat) :
    { upTo modulus generator t with
        powers := (upTo modulus generator t).powers.push
          (generator ^ t % modulus * (generator % modulus) % modulus) }
      = upTo modulus generator (t + 1) := by
  have product : generator ^ t % modulus * (generator % modulus) % modulus
      = generator ^ (t + 1) % modulus := by
    rw [← Nat.mul_mod, Nat.pow_succ]
  simp only [upTo, product]
  rw [Array.range_succ (n := t + 1), Array.map_append, ← Array.append_singleton]
  simp

theorem grow_upTo (modulus generator t : Nat) :
    (upTo modulus generator t).grow modulus = upTo modulus generator (t + 1) := by
  have last : (upTo modulus generator t).powers.back? = some (generator ^ t % modulus) := by
    simp [upTo, Array.range_succ]
  rw [← push_upTo, grow, last]
  rfl

theorem power_upTo {modulus generator t e : Nat} (le : e ≤ t) :
    (upTo modulus generator t).power e = generator ^ e % modulus := by
  have lt : e < t + 1 := Nat.lt_succ_of_le le
  simp [power, upTo, Array.getD, lt]

end PowerTable

/-- The power tables with which depth `t` is entered. -/
def tablesAt (ring : SlotRing) (generators : List Nat) (t : Nat) : List PowerTable :=
  generators.map fun g => PowerTable.upTo ring.modulus g t

theorem grow_tablesAt (ring : SlotRing) (generators : List Nat) (t : Nat) :
    (tablesAt ring generators t).map (PowerTable.grow ring.modulus)
      = tablesAt ring generators (t + 1) := by
  simp [tablesAt, PowerTable.grow_upTo]

/-- Multiplying table entries out comes to the product of the powers. -/
theorem productOn_tables {modulus t : Nat} (generators : List Nat) {split : List Nat}
    (bounded : ∀ e ∈ split, e ≤ t) {acc : Nat} (reduced : acc < modulus) :
    Evaluation.productOn modulus acc split
        (generators.map fun g => PowerTable.upTo modulus g t)
      = acc * monomial generators split % modulus := by
  induction generators generalizing split acc with
  | nil => cases split <;> simp [Evaluation.productOn, monomial, Nat.mod_eq_of_lt reduced]
  | cons g generators ih =>
    cases split with
    | nil => simp [Evaluation.productOn, Nat.mod_eq_of_lt reduced]
    | cons e split =>
      have tail_bounded : ∀ e' ∈ split, e' ≤ t := fun e' member =>
        bounded e' (List.mem_cons_of_mem _ member)
      have positive : 0 < modulus := Nat.zero_lt_of_lt reduced
      rw [List.map_cons, Evaluation.productOn,
        PowerTable.power_upTo (bounded e List.mem_cons_self),
        ih tail_bounded (Nat.mod_lt _ positive), monomial_cons, accumulate_mod]

/-- A split is matched with the target that its product is congruent to. -/
theorem idxOf?_productOn {ring : SlotRing} {generators split : List Nat} {t i : Nat}
    (sum_eq : split.sum = t) :
    ring.targets.idxOf? (Evaluation.productOn ring.modulus 1 split (tablesAt ring generators t))
        = some i
      ↔ i < ring.logN ∧ monomial generators split ≡ ring.target i [MOD ring.modulus] := by
  have bounded : ∀ e ∈ split, e ≤ t := fun e member =>
    sum_eq ▸ List.le_sum_of_mem member
  rw [tablesAt, productOn_tables generators bounded ring.one_lt_modulus, Nat.one_mul,
    ring.idxOf?_targets]
  apply and_congr_right
  intro _
  rw [Nat.ModEq, Nat.mod_eq_of_lt (ring.target_lt i)]
  exact eq_comm

/-! ## Records -/

/-- The record with which depth `t` is entered. -/
def recordBefore (ring : SlotRing) (generators : List Nat) (t : Nat) : Discovery :=
  .ofSlots ((List.range ring.logN).map (depthBelow? ring generators t))

theorem recordBefore_zero (ring : SlotRing) (generators : List Nat) :
    recordBefore ring generators 0 = Discovery.empty ring.logN := by
  rw [Discovery.empty_eq_ofSlots, recordBefore]
  congr 1
  exact List.ext_getElem (by simp) fun i _ _ => by simp [depthBelow?]

theorem foldl_idle {α β : Type} {f : β → α → β} {b : β} (idle : ∀ a, f b a = b)
    (items : List α) : items.foldl f b = b := by
  induction items with
  | nil => rfl
  | cons a items ih => rw [List.foldl_cons, idle, ih]

/-- A scan may be left early once its steps have no effect any more. -/
theorem listScan_eq_foldl {α β : Type} {stop : β → Bool} {f : β → α → β} (keeps : β → Prop)
    (step : ∀ b a, keeps b → keeps (f b a)) (idle : ∀ b a, keeps b → stop b → f b a = b)
    (items : List α) {b : β} (start : keeps b) :
    Walk.listScan stop f b items = items.foldl f b := by
  induction items generalizing b with
  | nil => rfl
  | cons a items ih =>
    rw [Walk.listScan, List.foldl_cons]
    split
    next stopped =>
      rw [idle b a start stopped]
      exact (foldl_idle (fun later => idle b later start stopped) items).symm
    next => exact ih (step b a start)

/-- Visiting splits notes the targets that they are matched with. -/
theorem foldl_visit (modulus : Nat) (targets : List Nat) (tables : List PowerTable) (t : Nat)
    (splits : List (List Nat)) (d : Discovery) :
    splits.foldl (Evaluation.visit modulus targets tables t) d
      = (splits.filterMap fun split =>
          targets.idxOf? (Evaluation.productOn modulus 1 split tables)).foldl
            (fun d i => d.note i t) d := by
  rw [List.foldl_filterMap]
  congr 1
  funext d split
  rw [Evaluation.visit]
  cases targets.idxOf? (Evaluation.productOn modulus 1 split tables) <;> rfl

theorem sound_visit {modulus : Nat} {targets : List Nat} {tables : List PowerTable} {t : Nat}
    {d : Discovery} (sound : d.Sound) (split : List Nat) :
    (Evaluation.visit modulus targets tables t d split).Sound := by
  unfold Evaluation.visit
  split
  · exact sound
  · exact sound.note _ t

theorem visit_of_isComplete {modulus : Nat} {targets : List Nat} {tables : List PowerTable}
    {t : Nat} {d : Discovery} (sound : d.Sound) (complete : d.isComplete = true)
    (split : List Nat) : Evaluation.visit modulus targets tables t d split = d := by
  unfold Evaluation.visit
  split
  · rfl
  · exact sound.note_of_isComplete complete _ t

/-- Leaving a layer early leaves out nothing that would have been noted. -/
theorem layer_eq_foldl (modulus : Nat) (targets : List Nat) (tables : List PowerTable) (t : Nat)
    {d : Discovery} (sound : d.Sound) :
    Evaluation.layer modulus targets tables t d
      = (Split.walk tables.length t).toList.foldl
          (Evaluation.visit modulus targets tables t) d := by
  rw [Evaluation.layer, Walk.scan_eq]
  exact listScan_eq_foldl Discovery.Sound (fun _ split sound => sound_visit sound split)
    (fun _ split sound complete => visit_of_isComplete sound complete split) _ sound

/-- The targets matched in a layer are those that are reached at its depth. -/
theorem mem_matched {ring : SlotRing} {generators : List Nat} {t i : Nat}
    (some_generator : 0 < generators.length) (lt : i < ring.logN) :
    (i ∈ (Split.walk generators.length t).toList.filterMap fun split =>
        ring.targets.idxOf?
          (Evaluation.productOn ring.modulus 1 split (tablesAt ring generators t)))
      ↔ ReachedAt ring generators i t := by
  rw [List.mem_filterMap]
  constructor
  · rintro ⟨split, member, matched⟩
    obtain ⟨length_eq, sum_eq⟩ := (Split.mem_walk some_generator).mp member
    exact ⟨split, length_eq, sum_eq, (idxOf?_productOn sum_eq).mp matched |>.2⟩
  · rintro ⟨split, length_eq, sum_eq, congruent⟩
    exact ⟨split, (Split.mem_walk some_generator).mpr ⟨length_eq, sum_eq⟩,
      (idxOf?_productOn sum_eq).mpr ⟨lt, congruent⟩⟩

theorem layer_recordBefore (ring : SlotRing) {generators : List Nat}
    (some_generator : 0 < generators.length) (t : Nat) :
    Evaluation.layer ring.modulus ring.targets (tablesAt ring generators t) t
        (recordBefore ring generators t)
      = recordBefore ring generators (t + 1) := by
  have sound : (recordBefore ring generators t).Sound := Discovery.sound_ofSlots _
  have places : (tablesAt ring generators t).length = generators.length := by simp [tablesAt]
  rw [layer_eq_foldl _ _ _ _ sound, places, foldl_visit, (sound.foldl_note _ t).eq_ofSlots]
  refine congrArg Discovery.ofSlots (List.ext_getElem? fun i => ?_)
  rw [Discovery.getElem?_times_foldl_note, recordBefore, Discovery.times_ofSlots,
    List.getElem?_map, List.getElem?_map]
  by_cases lt : i < ring.logN
  · simp only [List.getElem?_range lt, Option.map_some, mem_matched some_generator lt,
      depthBelow?_succ]
  · simp [lt]

end PirTuning.Rotation
