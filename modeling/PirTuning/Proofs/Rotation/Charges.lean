import Mathlib.Data.List.Forall2
import PirTuning.Proofs.Rotation.Safety

/-!
# Charges from layer to layer

Whatever targets are noted, in whatever order and however often: as long as layer `t` notes
them at depth `t`, the charge after a layer is a lower bound of what the record will cost in
the end, and it never goes down.  What one note may do to a slot is all that this needs: a
closed slot is kept, and an open one is closed at the depth of the layer, for which it was
charged with less before.
-/

namespace PirTuning.Rotation.Discovery

/-! ## Layers of notes -/

/-- The record after `t` layers.  The targets of a layer are noted at its depth, in order. -/
def afterLayers {count : Nat} (layers : Nat → List (Fin count)) : Nat → Discovery
  | 0 => empty count
  | t + 1 => (layers t).foldl (fun d (i : Fin count) => d.note i t) (afterLayers layers t)

/-- What may become of a slot between two depths. -/
inductive Follows (start stop : Nat) : Option Nat → Option Nat → Prop where
  | kept (slot : Option Nat) : Follows start stop slot slot
  | closed {s : Nat} (start_le : start ≤ s) (lt_stop : s < stop) : Follows start stop none (some s)

variable {start stop : Nat} {slot slot' : Option Nat} {slots slots' : List (Option Nat)}

theorem Follows.widen (follows : Follows start stop slot slot') :
    Follows start (stop + 1) slot slot' := by
  cases follows with
  | kept => exact .kept slot
  | closed start_le lt_stop => exact .closed start_le (Nat.lt_succ_of_lt lt_stop)

/-- A note at the depth of the last layer closes an open slot and leaves the others alone. -/
theorem Follows.note (follows : Follows start (stop + 1) slot slot') (le : start ≤ stop) :
    Follows start (stop + 1) slot (slot'.or (some stop)) := by
  cases follows with
  | kept =>
    cases slot with
    | none => exact .closed le (Nat.lt_succ_self stop)
    | some s => exact .kept (some s)
  | closed start_le lt_stop => exact .closed start_le lt_stop

theorem forall₂_modify {α β : Type} {R : α → β → Prop} {f : β → β} {xs : List α} {ys : List β}
    (related : List.Forall₂ R xs ys) (keeps : ∀ x y, R x y → R x (f y)) (i : Nat) :
    List.Forall₂ R xs (ys.modify i f) := by
  induction related generalizing i with
  | nil => simp
  | @cons x y xs ys first rest ih =>
    cases i with
    | zero => exact .cons (keeps x y first) rest
    | succ i => exact .cons first (ih i)

theorem follows_foldl_note {count : Nat} {d : Discovery}
    (follows : List.Forall₂ (Follows start (stop + 1)) slots d.times) (le : start ≤ stop)
    (hits : List (Fin count)) :
    List.Forall₂ (Follows start (stop + 1)) slots
      (hits.foldl (fun d (i : Fin count) => d.note i stop) d).times := by
  induction hits generalizing d with
  | nil => exact follows
  | cons i hits ih =>
    apply ih
    rw [times_note]
    exact forall₂_modify follows (fun _ _ follows => follows.note le) i

variable {count : Nat} (layers : Nat → List (Fin count))

/-- From one layer to a later one, slots are only closed, and at depths in between. -/
theorem follows_afterLayers {t t' : Nat} (le : t ≤ t') :
    List.Forall₂ (Follows t t') (afterLayers layers t).times (afterLayers layers t').times := by
  induction t', le using Nat.le_induction with
  | base => exact List.forall₂_same.mpr fun slot _ => .kept slot
  | succ t' le ih =>
    rw [afterLayers]
    exact follows_foldl_note (ih.imp fun _ _ follows => follows.widen) le (layers t')

theorem sound_afterLayers (t : Nat) : (afterLayers layers t).Sound := by
  induction t with
  | zero =>
    rw [afterLayers, empty_eq_ofSlots]
    exact sound_ofSlots _
  | succ t ih =>
    have noted := ih.foldl_note ((layers t).map Fin.val) t
    rw [List.foldl_map] at noted
    rw [afterLayers]
    exact noted

theorem length_afterLayers (t : Nat) : (afterLayers layers t).times.length = count := by
  rw [← (follows_afterLayers layers (Nat.zero_le t)).length_eq, afterLayers]
  exact size_empty count

/-- All depths lie below the number of layers. -/
theorem lt_of_mem_afterLayers {t s : Nat} (member : some s ∈ (afterLayers layers t).times) :
    s < t := by
  obtain ⟨i, lt, slot_eq⟩ := List.getElem_of_mem member
  have lt' : i < (afterLayers layers 0).times.length := by rwa [length_afterLayers] at lt ⊢
  have follows := (follows_afterLayers layers (Nat.zero_le t)).get lt' lt
  rw [List.get_eq_getElem, List.get_eq_getElem, slot_eq] at follows
  simp only [afterLayers, empty, List.getElem_replicate] at follows
  cases follows with
  | closed _ lt_stop => exact lt_stop

/-! ## Charges -/

/-- Behind layer `t`, an open slot is charged with `t`, and will be closed later than that. -/
theorem Follows.getD_le {t t' : Nat} (follows : Follows (t + 1) stop slot slot') (le : t ≤ t') :
    slot.getD t ≤ slot'.getD t' := by
  cases follows with
  | kept =>
    cases slot with
    | none => exact le
    | some s => exact Nat.le_refl s
  | closed start_le _ => exact Nat.le_of_succ_le start_le

theorem charge_le_of_follows {t t' : Nat}
    (follows : List.Forall₂ (Follows (t + 1) stop) slots slots') (le : t ≤ t') :
    charge t slots ≤ charge t' slots' := by
  induction follows with
  | nil => exact Nat.le_refl 0
  | cons first _ ih => exact Nat.add_le_add (first.getD_le le) (Nat.mul_le_mul_left 2 ih)

/-- Where no slot is open, there is nothing to charge for. -/
theorem charge_of_closed (closed : none ∉ slots) (t u : Nat) : charge t slots = charge u slots := by
  induction slots with
  | nil => rfl
  | cons slot slots ih =>
    rw [List.mem_cons, not_or] at closed
    obtain ⟨s, rfl⟩ := Option.ne_none_iff_exists'.mp (Ne.symm closed.1)
    rw [charge, charge, ih closed.2]
    rfl

/-- A complete record costs what it is charged with, at any depth. -/
theorem Sound.finalCost?_eq {d : Discovery} (sound : d.Sound) (complete : d.isComplete = true)
    (u : Nat) : d.finalCost? = some (d.runningCost u) := by
  have closed : none ∉ d.times := fun slot => by
    simpa using sound.isComplete_iff.mp complete none slot
  exact finalCost?_eq_some_iff.mpr ⟨complete, charge_of_closed closed 0 u⟩

theorem runningCost_mono :
    Monotone fun t => (afterLayers layers (t + 1)).runningCost t := fun _ _ le =>
  charge_le_of_follows (follows_afterLayers layers (Nat.succ_le_succ le)) le

/-! ## Words -/

theorem runningCost_lt (count_le : count ≤ 30) {t u : Nat} (t_le : t ≤ 2 ^ 31) (u_lt : u < 2 ^ 31) :
    (afterLayers layers t).runningCost u < 2 ^ 61 := by
  have small : ∀ slot ∈ (afterLayers layers t).times, slot.getD u < 2 ^ 31 := by
    intro slot member
    cases slot with
    | none => exact u_lt
    | some s => exact (lt_of_mem_afterLayers layers member).trans_le t_le
  have places := length_afterLayers layers t
  exact (charge_lt small).trans_le (Nat.pow_le_pow_right Nat.two_pos (by omega))

theorem checked_runningCost_eq (count_le : count ≤ 30) {t u : Nat}
    (fits : (afterLayers layers t).runningCost u < 2 ^ 61) :
    Checked.runningCost (afterLayers layers t) u
      = .ok ((afterLayers layers t).runningCost u) := by
  have places : (afterLayers layers t).size ≤ 30 := (length_afterLayers layers t).trans_le count_le
  exact Checked.runningCost_eq (places.trans (by decide)) fits

/-! ## The bound -/

/-- The charge after a layer never goes down from layer to layer, and it is at most what the
    record costs in whatever way it is completed by this layer and those behind it.  A record
    that is complete costs what it is charged with, for any depth of the charge.  With at most
    30 targets and depths of at most 31 bits no charge leaves its word, nor does any of its
    partial sums. -/
theorem charges_of_layers {count : Nat} (count_le : count ≤ 30)
    (layers : Nat → List (Fin count)) :
    (Monotone fun t => (afterLayers layers (t + 1)).runningCost t) ∧
    (∀ t t' cost, t ≤ t' → (afterLayers layers (t' + 1)).finalCost? = some cost →
      (afterLayers layers (t + 1)).runningCost t ≤ cost) ∧
    (∀ t, (afterLayers layers t).isComplete = true → ∀ u,
      (afterLayers layers t).finalCost? = some ((afterLayers layers t).runningCost u)) ∧
    ∀ t ≤ 2 ^ 31, ∀ u, u < 2 ^ 31 ∨ (afterLayers layers t).isComplete = true →
      Checked.runningCost (afterLayers layers t) u
        = .ok ((afterLayers layers t).runningCost u) := by
  have settled : ∀ t, (afterLayers layers t).isComplete = true → ∀ u,
      (afterLayers layers t).finalCost? = some ((afterLayers layers t).runningCost u) :=
    fun t complete => (sound_afterLayers layers t).finalCost?_eq complete
  refine ⟨runningCost_mono layers, fun t t' cost le final => ?_, settled, ?_⟩
  · -- the final cost is the charge after the last layer, which is no less
    have complete := (finalCost?_eq_some_iff.mp final).1
    rw [settled (t' + 1) complete t', Option.some.injEq] at final
    rw [← final]
    exact runningCost_mono layers le
  · rintro t t_le u (u_lt | complete)
    · exact checked_runningCost_eq layers count_le (runningCost_lt layers count_le t_le u_lt)
    · -- a complete record is charged with the same at depth zero
      have same := (settled t complete u).symm.trans (settled t complete 0)
      have fits := runningCost_lt layers count_le t_le (u := 0) (by decide)
      rw [Option.some.injEq] at same
      exact checked_runningCost_eq layers count_le (same ▸ fits)

/-- Two targets, the second noted twice in layer 1 and the first in layer 3: the charge is 4
    after layer 2, and the final cost is 5. -/
theorem charges_of_layers_two :
    ∃ layers : Nat → List (Fin 2), 2 ≤ 30 ∧ 2 ≤ 3 ∧
      (afterLayers layers 4).finalCost? = some 5 ∧ (afterLayers layers 3).runningCost 2 = 4 ∧
      (afterLayers layers 3).runningCost 2 ≤ 5 := by
  let layers : Nat → List (Fin 2) := fun t => if t = 1 then [1, 1] else if t = 3 then [0] else []
  have final : (afterLayers layers 4).finalCost? = some 5 := by decide
  exact ⟨layers, by decide, by decide, final, by decide,
    (charges_of_layers (by decide) layers).2.1 2 3 5 (by decide) final⟩

end PirTuning.Rotation.Discovery
