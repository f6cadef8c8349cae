import Mathlib.Algebra.BigOperators.Fin
import Mathlib.Algebra.BigOperators.Intervals
import Mathlib.Algebra.BigOperators.Ring.Finset
import PirTuning.Rotation.Discovery

/-!
# Histories of discovery records

A record counts its closed slots in a field of its own; `Sound` says that the
count is right, and every note keeps it so.  Within one layer the order of the
notes does not matter: an open slot is closed at the depth of the layer exactly
if its target was noted, and a closed slot stays.
-/

namespace PirTuning.Rotation.Discovery

/-- The counter agrees with the slots. -/
def Sound (d : Discovery) : Prop :=
  d.found = d.times.countP Option.isSome

/-- The record with given slots. -/
def ofSlots (slots : List (Option Nat)) : Discovery :=
  { times := slots, found := slots.countP Option.isSome }

@[simp] theorem times_ofSlots (slots : List (Option Nat)) : (ofSlots slots).times = slots := rfl

theorem sound_ofSlots (slots : List (Option Nat)) : (ofSlots slots).Sound := rfl

theorem Sound.eq_ofSlots {d : Discovery} (sound : d.Sound) : d = ofSlots d.times := by
  obtain ⟨times, found⟩ := d
  rw [ofSlots, ← sound]

theorem empty_eq_ofSlots (count : Nat) : empty count = ofSlots (List.replicate count none) := by
  simp [empty, ofSlots, List.countP_replicate]

theorem Sound.isComplete_iff {d : Discovery} (sound : d.Sound) :
    d.isComplete = true ↔ ∀ slot ∈ d.times, slot.isSome = true := by
  rw [isComplete, beq_iff_eq, sound, size, List.countP_eq_length]

/-! ## Notes -/

theorem times_note (d : Discovery) (i t : Nat) :
    (d.note i t).times = d.times.modify i (·.or (some t)) := by
  unfold note record?
  cases slot : d.times[i]? with
  | none => rw [List.modify_eq_self (List.getElem?_eq_none_iff.mp slot)]
  | some content =>
    obtain ⟨lt, content_eq⟩ := List.getElem?_eq_some_iff.mp slot
    rw [List.modify_eq_set_getElem?, slot]
    cases content with
    | none => rfl
    | some s =>
      change d.times = d.times.set i (some s)
      rw [← content_eq, List.set_getElem_self]

theorem Sound.note {d : Discovery} (sound : d.Sound) (i t : Nat) : (d.note i t).Sound := by
  unfold Discovery.note record?
  cases slot : d.times[i]? with
  | none => exact sound
  | some content =>
    cases content with
    | some s => exact sound
    | none =>
      obtain ⟨lt, content_eq⟩ := List.getElem?_eq_some_iff.mp slot
      simp only [Sound, List.countP_set lt, content_eq]
      rw [sound]
      simp

/-- What the notes of one layer do to a slot. -/
theorem getElem?_times_foldl_note (d : Discovery) (hits : List Nat) (t i : Nat) :
    (hits.foldl (fun d j => d.note j t) d).times[i]?
      = d.times[i]?.map (·.or (if i ∈ hits then some t else none)) := by
  induction hits generalizing d with
  | nil => simp
  | cons j hits ih =>
    rw [List.foldl_cons, ih, times_note, List.getElem?_modify, Option.map_eq_map,
      Option.map_map]
    by_cases same : j = i
    · subst same
      cases d.times[j]? with
      | none => rfl
      | some slot => cases slot <;> simp
    · have other : i ≠ j := Ne.symm same
      simp [same, other, Function.comp_def]

theorem Sound.foldl_note {d : Discovery} (sound : d.Sound) (hits : List Nat) (t : Nat) :
    (hits.foldl (fun d j => d.note j t) d).Sound := by
  induction hits generalizing d with
  | nil => exact sound
  | cons j hits ih => exact ih (sound.note j t)

/-- Nothing is left to note in a complete record. -/
theorem Sound.note_of_isComplete {d : Discovery} (sound : d.Sound) (complete : d.isComplete = true)
    (i t : Nat) : d.note i t = d := by
  rw [sound.isComplete_iff] at complete
  unfold Discovery.note record?
  cases slot : d.times[i]? with
  | none => rfl
  | some content =>
    obtain ⟨s, rfl⟩ := Option.isSome_iff_exists.mp
      (complete content (List.mem_of_getElem? slot))
    rfl

/-- There is a vector of depths unless a slot is open. -/
theorem closed?_eq_none_iff {slots : List (Option Nat)} :
    closed? slots = none ↔ none ∈ slots := by
  fun_induction closed? slots with
  | case1 => simp
  | case2 => simp
  | case3 t rest ih => simpa using ih

/-! ## Charges -/

theorem finalCost?_eq_some_iff {d : Discovery} {cost : Nat} :
    d.finalCost? = some cost ↔ d.isComplete = true ∧ d.runningCost 0 = cost := by
  rw [finalCost?]
  split
  next complete => simp [complete]
  next incomplete => simp [incomplete]

theorem charge_ofFn (t : Nat) {n : Nat} (slot : Fin n → Option Nat) :
    charge t (List.ofFn slot) = ∑ i, 2 ^ i.val * (slot i).getD t := by
  induction n with
  | zero => rfl
  | succ n ih =>
    rw [List.ofFn_succ, charge, ih, Fin.sum_univ_succ, Finset.mul_sum]
    congr 1
    · simp
    · exact Finset.sum_congr rfl fun i _ => by rw [Fin.val_succ, Nat.pow_succ', Nat.mul_assoc]

theorem charge_range (t n : Nat) (slot : Nat → Option Nat) :
    charge t ((List.range n).map slot) = ∑ i ∈ Finset.range n, 2 ^ i * (slot i).getD t := by
  rw [Finset.sum_range, ← charge_ofFn t fun i : Fin n => slot i, List.ofFn_eq_map,
    ← List.map_coe_finRange_eq_range, List.map_map]
  rfl

variable {slots : List (Option Nat)}

/-- The weights add up to one less than the next power of two. -/
theorem charge_add_le {t limit : Nat} (small : ∀ slot ∈ slots, slot.getD t ≤ limit) :
    charge t slots + limit ≤ 2 ^ slots.length * limit := by
  induction slots with
  | nil => simp [charge]
  | cons slot slots ih =>
    have first := small slot List.mem_cons_self
    have rest := ih fun slot member => small slot (List.mem_cons_of_mem _ member)
    rw [charge, List.length_cons, Nat.pow_succ', Nat.mul_assoc]
    omega

/-- Depths of some bits make a charge of as many bits and one for each slot. -/
theorem charge_lt {t bits : Nat} (small : ∀ slot ∈ slots, slot.getD t < 2 ^ bits) :
    charge t slots < 2 ^ (slots.length + bits) := by
  calc charge t slots
      ≤ 2 ^ slots.length * (2 ^ bits - 1) :=
        (Nat.le_add_right _ _).trans (charge_add_le fun slot member =>
          Nat.le_sub_one_of_lt (small slot member))
    _ < 2 ^ slots.length * 2 ^ bits :=
        Nat.mul_lt_mul_of_pos_left (Nat.sub_one_lt (Nat.two_pow_pos bits).ne')
          (Nat.two_pow_pos slots.length)
    _ = 2 ^ (slots.length + bits) := (Nat.pow_add 2 slots.length bits).symm

end PirTuning.Rotation.Discovery
