import Mathlib.Algebra.GroupWithZero.Nat
import PirTuning.Rotation.Split

/-!
# The walk of splits

Stepping through the splits of a depth comes to the same list as the nested loops
of `Split.all`.  Both are built from the head on: all splits with one head stand
together, and after the last of them the head takes one unit from its tail.  So a
depth is walked through completely, and a split is a list of the right length
with the right sum.
-/

namespace PirTuning.Rotation.Split

/-! ## One head after the other -/

/-- What follows the last split with head `a`, whose tail has `n` places. -/
def rollOver (a n : Nat) : Nat → Option (List Nat)
  | 0 => none
  | s + 1 => some ((a + 1) :: first n s)

theorem next?_cons_of_some {a : Nat} {rest rest' : List Nat} (h : next? rest = some rest') :
    next? (a :: rest) = some (a :: rest') := by
  simp [next?, h]

theorem next?_cons_of_none {a : Nat} {rest : List Nat} (h : next? rest = none) :
    next? (a :: rest) = rollOver a rest.length (depth rest) := by
  simp only [next?, h]
  cases depth rest <;> rfl

/-- The splits with head `a` are those of the tail, each behind `a`; then the head
    is raised. -/
theorem listFrom_cons (k t a : Nat) (rest : List Nat) :
    (walk k t).listFrom (some (a :: rest))
      = ((walk k t).listFrom (some rest)).map (a :: ·)
        ++ (walk k t).listFrom (rollOver a rest.length (depth rest)) := by
  rw [Walk.listFrom_some, Walk.listFrom_some]
  change _ :: (walk k t).listFrom (next? (a :: rest))
    = (rest :: (walk k t).listFrom (next? rest)).map (a :: ·) ++ _
  -- the tail keeps its places and its sum, so what follows its last split does too
  cases tail : next? rest with
  | none => simp [next?_cons_of_none tail]
  | some rest' =>
    rw [next?_cons_of_some tail, listFrom_cons k t a rest', length_next? tail, depth_next? tail]
    simp
termination_by room rest
decreasing_by exact room_next? tail

/-! ## Nested loops -/

/-- From a head on whose tail starts over, the walk runs through the outer loop. -/
theorem listFrom_head (k t n : Nat)
    (tail : ∀ s, (walk k t).listFrom (some (first (n + 1) s)) = all (n + 1) s) (s a : Nat) :
    (walk k t).listFrom (some (a :: first (n + 1) s))
      = (List.range (s + 1)).flatMap fun e => (all (n + 1) (s - e)).map ((a + e) :: ·) := by
  -- on what is left for the tail: a raised head leaves one unit less
  induction s generalizing a with
  | zero =>
    rw [listFrom_cons, length_first, depth_first_succ, tail]
    simp [rollOver]
  | succ s ih =>
    rw [listFrom_cons, length_first, depth_first_succ, tail, rollOver, ih,
      List.range_succ_eq_map (n := s + 1), List.flatMap_cons, List.flatMap_map]
    simp only [Nat.add_zero, Nat.sub_zero, Nat.succ_eq_add_one, Nat.add_sub_add_right,
      Nat.add_assoc, Nat.add_comm 1]

theorem listFrom_first (k t n s : Nat) :
    (walk k t).listFrom (some (first (n + 1) s)) = all (n + 1) s := by
  induction n generalizing s with
  | zero => simp [first, all, Walk.listFrom_some, walk, next?]
  | succ n ih =>
    rw [first, listFrom_head k t n ih s 0, all]
    simp only [Nat.zero_add]

/-- The walk lists what the nested loops list, in the same order. -/
theorem toList_walk {k : Nat} (pos : 0 < k) (t : Nat) : (walk k t).toList = all k t := by
  cases k with
  | zero => omega
  | succ n => exact listFrom_first (n + 1) t n t

/-! ## Membership -/

theorem mem_all {k t : Nat} {split : List Nat} :
    split ∈ all k t ↔ split.length = k ∧ split.sum = t := by
  fun_induction all k t generalizing split with
  | case1 =>
    rw [List.mem_singleton, List.length_eq_zero_iff]
    constructor
    · rintro rfl
      exact ⟨rfl, rfl⟩
    · exact And.left
  | case2 t =>
    simp only [List.not_mem_nil, List.length_eq_zero_iff, false_iff, not_and]
    rintro rfl
    simp
  | case3 t =>
    rw [List.mem_singleton, List.length_eq_one_iff]
    constructor
    · rintro rfl
      exact ⟨⟨t, rfl⟩, by simp⟩
    · rintro ⟨⟨e, rfl⟩, sum_eq⟩
      simpa using sum_eq
  | case4 k t ih =>
    simp only [List.mem_flatMap, List.mem_range, List.mem_map]
    constructor
    · rintro ⟨e, below, rest, member, rfl⟩
      obtain ⟨length_eq, sum_eq⟩ := ih e |>.mp member
      rw [List.length_cons, List.sum_cons]
      omega
    · rintro ⟨length_eq, sum_eq⟩
      cases split with
      | nil => simp at length_eq
      | cons e rest =>
        rw [List.length_cons] at length_eq
        rw [List.sum_cons] at sum_eq
        exact ⟨e, by omega, rest, ih e |>.mpr ⟨by omega, by omega⟩, rfl⟩

theorem mem_walk {k t : Nat} (pos : 0 < k) {split : List Nat} :
    split ∈ (walk k t).toList ↔ split.length = k ∧ split.sum = t := by
  rw [toList_walk pos, mem_all]

/-! ## Order -/

/-- Splits stand in ascending lexicographic order. -/
theorem pairwise_all (k t : Nat) : (all k t).Pairwise (List.Lex (· < ·)) := by
  fun_induction all k t with
  | case1 => exact List.pairwise_singleton _ _
  | case2 => exact .nil
  | case3 => exact List.pairwise_singleton _ _
  | case4 k t ih =>
    rw [List.pairwise_flatMap]
    constructor
    · intro e _
      rw [List.pairwise_map]
      exact (ih e).imp .cons
    · -- a smaller head comes first, whatever the tails are
      refine List.pairwise_lt_range.imp fun less x x_member y y_member => ?_
      obtain ⟨tail, -, rfl⟩ := List.mem_map.mp x_member
      obtain ⟨tail', -, rfl⟩ := List.mem_map.mp y_member
      exact .rel less

theorem pairwise_walk {k : Nat} (pos : 0 < k) (t : Nat) :
    (walk k t).toList.Pairwise (List.Lex (· < ·)) := by
  rw [toList_walk pos]
  exact pairwise_all k t

end PirTuning.Rotation.Split
