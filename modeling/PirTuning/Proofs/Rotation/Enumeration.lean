import Mathlib.Data.Nat.Choose.Sum
import PirTuning.Rotation.Registers
import PirTuning.Proofs.Rotation.Splits

/-!
# The splits of a depth, each once

A walk of splits comes to every split of a depth once.  The registers in which it is made
do not overflow on the way: whatever a register takes, its neighbours had, and together
they never hold more than the depth.  So the rows of registers are the splits of the walk,
from the one that has everything in the last place to the one that has everything in the
first.
-/

namespace PirTuning.Rotation

namespace Split

/-! ## Number -/

theorem length_all (k t : Nat) : (all (k + 1) t).length = (t + k).choose k := by
  induction k generalizing t with
  | zero => simp [all]
  | succ k ih =>
    rw [all, List.length_flatMap]
    simp only [List.length_map, ih]
    calc ((List.range (t + 1)).map fun e => (t - e + k).choose k).sum
        = ∑ e ∈ Finset.range (t + 1), (t - e + k).choose k := rfl
      _ = ∑ e ∈ Finset.range (t + 1), (e + k).choose k :=
        Finset.sum_range_reflect (fun e => (e + k).choose k) (t + 1)
      _ = (t + (k + 1)).choose (k + 1) := Nat.sum_range_add_choose t k

/-! ## Ends -/

theorem head?_walk (k t : Nat) :
    (walk (k + 1) t).toList.head? = some (List.replicate k 0 ++ [t]) := by
  rw [Walk.toList, ← Registers.first_eq]
  exact congrArg List.head? (Walk.listFrom_some _ _)

theorem getLast?_all (k t : Nat) : (all (k + 1) t).getLast? = some (t :: List.replicate k 0) := by
  induction k generalizing t with
  | zero => rfl
  | succ k ih =>
    -- the last block of the outer loop leaves nothing for the others
    rw [all, List.range_succ, List.flatMap_append, List.flatMap_singleton, List.getLast?_append,
      List.getLast?_map, Nat.sub_self, ih]
    rfl

/-! ## Two and three places -/

theorem all_two (t : Nat) : all 2 t = (List.range (t + 1)).map fun a => [a, t - a] := by
  simp only [all, List.map_cons, List.map_nil]
  exact List.flatMap_pure_eq_map _ _

theorem all_three (t : Nat) :
    all 3 t = (List.range (t + 1)).flatMap fun a =>
      (List.range (t - a + 1)).map fun b => [a, b, t - a - b] := by
  rw [all]
  simp only [Nat.reduceAdd, all_two, List.map_map, Function.comp_def]

end Split

namespace Registers

open Split

variable {n : Nat}

/-! ## No overflow -/

theorem exists_add {a b : UInt32} (fits : a.toNat + b.toNat < UInt32.size) :
    ∃ c, add a b = .ok c :=
  ⟨a + b, if_pos fits⟩

theorem exists_sub_one {a : UInt32} (pos : 0 < a) : ∃ c, sub a 1 = .ok c := by
  refine ⟨a - 1, if_pos ?_⟩
  rw [UInt32.lt_iff_toNat_lt] at pos
  rw [UInt32.le_iff_toNat_le]
  exact pos

/-- Neighbours hold no more than the whole row. -/
theorem neighbours_le (row : Vector UInt32 (n + 2)) {j : Nat} (left : j < n + 2)
    (right : j + 1 < n + 2) : row[j].toNat + row[j + 1].toNat ≤ depth (contents row) := by
  rw [contents_eq row (Nat.lt_of_succ_lt_succ right), depth_append, depth_cons, depth_cons]
  omega

/-- A register can be raised if its neighbour holds something. -/
theorem exists_raised {row : Vector UInt32 (n + 2)}
    (fits : depth (contents row) < UInt32.size) {j : Nat} (h : j < n + 1)
    (pos : 0 < row[j + 1].toNat) : ∃ c, add row[j] 1 = .ok c := by
  have pair := neighbours_le row (j := j) (by omega) (by omega)
  apply exists_add
  rw [UInt32.toNat_one]
  omega

theorem exists_raiseBefore {row : Vector UInt32 (n + 2)}
    (fits : depth (contents row) < UInt32.size) {j : Nat} (h : j + 1 < n + 2) {tail : UInt32}
    (tail_eq : tail.toNat = 0) : ∃ row', raiseBefore row tail j h = .ok row' := by
  induction j generalizing tail with
  | zero => exact ⟨none, rfl⟩
  | succ j ih =>
    -- what was found to the right is zero so far, so the sum is a single register
    have pair := neighbours_le row (j := j) (by omega) (by omega)
    obtain ⟨tail', sum⟩ : ∃ c, add tail row[j + 1] = .ok c := by
      apply exists_add
      omega
    have tail'_eq := add_eq_ok_iff.mp sum
    rw [raiseBefore, sum]
    change ∃ row', (if 0 < tail' then _ else _) = Except.ok row'
    split
    next found =>
      have pos : 0 < tail'.toNat := UInt32.lt_iff_toNat_lt.mp found
      obtain ⟨raised, raised_eq⟩ := exists_raised fits (j := j) (by omega) (by omega)
      obtain ⟨rest, rest_eq⟩ := exists_sub_one found
      rw [raised_eq, rest_eq]
      exact ⟨_, rfl⟩
    next empty => exact ih _ (toNat_eq_zero_of_not_pos empty)

theorem exists_next {row : Vector UInt32 (n + 2)} (fits : depth (contents row) < UInt32.size) :
    ∃ row', next row = .ok row' := by
  unfold next
  split
  next found =>
    have pos : 0 < row[n + 1].toNat := UInt32.lt_iff_toNat_lt.mp found
    obtain ⟨raised, raised_eq⟩ := exists_raised fits (Nat.lt_succ_self n) pos
    obtain ⟨rest, rest_eq⟩ := exists_sub_one found
    rw [raised_eq, rest_eq]
    exact ⟨_, rfl⟩
  next => exact exists_raiseBefore fits _ rfl

/-! ## The walk of the registers -/

theorem contents_first (n : Nat) (t : UInt32) :
    contents ((Vector.replicate (n + 2) 0).set (n + 1) t (Nat.lt_succ_self (n + 1)))
      = first (n + 2) t.toNat := by
  rw [first_eq]
  apply List.ext_getElem
  · simp
  · intro i lt _
    rw [length_contents] at lt
    rw [getElem_contents _ lt, List.getElem_append, Vector.getElem_set]
    by_cases last : i < n + 1
    · have apart : ¬ n + 1 = i := by omega
      simp [last, apart]
    · have here : n + 1 = i := by omega
      simp [here]

theorem listFrom_walk (t : UInt32) {o : Option (Vector UInt32 (n + 2))}
    (fits : ∀ row ∈ o, depth (contents row) = t.toNat) :
    (∀ row ∈ (walk n t).listFrom o, ∃ row', next row = .ok row') ∧
    ((walk n t).listFrom o).map contents
      = (Split.walk (n + 2) t.toNat).listFrom (o.map contents) := by
  induction o using (walk n t).induct with
  | done => simp
  | step row ih =>
    have depth_eq := fits row rfl
    have below : depth (contents row) < UInt32.size := depth_eq ▸ t.toNat_lt_size
    obtain ⟨row', ok⟩ := exists_next below
    have step : (walk n t).next row = row' := by simp [walk, ok]
    have spec := next?_of_next ok
    rw [step] at ih
    -- the row after this one holds a split of the same depth, so nothing overflows there either
    obtain ⟨defined, same⟩ := ih (by
      intro later member
      rw [Option.mem_def] at member
      rw [member, Option.map_some] at spec
      rw [depth_next? spec, depth_eq])
    rw [Walk.listFrom_some, step]
    constructor
    · intro other member
      rcases List.mem_cons.mp member with rfl | later
      · exact ⟨row', ok⟩
      · exact defined other later
    · rw [List.map_cons, same, Option.map_some, Walk.listFrom_some, ← spec]
      rfl

theorem toList_walk (n : Nat) (t : UInt32) :
    (∀ row ∈ (walk n t).toList, ∃ row', next row = .ok row') ∧
    (walk n t).toList.map contents = (Split.walk (n + 2) t.toNat).toList := by
  have start : ∀ row ∈ (walk n t).first, depth (contents row) = t.toNat := by
    intro row member
    cases member
    rw [contents_first, depth_first_succ]
  obtain ⟨defined, same⟩ := listFrom_walk t start
  refine ⟨defined, same.trans ?_⟩
  rw [walk, Option.map_some, contents_first]
  rfl

/-! ## The enumeration -/

/-- The splits of a depth across `n + 2` registers: no step overflows, and the walk comes to every
    split once and to nothing else, in ascending lexicographic order.  For two and for three
    places this is the order of nested loops over the leading exponents. -/
theorem registers_enumerate_splits (n : Nat) (t : UInt32) :
    (∀ row ∈ (walk n t).toList, ∃ row', next row = .ok row') ∧
    (walk n t).toList.map contents = (Split.walk (n + 2) t.toNat).toList ∧
    (∀ split, split ∈ (Split.walk (n + 2) t.toNat).toList ↔
      split.length = n + 2 ∧ split.sum = t.toNat) ∧
    (Split.walk (n + 2) t.toNat).toList.Nodup ∧
    (Split.walk (n + 2) t.toNat).toList.Pairwise (List.Lex (· < ·)) ∧
    (Split.walk (n + 2) t.toNat).toList.head? = some (List.replicate (n + 1) 0 ++ [t.toNat]) ∧
    (Split.walk (n + 2) t.toNat).toList.getLast? = some (t.toNat :: List.replicate (n + 1) 0) ∧
    (Split.walk (n + 2) t.toNat).toList.length = (t.toNat + (n + 2) - 1).choose (n + 2 - 1) ∧
    (Split.walk 2 t.toNat).toList = ((List.range (t.toNat + 1)).map fun a => [a, t.toNat - a]) ∧
    (Split.walk 3 t.toNat).toList = ((List.range (t.toNat + 1)).flatMap fun a =>
      (List.range (t.toNat - a + 1)).map fun b => [a, b, t.toNat - a - b]) := by
  obtain ⟨defined, same⟩ := toList_walk n t
  have ascending := pairwise_walk (Nat.succ_pos (n + 1)) t.toNat
  refine ⟨defined, same, fun split => mem_walk (Nat.succ_pos _), ascending.nodup, ascending,
    head?_walk _ _, ?_, ?_, ?_, ?_⟩
  · rw [Split.toList_walk (Nat.succ_pos _)]
    exact getLast?_all (n + 1) t.toNat
  · rw [Split.toList_walk (Nat.succ_pos _)]
    exact length_all (n + 1) t.toNat
  · rw [Split.toList_walk Nat.two_pos, all_two]
  · rw [Split.toList_walk (Nat.succ_pos 2), all_three]

end Registers

end PirTuning.Rotation
