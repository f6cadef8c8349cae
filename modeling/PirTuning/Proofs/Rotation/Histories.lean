import Mathlib.Algebra.BigOperators.Fin
import Mathlib.Data.Fintype.Card
import PirTuning.Proofs.Rotation.Records

/-!
# What a history leaves behind

A history is a list of targets that were reached, each with its depth.  A target may come up
again and again, at any depth and in any order.  Recorded entry by entry, a history leaves
behind the first depth of each target, and a counter that says how many targets were named.
`summary` is that record, told from the history alone: recording one more entry sums up the
history that is longer by it.
-/

namespace PirTuning.Rotation.Discovery

/-! ## Histories -/

/-- Record a history entry by entry, and keep the answers.  Nothing comes of it if an entry
    has no answer. -/
def recordAll? {count : Nat} (d : Discovery) :
    List (Fin count × UInt32) → Option (List Bool × Discovery)
  | [] => some ([], d)
  | (i, t) :: history => do
    let (fresh, d') ← d.record? i t.toNat
    let (answers, d'') ← recordAll? d' history
    return (fresh :: answers, d'')

/-- The targets that a history names. -/
def named {count : Nat} (history : List (Fin count × UInt32)) : Finset (Fin count) :=
  (history.map Prod.fst).toFinset

/-- The first depth of each target that a history names, and how many these are. -/
def summary {count : Nat} (history : List (Fin count × UInt32)) : Discovery :=
  { times := List.ofFn fun i => (history.lookup i).map UInt32.toNat
    found := (named history).card }

variable {count : Nat} {history : List (Fin count × UInt32)} {i : Fin count}

theorem isSome_lookup_iff : (history.lookup i).isSome = true ↔ i ∈ named history := by
  simp [named]

theorem lookup_eq_none_iff : history.lookup i = none ↔ i ∉ named history := by
  rw [← isSome_lookup_iff, Bool.not_eq_true, Option.isSome_eq_false_iff, Option.isNone_iff_eq_none]

theorem named_concat (t : UInt32) : named (history ++ [(i, t)]) = insert i (named history) := by
  ext j
  simp [named]

/-- A later entry only counts for a target that has none. -/
theorem lookup_concat (t : UInt32) (j : Fin count) :
    (history ++ [(i, t)]).lookup j = (history.lookup j).or (if j = i then some t else none) := by
  rw [List.lookup_append]
  by_cases same : j = i <;> simp [List.lookup_cons, same, beq_false_of_ne]

/-! ## One more entry -/

theorem summary_nil : summary ([] : List (Fin count × UInt32)) = empty count := by
  simp [summary, named, empty]

theorem size_summary : (summary history).size = count :=
  List.length_ofFn

theorem get?_summary (history : List (Fin count × UInt32)) (i : Fin count) :
    (summary history).get? i = some ((history.lookup i).map UInt32.toNat) := by
  simp [get?, summary]

theorem summary_of_named (mem : i ∈ named history) (t : UInt32) :
    summary (history ++ [(i, t)]) = summary history := by
  obtain ⟨s, first⟩ := Option.isSome_iff_exists.mp (isSome_lookup_iff.mpr mem)
  have lookup_eq : ∀ j, (history ++ [(i, t)]).lookup j = history.lookup j := by
    intro j
    rw [lookup_concat]
    by_cases same : j = i
    · rw [same, first, Option.some_or]
    · rw [if_neg same, Option.or_none]
  simp only [summary, lookup_eq, named_concat, Finset.insert_eq_of_mem mem]

theorem summary_of_fresh (fresh : i ∉ named history) (t : UInt32) :
    summary (history ++ [(i, t)]) =
      { times := (summary history).times.set i (some t.toNat)
        found := (summary history).found + 1 } := by
  have open_slot := lookup_eq_none_iff.mpr fresh
  simp only [summary, named_concat, Finset.card_insert_of_notMem fresh, mk.injEq, and_true]
  -- slot by slot: the one of `i` was open, and the others have no new entry
  apply List.ext_getElem
  · simp
  · intro k lt _
    simp only [List.getElem_ofFn, List.getElem_set, lookup_concat]
    by_cases same : i.val = k
    · subst same
      simp [open_slot]
    · simp [same, Fin.ext_iff, Ne.symm same]

/-- An entry is answered by whether its target is new, and leaves the summary of the history
    that it ends. -/
theorem record?_summary (i : Fin count) (t : UInt32) :
    (summary history).record? i t.toNat
      = some ((history.lookup i).isNone, summary (history ++ [(i, t)])) := by
  have slot := get?_summary history i
  rw [get?] at slot
  cases first : history.lookup i with
  | some s =>
    have mem := isSome_lookup_iff.mp (Option.isSome_of_eq_some first)
    rw [record?, slot, first, summary_of_named mem]
    rfl
  | none =>
    rw [record?, slot, first, summary_of_fresh (lookup_eq_none_iff.mp first)]
    rfl

/-- A run from a summary goes to the summary of both histories. -/
theorem recordAll?_summary (earlier history : List (Fin count × UInt32)) :
    recordAll? (summary earlier) history
      = some (history.mapIdx fun k entry => ((earlier ++ history.take k).lookup entry.1).isNone,
          summary (earlier ++ history)) := by
  induction history generalizing earlier with
  | nil => simp [recordAll?]
  | cons entry history ih =>
    -- the entry that was recorded goes over to the earlier ones
    obtain ⟨i, t⟩ := entry
    rw [recordAll?, record?_summary]
    simp [ih, List.mapIdx_cons]

/-- An answer is yes exactly for the first entry of a target. -/
theorem getElem?_answers_eq_true_iff {k : Nat} {entry : Fin count × UInt32}
    (here : history[k]? = some entry) :
    (history.mapIdx fun k entry => ((history.take k).lookup entry.1).isNone)[k]? = some true ↔
      entry.1 ∉ named (history.take k) := by
  rw [List.getElem?_mapIdx, here, Option.map_some, Option.some.injEq, Option.isNone_iff_eq_none,
    lookup_eq_none_iff]

/-! ## Completion -/

theorem isComplete_summary_iff :
    (summary history).isComplete = true ↔ ∀ i, i ∈ named history := by
  rw [isComplete, beq_iff_eq, size_summary, ← Finset.eq_univ_iff_forall,
    ← Finset.card_eq_iff_eq_univ, Fintype.card_fin]
  rfl

theorem isSome_toVector?_summary_iff :
    (summary history).toVector?.isSome = true ↔ ∀ i, i ∈ named history := by
  rw [Option.isSome_iff_ne_none, toVector?, Ne, closed?_eq_none_iff, summary, List.mem_ofFn,
    not_exists]
  refine forall_congr' fun i => ?_
  rw [Option.map_eq_none_iff, lookup_eq_none_iff, not_not]

theorem isSome_finalCost?_iff {d : Discovery} :
    d.finalCost?.isSome = true ↔ d.isComplete = true := by
  simp [Option.isSome_iff_exists, finalCost?_eq_some_iff]

/-! ## Vectors and costs of complete histories -/

variable {depths : Fin count → UInt32}

theorem charge_of_depths (depths : Fin count → UInt32) :
    charge 0 (List.ofFn fun i => some (depths i).toNat) = ∑ i, 2 ^ i.val * (depths i).toNat :=
  charge_ofFn 0 fun i => some (depths i).toNat

theorem times_summary_of_firsts (firsts : ∀ i, history.lookup i = some (depths i)) :
    (summary history).times = List.ofFn fun i => some (depths i).toNat := by
  simp only [summary, firsts, Option.map_some]

theorem toVector?_summary_of_firsts (firsts : ∀ i, history.lookup i = some (depths i)) :
    (summary history).toVector? = some (List.ofFn fun i => (depths i).toNat) := by
  rw [toVector?, closed?_eq_some_iff, times_summary_of_firsts firsts, List.map_ofFn]
  rfl

theorem finalCost?_summary_of_firsts (firsts : ∀ i, history.lookup i = some (depths i)) :
    (summary history).finalCost? = some (∑ i, 2 ^ i.val * (depths i).toNat) := by
  have complete : (summary history).isComplete = true := isComplete_summary_iff.mpr fun i =>
    isSome_lookup_iff.mp (Option.isSome_of_eq_some (firsts i))
  rw [finalCost?_eq_some_iff, runningCost, times_summary_of_firsts firsts, charge_of_depths]
  exact ⟨complete, rfl⟩

/-- A cost of at most 30 targets fits into 62 bits. -/
theorem cost_lt (count_le : count ≤ 30) (depths : Fin count → UInt32) :
    ∑ i, 2 ^ i.val * (depths i).toNat < 2 ^ 62 := by
  have small : ∀ slot ∈ List.ofFn fun i => some (depths i).toNat, slot.getD 0 < 2 ^ 32 := by
    intro slot member
    obtain ⟨i, rfl⟩ := List.mem_ofFn.mp member
    exact (depths i).toNat_lt
  have below := charge_lt small
  rw [charge_of_depths, List.length_ofFn] at below
  exact below.trans_le (Nat.pow_le_pow_right Nat.two_pos (Nat.add_le_add_right count_le 32))

/-! ## The invariant -/

/-- Whatever history is recorded from the start, each of its entries has an answer, which is yes
    exactly for the first entry of a target.  The counter left behind is the number of targets
    named, and a target has the depth of its first entry, if it was named.  By the counter the
    record is complete exactly if every target was named, and just then it has a vector and a
    final cost: the first depths in order, and their weighted sum, which is far from leaving a
    word of 64 bits. -/
theorem records_of_history {count : Nat} (count_le : count ≤ 30)
    (history : List (Fin count × UInt32)) :
    ∃ answers d, recordAll? (empty count) history = some (answers, d) ∧
      answers.length = history.length ∧
      (∀ k entry, history[k]? = some entry →
        (answers[k]? = some true ↔ entry.1 ∉ named (history.take k))) ∧
      d.found = (named history).card ∧
      (∀ i : Fin count, d.get? i = some ((history.lookup i).map UInt32.toNat)) ∧
      (d.isComplete = true ↔ ∀ i, i ∈ named history) ∧
      (d.toVector?.isSome = true ↔ ∀ i, i ∈ named history) ∧
      (d.finalCost?.isSome = true ↔ ∀ i, i ∈ named history) ∧
      ∀ depths : Fin count → UInt32, (∀ i, history.lookup i = some (depths i)) →
        d.toVector? = some (List.ofFn fun i => (depths i).toNat) ∧
        d.finalCost? = some (∑ i, 2 ^ i.val * (depths i).toNat) ∧
        ∑ i, 2 ^ i.val * (depths i).toNat < 2 ^ 62 := by
  have ran := recordAll?_summary [] history
  rw [summary_nil] at ran
  simp only [List.nil_append] at ran
  refine ⟨_, _, ran, List.length_mapIdx, fun k entry => getElem?_answers_eq_true_iff, rfl,
    get?_summary history, isComplete_summary_iff, isSome_toVector?_summary_iff,
    isSome_finalCost?_iff.trans isComplete_summary_iff, fun depths firsts => ?_⟩
  exact ⟨toVector?_summary_of_firsts firsts, finalCost?_summary_of_firsts firsts,
    cost_lt count_le depths⟩

/-- Two targets, the second named twice before the first: its later entry changes nothing. -/
theorem records_of_history_two :
    ∃ history : List (Fin 2 × UInt32), 2 ≤ 30 ∧ ∃ answers d,
      recordAll? (empty 2) history = some (answers, d) ∧
      answers[0]? = some true ∧ answers[1]? ≠ some true ∧ answers[2]? = some true ∧
      d.found = 2 ∧ d.get? 1 = some (some 4) ∧ d.isComplete = true ∧
      d.toVector? = some [3, 4] ∧ d.finalCost? = some 11 := by
  let history : List (Fin 2 × UInt32) := [(1, 4), (1, 2), (0, 3)]
  obtain ⟨answers, d, ran, _, told, found, slots, complete, _, _, settled⟩ :=
    records_of_history (by decide) history
  obtain ⟨vector, cost, _⟩ := settled (fun i => if i = 0 then 3 else 4) (by decide)
  exact ⟨history, by decide, answers, d, ran, (told 0 (1, 4) rfl).mpr (by decide),
    fun yes => (told 1 (1, 2) rfl).mp yes (by decide), (told 2 (0, 3) rfl).mpr (by decide),
    found.trans (by decide), slots 1, complete.mpr (by decide), vector, cost⟩

end PirTuning.Rotation.Discovery
