import PirTuning.Search.Run

/-!
# The order of the candidates

The walks over candidate sets list one row after the other, and so does a search:
up to its announcements it considers the candidates in the order in which they are
enumerated.  The rows with nothing behind them are where the two differ in form;
the walks step over them and a search enters them in vain.
-/

namespace PirTuning

namespace Walk

/-! ## Every other number -/

theorem listFrom_everyOther (start start' stop : Nat) (o : Option Nat) :
    (everyOther start stop).listFrom o = (everyOther start' stop).listFrom o := by
  induction o using (everyOther start stop).induct with
  | done => simp
  | step a ih =>
    rw [listFrom_some, listFrom_some, ih]
    rfl

theorem toList_everyOther_of_lt {start stop : Nat} (lt : start < stop) :
    (everyOther start stop).toList = start :: (everyOther (start + 2) stop).toList := by
  have first_eq : (everyOther start stop).first = some start := if_pos lt
  rw [toList, first_eq, listFrom_some, listFrom_everyOther start (start + 2)]
  rfl

theorem toList_everyOther_of_le {start stop : Nat} (le : stop ≤ start) :
    (everyOther start stop).toList = [] := by
  have first_eq : (everyOther start stop).first = none := if_neg (Nat.not_lt.mpr le)
  rw [toList, first_eq, listFrom_none]

end Walk

namespace Search

open Walk Rotation

variable {modulus : Nat}

/-! ## Rows -/

/-- Nothing follows in a row, nor in the rows after it, once two more is too much. -/
theorem flatMap_everyOther_of_le {α : Type} {g : Nat} (le : modulus ≤ g + 2)
    (row : Nat → List α) (empty : ∀ g', g ≤ g' → row g' = []) :
    (everyOther g modulus).toList.flatMap row = [] := by
  by_cases lt : g < modulus
  · rw [toList_everyOther_of_lt lt, toList_everyOther_of_le le]
    simp [empty g (Nat.le_refl g)]
  · rw [toList_everyOther_of_le (Nat.not_lt.mp lt), List.flatMap_nil]

theorem listFrom_tripleRows {f g : Nat} (lt : g < modulus) (le : f ≤ g) :
    (tripleRows modulus).listFrom (some (f, g))
      = (everyOther g modulus).toList.map (f, ·)
        ++ (everyOther (f + 2) modulus).toList.flatMap fun f' =>
            (everyOther f' modulus).toList.map (f', ·) := by
  rw [listFrom_some, toList_everyOther_of_lt lt]
  change (f, g) :: (tripleRows modulus).listFrom (if g + 2 < modulus then some (f, g + 2)
    else if f + 2 < modulus then some (f + 2, f + 2) else none) = _
  by_cases more : g + 2 < modulus
  · rw [if_pos more, listFrom_tripleRows more (by omega)]
    rfl
  · rw [if_neg more, toList_everyOther_of_le (Nat.not_lt.mp more)]
    by_cases next_row : f + 2 < modulus
    · rw [if_pos next_row, toList_everyOther_of_lt next_row, List.flatMap_cons,
        listFrom_tripleRows next_row (Nat.le_refl _)]
      rfl
    · rw [if_neg next_row, toList_everyOther_of_le (Nat.not_lt.mp next_row)]
      simp
termination_by (tripleRows modulus).room (f, g)
decreasing_by
  · exact (tripleRows modulus).room_next (if_pos more)
  · exact (tripleRows modulus).room_next ((if_neg more).trans (if_pos next_row))

theorem toList_tripleRows (modulus : Nat) :
    (tripleRows modulus).toList
      = (pairRows modulus).toList.flatMap fun f =>
          (everyOther f modulus).toList.map (f, ·) := by
  by_cases lt : firstGenerator < modulus
  · have first_eq : (tripleRows modulus).first = some (firstGenerator, firstGenerator) := if_pos lt
    rw [pairRows, toList_everyOther_of_lt lt, List.flatMap_cons, toList, first_eq,
      listFrom_tripleRows lt (Nat.le_refl _)]
  · have first_eq : (tripleRows modulus).first = none := if_neg lt
    rw [toList, first_eq, listFrom_none, pairRows, toList_everyOther_of_le (Nat.not_lt.mp lt),
      List.flatMap_nil]

/-! ## Sets -/

theorem innerValues_eq_nil {last modulus : Nat} (le : modulus ≤ last + 2) :
    (innerValues last modulus).toList = [] :=
  toList_everyOther_of_le le

theorem flatMap_innerValues_of_le {α : Type} {g : Nat} (le : modulus ≤ g + 2)
    (pack : Nat → Nat → α) :
    ((everyOther g modulus).toList.flatMap fun g' =>
      (innerValues g' modulus).toList.map (pack g')) = [] :=
  flatMap_everyOther_of_le le _ fun g' ge => by
    rw [innerValues_eq_nil (by omega), List.map_nil]

theorem flatMap_tripleRows_of_le {f : Nat} (le : modulus ≤ f + 2) :
    ((everyOther f modulus).toList.flatMap fun f' =>
      (everyOther f' modulus).toList.flatMap fun g' =>
        (innerValues g' modulus).toList.map (f', g', ·)) = [] :=
  flatMap_everyOther_of_le le _ fun f' ge =>
    flatMap_innerValues_of_le (by omega) fun g' h => (f', g', h)

theorem listFrom_pairCandidates {g h : Nat} (lt : h < modulus) (le : g + 2 ≤ h) :
    (pairCandidates modulus).listFrom (some (g, h))
      = (everyOther h modulus).toList.map (g, ·)
        ++ (everyOther (g + 2) modulus).toList.flatMap fun g' =>
            (innerValues g' modulus).toList.map (g', ·) := by
  rw [listFrom_some, toList_everyOther_of_lt lt]
  change (g, h) :: (pairCandidates modulus).listFrom (if h + 2 < modulus then some (g, h + 2)
    else if g + 4 < modulus then some (g + 2, g + 4) else none) = _
  by_cases more : h + 2 < modulus
  · rw [if_pos more, listFrom_pairCandidates more (by omega)]
    rfl
  · rw [if_neg more, toList_everyOther_of_le (Nat.not_lt.mp more)]
    by_cases next_row : g + 4 < modulus
    · rw [if_pos next_row, toList_everyOther_of_lt (show g + 2 < modulus by omega),
        List.flatMap_cons, listFrom_pairCandidates next_row (Nat.le_refl _)]
      rfl
    · rw [if_neg next_row, listFrom_none, flatMap_innerValues_of_le (Nat.not_lt.mp next_row)]
      rfl
termination_by (pairCandidates modulus).room (g, h)
decreasing_by
  · exact (pairCandidates modulus).room_next (if_pos more)
  · exact (pairCandidates modulus).room_next ((if_neg more).trans (if_pos next_row))

/-- The pairs come row by row. -/
theorem toList_pairCandidates (modulus : Nat) :
    (pairCandidates modulus).toList
      = (pairRows modulus).toList.flatMap fun g =>
          (innerValues g modulus).toList.map (g, ·) := by
  by_cases lt : firstGenerator + 2 < modulus
  · have first_eq : (pairCandidates modulus).first
        = some (firstGenerator, firstGenerator + 2) := if_pos lt
    rw [toList, first_eq, listFrom_pairCandidates lt (Nat.le_refl _), pairRows,
      toList_everyOther_of_lt (show firstGenerator < modulus by omega), List.flatMap_cons]
    rfl
  · have first_eq : (pairCandidates modulus).first = none := if_neg lt
    rw [toList, first_eq, listFrom_none, pairRows, flatMap_innerValues_of_le (Nat.not_lt.mp lt)]

theorem listFrom_tripleCandidates {f g h : Nat} (lt : h < modulus) (le : g + 2 ≤ h)
    (le' : f ≤ g) :
    (tripleCandidates modulus).listFrom (some (f, g, h))
      = (everyOther h modulus).toList.map (f, g, ·)
        ++ ((everyOther (g + 2) modulus).toList.flatMap (fun g' =>
              (innerValues g' modulus).toList.map (f, g', ·))
            ++ (everyOther (f + 2) modulus).toList.flatMap fun f' =>
                (everyOther f' modulus).toList.flatMap fun g' =>
                  (innerValues g' modulus).toList.map (f', g', ·)) := by
  rw [listFrom_some, toList_everyOther_of_lt lt]
  -- the branches are the ends of the innermost, of the middle and of the outer loop
  change (f, g, h) :: (tripleCandidates modulus).listFrom
    (if h + 2 < modulus then some (f, g, h + 2)
    else if g + 4 < modulus then some (f, g + 2, g + 4)
    else if f + 4 < modulus then some (f + 2, f + 2, f + 4) else none) = _
  by_cases more : h + 2 < modulus
  · rw [if_pos more, listFrom_tripleCandidates more (by omega) le']
    rfl
  · rw [if_neg more, toList_everyOther_of_le (Nat.not_lt.mp more)]
    by_cases next_row : g + 4 < modulus
    · rw [if_pos next_row, toList_everyOther_of_lt (show g + 2 < modulus by omega),
        List.flatMap_cons, listFrom_tripleCandidates next_row (Nat.le_refl _) (by omega),
        List.append_assoc]
      rfl
    · rw [if_neg next_row, flatMap_innerValues_of_le (Nat.not_lt.mp next_row)]
      by_cases next_first : f + 4 < modulus
      · rw [if_pos next_first, toList_everyOther_of_lt (show f + 2 < modulus by omega),
          List.flatMap_cons, toList_everyOther_of_lt (show f + 2 < modulus by omega),
          List.flatMap_cons, listFrom_tripleCandidates next_first (Nat.le_refl _) (Nat.le_refl _),
          List.append_assoc]
        rfl
      · rw [if_neg next_first, listFrom_none,
          flatMap_tripleRows_of_le (Nat.not_lt.mp next_first)]
        rfl
termination_by (tripleCandidates modulus).room (f, g, h)
decreasing_by
  · exact (tripleCandidates modulus).room_next (if_pos more)
  · exact (tripleCandidates modulus).room_next ((if_neg more).trans (if_pos next_row))
  · exact (tripleCandidates modulus).room_next
      ((if_neg more).trans ((if_neg next_row).trans (if_pos next_first)))

/-- The triples come row by row. -/
theorem toList_tripleCandidates (modulus : Nat) :
    (tripleCandidates modulus).toList
      = (tripleRows modulus).toList.flatMap fun (f, g) =>
          (innerValues g modulus).toList.map (f, g, ·) := by
  rw [toList_tripleRows, List.flatMap_assoc]
  simp only [List.flatMap_map]
  by_cases lt : firstGenerator + 2 < modulus
  · have first_eq : (tripleCandidates modulus).first
        = some (firstGenerator, firstGenerator, firstGenerator + 2) := if_pos lt
    have lt' : firstGenerator < modulus := by omega
    rw [toList, first_eq, listFrom_tripleCandidates lt (Nat.le_refl _) (Nat.le_refl _), pairRows,
      toList_everyOther_of_lt lt', List.flatMap_cons, toList_everyOther_of_lt lt',
      List.flatMap_cons, List.append_assoc]
    rfl
  · have first_eq : (tripleCandidates modulus).first = none := if_neg lt
    rw [toList, first_eq, listFrom_none, pairRows, flatMap_tripleRows_of_le (Nat.not_lt.mp lt)]

end Search

end PirTuning
