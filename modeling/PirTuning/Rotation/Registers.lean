import PirTuning.Rotation.Split

/-!
# Splits in registers

A split can be kept in a row of 32-bit registers and stepped in place: one register takes
a unit, the last one what is left to its right, and those between are cleared.  Sums and
differences are checked, so a step that overflows comes to nothing instead of to a wrong
row.
-/

namespace PirTuning.Rotation.Registers

/-! ## Checked arithmetic -/

/-- Why an operation on registers has no result: the sum is too large, or the difference
    is below zero. -/
inductive Overflow where
  | sum (a b : UInt32)
  | difference (a b : UInt32)
  deriving Repr, DecidableEq

def add (a b : UInt32) : Except Overflow UInt32 :=
  if a.toNat + b.toNat < UInt32.size then .ok (a + b) else .error (.sum a b)

def sub (a b : UInt32) : Except Overflow UInt32 :=
  if b ≤ a then .ok (a - b) else .error (.difference a b)

theorem add_eq_ok_iff {a b c : UInt32} : add a b = .ok c ↔ c.toNat = a.toNat + b.toNat := by
  unfold add
  split
  next fits =>
    have sum : (a + b).toNat = a.toNat + b.toNat := by
      rw [UInt32.toNat_add, Nat.mod_eq_of_lt fits]
    rw [Except.ok.injEq, ← sum, UInt32.toNat_inj, eq_comm]
  next large =>
    have below : c.toNat < UInt32.size := c.toNat_lt_size
    simp
    omega

theorem sub_eq_ok_iff {a b c : UInt32} : sub a b = .ok c ↔ a.toNat = c.toNat + b.toNat := by
  unfold sub
  split
  next le =>
    have difference : (a - b).toNat = a.toNat - b.toNat := UInt32.toNat_sub_of_le _ _ le
    rw [UInt32.le_iff_toNat_le] at le
    rw [Except.ok.injEq, ← UInt32.toNat_inj, difference]
    omega
  next negative =>
    rw [UInt32.le_iff_toNat_le] at negative
    simp
    omega

theorem toNat_eq_zero_of_not_pos {a : UInt32} (empty : ¬ 0 < a) : a.toNat = 0 := by
  rw [UInt32.lt_iff_toNat_lt, UInt32.toNat_zero] at empty
  omega

/-! ## Steps -/

variable {n : Nat}

def clear (row : Vector UInt32 n) (start stop : Nat) : Vector UInt32 n :=
  .ofFn fun i => if start ≤ i ∧ i < stop then 0 else row[i]

theorem getElem_clear_inside (row : Vector UInt32 n) {start stop i : Nat} (lt : i < n)
    (inside : start ≤ i ∧ i < stop) : (clear row start stop)[i] = 0 := by
  simp only [clear, Vector.getElem_ofFn]
  exact if_pos inside

theorem getElem_clear_outside (row : Vector UInt32 n) {start stop i : Nat} (lt : i < n)
    (outside : ¬ (start ≤ i ∧ i < stop)) : (clear row start stop)[i] = row[i] := by
  simp only [clear, Vector.getElem_ofFn]
  exact if_neg outside

/-- Of the first `j` registers, raise the rightmost one that has something to its right,
    and leave the rest of that to the last register.  `tail` is what lies to the right of
    register `j`. -/
def raiseBefore (row : Vector UInt32 (n + 2)) (tail : UInt32) :
    (j : Nat) → j + 1 < n + 2 → Except Overflow (Option (Vector UInt32 (n + 2)))
  | 0, _ => .ok none
  | j + 1, h => do
    let tail ← add tail row[j + 1]
    if 0 < tail then
      let raised ← add row[j] 1
      let rest ← sub tail 1
      return some ((clear (row.set j raised) (j + 1) (n + 1)).set (n + 1) rest)
    else raiseBefore row tail j (by omega)

/-- The row after a row, in place.  A last register that holds something gives a unit to
    its neighbour; otherwise the register to raise is further left. -/
def next (row : Vector UInt32 (n + 2)) : Except Overflow (Option (Vector UInt32 (n + 2))) :=
  if 0 < row[n + 1] then do
    let raised ← add row[n] 1
    let rest ← sub row[n + 1] 1
    return some ((row.set n raised).set (n + 1) rest)
  else raiseBefore row 0 n (by omega)

/-! ## What a row holds -/

def contents (row : Vector UInt32 n) : List Nat :=
  row.toList.map UInt32.toNat

@[simp] theorem length_contents (row : Vector UInt32 n) : (contents row).length = n := by
  simp [contents]

theorem getElem_contents (row : Vector UInt32 n) {i : Nat} (lt : i < n)
    (h : i < (contents row).length) : (contents row)[i] = row[i].toNat := by
  simp [contents]

theorem drop_contents (row : Vector UInt32 n) {j : Nat} (h : j < n) :
    (contents row).drop j = row[j].toNat :: (contents row).drop (j + 1) := by
  rw [List.drop_eq_getElem_cons (by simpa using h), getElem_contents row h]

theorem contents_eq (row : Vector UInt32 (n + 2)) {j : Nat} (h : j < n + 1) :
    contents row = (contents row).take j ++ row[j].toNat :: row[j + 1].toNat ::
      (contents row).drop (j + 2) := by
  rw [← drop_contents row (by omega), ← drop_contents row (by omega), List.take_append_drop]

theorem clear_self (row : Vector UInt32 n) (i : Nat) : clear row i i = row := by
  apply Vector.ext
  intro j lt
  exact getElem_clear_outside row lt (by omega)

/-- What is written at register `j`, behind it and at the end. -/
theorem contents_moved (row : Vector UInt32 (n + 2)) {j : Nat} (h : j < n + 1)
    (raised rest : UInt32) :
    contents ((clear (row.set j raised) (j + 1) (n + 1)).set (n + 1) rest)
      = (contents row).take j ++ raised.toNat :: (List.replicate (n - j) 0 ++ [rest.toNat]) := by
  have length_take : ((contents row).take j).length = j := by
    rw [List.length_take, length_contents]
    omega
  apply List.ext_getElem
  · simp only [length_contents, List.length_append, length_take, List.length_cons,
      List.length_replicate, List.length_nil]
    omega
  · intro i bound _
    have lt : i < n + 2 := by rwa [length_contents] at bound
    rw [getElem_contents _ lt, List.getElem_append]
    simp only [length_take]
    rcases Nat.lt_trichotomy i j with before | rfl | after
    · rw [dif_pos before, List.getElem_take, getElem_contents row lt,
        Vector.getElem_set_ne _ _ (by omega), getElem_clear_outside _ lt (by omega),
        Vector.getElem_set_ne _ _ (by omega)]
    · rw [dif_neg (Nat.lt_irrefl i), Vector.getElem_set_ne _ _ (by omega),
        getElem_clear_outside _ lt (by omega), Vector.getElem_set_self]
      simp
    · obtain ⟨d, rfl⟩ : ∃ d, i = j + 1 + d := ⟨i - (j + 1), by omega⟩
      have index : j + 1 + d - j = d + 1 := by omega
      rw [dif_neg (by omega)]
      simp only [index, List.getElem_cons_succ, List.getElem_append, List.length_replicate]
      by_cases inside : d < n - j
      · rw [dif_pos inside, List.getElem_replicate, Vector.getElem_set_ne _ _ (by omega),
          getElem_clear_inside _ lt (by omega)]
        rfl
      · have last : n + 1 = j + 1 + d := by omega
        simp [inside, last]

/-! ## Steps are right -/

section

open Split

theorem depth_append (front back : List Nat) :
    depth (front ++ back) = depth front + depth back := by
  induction front with
  | nil => simp
  | cons e front ih => rw [List.cons_append, depth_cons, depth_cons, ih, Nat.add_assoc]

theorem depth_zeros (k : Nat) : depth (List.replicate k 0) = 0 := by
  induction k with
  | zero => rfl
  | succ k ih => rw [List.replicate_succ, depth_cons, ih]

theorem first_eq (k t : Nat) : first (k + 1) t = List.replicate k 0 ++ [t] := by
  induction k with
  | zero => rfl
  | succ k ih => rw [first, ih, List.replicate_succ, List.cons_append]

/-- Nothing follows once everything is in the first place. -/
theorem next?_zeros (a k : Nat) : next? (a :: List.replicate k 0) = none := by
  induction k generalizing a with
  | zero => rfl
  | succ k ih => rw [next?, List.replicate_succ, ih, depth_cons, depth_zeros]

theorem next?_append {tail tail' : List Nat} (h : next? tail = some tail') (front : List Nat) :
    next? (front ++ tail) = some (front ++ tail') := by
  induction front with
  | nil => exact h
  | cons a front ih => simp [next?, ih]

/-- A unit moves to the left of the rightmost place that holds something, and the rest of
    that place moves to the end. -/
theorem next?_shift (front : List Nat) (a b k : Nat) :
    next? (front ++ a :: (b + 1) :: List.replicate k 0)
      = some (front ++ (a + 1) :: (List.replicate k 0 ++ [b])) := by
  apply next?_append
  rw [next?, next?_zeros, depth_cons, depth_zeros, List.length_cons, List.length_replicate,
    ← first_eq]

/-- Both branches of a step write the same, once the place to raise is found. -/
theorem next?_of_moved (row : Vector UInt32 (n + 2)) {j : Nat} (h : j < n + 1)
    (zeros : (contents row).drop (j + 2) = List.replicate (n - j) 0) {raised rest : UInt32}
    (raised_eq : raised.toNat = row[j].toNat + 1) (rest_eq : row[j + 1].toNat = rest.toNat + 1) :
    next? (contents row)
      = some (contents ((clear (row.set j raised) (j + 1) (n + 1)).set (n + 1) rest)) := by
  have row_eq := contents_eq row h
  rw [zeros, rest_eq] at row_eq
  rw [contents_moved row h, raised_eq, row_eq, next?_shift, ← row_eq]

theorem next?_of_raiseBefore {row : Vector UInt32 (n + 2)} {j : Nat} (h : j + 1 < n + 2)
    (zeros : (contents row).drop (j + 1) = List.replicate (n + 1 - j) 0) {tail : UInt32}
    (tail_eq : tail.toNat = 0) {row' : Option (Vector UInt32 (n + 2))}
    (ok : raiseBefore row tail j h = .ok row') :
    next? (contents row) = row'.map contents := by
  -- the search goes on only while nothing was found, so what it adds up stays zero
  induction j generalizing tail with
  | zero =>
    cases ok
    have whole := drop_contents row (j := 0) (by omega)
    rw [List.drop_zero] at whole
    rw [whole, zeros]
    exact next?_zeros _ _
  | succ j ih =>
    obtain ⟨tail', sum, ok⟩ := Word.bind_eq_ok_iff.mp ok
    rw [add_eq_ok_iff, tail_eq, Nat.zero_add] at sum
    split at ok
    next found =>
      obtain ⟨raised, raised_eq, ok⟩ := Word.bind_eq_ok_iff.mp ok
      obtain ⟨rest, rest_eq, ok⟩ := Word.bind_eq_ok_iff.mp ok
      cases ok
      rw [add_eq_ok_iff] at raised_eq
      rw [sub_eq_ok_iff, sum] at rest_eq
      have fewer : n + 1 - (j + 1) = n - j := by omega
      exact next?_of_moved row (by omega) (fewer ▸ zeros) raised_eq rest_eq
    next empty =>
      have tail'_eq := toNat_eq_zero_of_not_pos empty
      have one_more : n + 1 - j = (n + 1 - (j + 1)) + 1 := by omega
      refine ih (by omega) ?_ tail'_eq ok
      rw [drop_contents row (by omega), zeros, ← sum, tail'_eq, one_more, List.replicate_succ]

theorem next?_of_next {row : Vector UInt32 (n + 2)} {row' : Option (Vector UInt32 (n + 2))}
    (ok : next row = .ok row') : next? (contents row) = row'.map contents := by
  unfold next at ok
  split at ok
  next found =>
    obtain ⟨raised, raised_eq, ok⟩ := Word.bind_eq_ok_iff.mp ok
    obtain ⟨rest, rest_eq, ok⟩ := Word.bind_eq_ok_iff.mp ok
    cases ok
    rw [add_eq_ok_iff] at raised_eq
    rw [sub_eq_ok_iff] at rest_eq
    have moved := next?_of_moved row (Nat.lt_succ_self n) (by simp) raised_eq rest_eq
    rwa [clear_self] at moved
  next empty =>
    refine next?_of_raiseBefore _ ?_ rfl ok
    rw [drop_contents row (by omega), toNat_eq_zero_of_not_pos empty,
      List.drop_eq_nil_of_le (by simp), Nat.add_sub_cancel_left]
    rfl

end

/-! ## The walk -/

/-- Every row of `n + 2` registers that holds a split of `t`, ascending.  An overflow
    would end it. -/
def walk (n : Nat) (t : UInt32) : Walk (Vector UInt32 (n + 2)) where
  first := some ((Vector.replicate (n + 2) 0).set (n + 1) t)
  next row :=
    match Registers.next row with
    | .ok row' => row'
    | .error _ => none
  room row := Split.room (contents row)
  room_next := by
    intro row row' h
    split at h
    next ok =>
      subst h
      exact Split.room_next? (next?_of_next ok)
    next => cases h

end PirTuning.Rotation.Registers
