/-!
# Discovery records

For one generator set, a discovery record holds the depth at which each target
was first reached.  A slot is written at most once.  Slot `i` weighs `2 ^ i`, and
the charge of a record adds up the weighted depths.
-/

namespace PirTuning.Rotation

structure Discovery where
  times : List (Option Nat)
  found : Nat
  deriving Repr, DecidableEq

namespace Discovery

/-! ## Writing and reading -/

def empty (count : Nat) : Discovery :=
  { times := List.replicate count none, found := 0 }

/-- The answer tells whether target `i` was reached for the first time; otherwise the
    record stays as it is.  There is no answer for a target that does not exist. -/
def record? (d : Discovery) (i t : Nat) : Option (Bool × Discovery) :=
  match d.times[i]? with
  | none => none
  | some (some _) => some (false, d)
  | some none => some (true, { times := d.times.set i (some t), found := d.found + 1 })

def note (d : Discovery) (i t : Nat) : Discovery :=
  match d.record? i t with
  | none => d
  | some (_, d') => d'

def get? (d : Discovery) (i : Nat) : Option (Option Nat) :=
  d.times[i]?

def size (d : Discovery) : Nat :=
  d.times.length

def isEmpty (d : Discovery) : Bool :=
  d.times.isEmpty

def isComplete (d : Discovery) : Bool :=
  d.found == d.size

/-! ## Charges -/

/-- An open slot is charged with `t`.  The weights double from slot to slot. -/
def charge (t : Nat) : List (Option Nat) → Nat
  | [] => 0
  | slot :: rest => slot.getD t + 2 * charge t rest

/-- A lower bound of the final cost once depth `t` is finished: whatever is still
    open will be reached later than `t`. -/
def runningCost (d : Discovery) (t : Nat) : Nat :=
  charge t d.times

def finalCost? (d : Discovery) : Option Nat :=
  if d.isComplete then some (d.runningCost 0) else none

def closed? : List (Option Nat) → Option (List Nat)
  | [] => some []
  | none :: _ => none
  | some t :: rest => (closed? rest).map (t :: ·)

def toVector? (d : Discovery) : Option (List Nat) :=
  closed? d.times

/-! ## Small laws -/

@[simp] theorem size_empty (count : Nat) : (empty count).size = count := by
  simp [empty, size]

theorem record?_eq_none_iff {d : Discovery} {i t : Nat} :
    d.record? i t = none ↔ d.size ≤ i := by
  rw [size, ← List.getElem?_eq_none_iff]
  unfold record?
  split
  next slot => simp [slot]
  next slot => simp [slot]
  next slot => simp [slot]

theorem size_note (d : Discovery) (i t : Nat) : (d.note i t).size = d.size := by
  unfold note record? size
  split
  · rfl
  · rename_i pair h
    split at h
    · cases h
    · cases h; rfl
    · cases h; simp

theorem closed?_eq_some_iff {slots : List (Option Nat)} {times : List Nat} :
    closed? slots = some times ↔ slots = times.map some := by
  fun_induction closed? slots generalizing times with
  | case1 => cases times <;> simp
  | case2 => cases times <;> simp
  | case3 t rest ih =>
    cases times with
    | nil => simp
    | cons u times =>
      simp only [Option.map_eq_some_iff, List.cons.injEq, List.map_cons, Option.some.injEq, ih]
      constructor
      · rintro ⟨rest', slots_eq, head_eq, rfl⟩
        exact ⟨head_eq, slots_eq⟩
      · rintro ⟨head_eq, slots_eq⟩
        exact ⟨times, slots_eq, head_eq, rfl⟩

end Discovery

end PirTuning.Rotation
