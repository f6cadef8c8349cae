/-!
# Finite walks

A walk is an enumeration that is stepped through instead of stored: its first
item, the successor of an item, and a measure that every step lowers.  The
spaces of this library (exponent splits, generator sets) are far too large to
list, so they are walks, and a search holds one item at a time.  What runs
through a walk does what the list function of its name does on `toList`.
-/

namespace PirTuning

universe u v

/-- A finite enumeration given by its first item and the successor of an item.
    `room a` bounds how many items can still follow `a`. -/
structure Walk (α : Type u) where
  first : Option α
  next : α → Option α
  room : α → Nat
  room_next : ∀ {a b : α}, next a = some b → room b < room a

namespace Walk

variable {α : Type u} {β : Type v}

/-! ## Measure -/

/-- Room from a position on, the item itself counted. -/
def left (w : Walk α) : Option α → Nat
  | none => 0
  | some a => w.room a + 1

theorem left_next (w : Walk α) (a : α) : w.left (w.next a) < w.left (some a) := by
  cases h : w.next a with
  | none => simp [left]
  | some b => simpa [left] using w.room_next h

/-! ## The view as a list -/

def listFrom (w : Walk α) : Option α → List α
  | none => []
  | some a => a :: w.listFrom (w.next a)
termination_by o => w.left o
decreasing_by exact w.left_next a

def toList (w : Walk α) : List α :=
  w.listFrom w.first

@[simp] theorem listFrom_none (w : Walk α) : w.listFrom none = [] := by
  rw [listFrom]

theorem listFrom_some (w : Walk α) (a : α) :
    w.listFrom (some a) = a :: w.listFrom (w.next a) := by
  rw [listFrom]

/-- Induction along a walk: an item may assume the statement for what comes
    after it. -/
theorem induct (w : Walk α) {motive : Option α → Prop} (done : motive none)
    (step : ∀ a, motive (w.next a) → motive (some a)) : ∀ o, motive o
  | none => done
  | some a => step a (induct w done step (w.next a))
termination_by o => w.left o
decreasing_by exact w.left_next a

/-! ## Running through the items -/

@[specialize] def foldFrom (w : Walk α) (f : β → α → β) (b : β) : Option α → β
  | none => b
  | some a => w.foldFrom f (f b a) (w.next a)
termination_by o => w.left o
decreasing_by exact w.left_next a

@[inline] def foldl (w : Walk α) (f : β → α → β) (b : β) : β :=
  w.foldFrom f b w.first

/-- Left fold that leaves the remaining items alone once `stop` holds of the
    state. -/
@[specialize] def scanFrom (w : Walk α) (stop : β → Bool) (f : β → α → β) (b : β) :
    Option α → β
  | none => b
  | some a => if stop b then b else w.scanFrom stop f (f b a) (w.next a)
termination_by o => w.left o
decreasing_by exact w.left_next a

@[inline] def scan (w : Walk α) (stop : β → Bool) (f : β → α → β) (b : β) : β :=
  w.scanFrom stop f b w.first

@[specialize] def findFrom? (w : Walk α) (p : α → Bool) : Option α → Option α
  | none => none
  | some a => if p a then some a else w.findFrom? p (w.next a)
termination_by o => w.left o
decreasing_by exact w.left_next a

@[inline] def find? (w : Walk α) (p : α → Bool) : Option α :=
  w.findFrom? p w.first

/-! ## Pages -/

def advance (w : Walk α) : Nat → Option α → Option α
  | 0, o => o
  | _ + 1, none => none
  | n + 1, some a => w.advance n (w.next a)

/-- At most `n` items from a position on, newest first on top of `seen`, and the
    position after them. -/
def gather (w : Walk α) (seen : List α) : Nat → Option α → List α × Option α
  | 0, o => (seen, o)
  | _ + 1, none => (seen, none)
  | n + 1, some a => w.gather (a :: seen) n (w.next a)

/-- A stretch of a walk, and whether another item follows. -/
structure Page (α : Type u) where
  items : List α
  more : Bool
  deriving Repr, DecidableEq

def page (w : Walk α) (skip take : Nat) : Page α :=
  let (seen, rest) := w.gather [] take (w.advance skip w.first)
  { items := seen.reverse, more := rest.isSome }

/-! ## Bridges to the view -/

theorem foldFrom_eq (w : Walk α) (f : β → α → β) (b : β) (o : Option α) :
    w.foldFrom f b o = (w.listFrom o).foldl f b := by
  induction o using w.induct generalizing b with
  | done => simp [foldFrom]
  | step a ih => rw [foldFrom, listFrom_some, List.foldl_cons, ih]

theorem foldl_eq (w : Walk α) (f : β → α → β) (b : β) :
    w.foldl f b = w.toList.foldl f b :=
  w.foldFrom_eq f b w.first

/-- Fold of a list that stops with its state; what `scan` does on the view. -/
def listScan (stop : β → Bool) (f : β → α → β) (b : β) : List α → β
  | [] => b
  | a :: rest => if stop b then b else listScan stop f (f b a) rest

theorem scanFrom_eq (w : Walk α) (stop : β → Bool) (f : β → α → β) (b : β) (o : Option α) :
    w.scanFrom stop f b o = listScan stop f b (w.listFrom o) := by
  induction o using w.induct generalizing b with
  | done => simp [scanFrom, listScan]
  | step a ih =>
    rw [scanFrom, listFrom_some, listScan]
    split
    · rfl
    · exact ih (f b a)

theorem scan_eq (w : Walk α) (stop : β → Bool) (f : β → α → β) (b : β) :
    w.scan stop f b = listScan stop f b w.toList :=
  w.scanFrom_eq stop f b w.first

theorem findFrom?_eq (w : Walk α) (p : α → Bool) (o : Option α) :
    w.findFrom? p o = (w.listFrom o).find? p := by
  induction o using w.induct with
  | done => simp [findFrom?]
  | step a ih =>
    rw [findFrom?, listFrom_some, List.find?_cons]
    cases p a with
    | true => rfl
    | false => exact ih

theorem find?_eq (w : Walk α) (p : α → Bool) : w.find? p = w.toList.find? p :=
  w.findFrom?_eq p w.first

theorem listFrom_advance (w : Walk α) (n : Nat) (o : Option α) :
    w.listFrom (w.advance n o) = (w.listFrom o).drop n := by
  induction n generalizing o with
  | zero => simp [advance]
  | succ n ih =>
    cases o with
    | none => simp [advance]
    | some a => rw [advance, ih, listFrom_some, List.drop_succ_cons]

theorem gather_seen (w : Walk α) (seen : List α) (n : Nat) (o : Option α) :
    (w.gather seen n o).1.reverse = seen.reverse ++ (w.listFrom o).take n := by
  induction n generalizing o seen with
  | zero => simp [gather]
  | succ n ih =>
    cases o with
    | none => simp [gather]
    | some a => simp [gather, ih, listFrom_some]

theorem gather_rest (w : Walk α) (seen : List α) (n : Nat) (o : Option α) :
    (w.gather seen n o).2 = w.advance n o := by
  induction n generalizing o seen with
  | zero => simp [gather, advance]
  | succ n ih =>
    cases o with
    | none => simp [gather, advance]
    | some a => simp [gather, advance, ih]

theorem isSome_iff_listFrom (w : Walk α) (o : Option α) :
    o.isSome = !(w.listFrom o).isEmpty := by
  cases o with
  | none => simp
  | some a => simp [listFrom_some]

theorem page_items (w : Walk α) (skip take : Nat) :
    (w.page skip take).items = (w.toList.drop skip).take take := by
  simp [page, gather_seen, listFrom_advance, toList]

theorem page_more (w : Walk α) (skip take : Nat) :
    (w.page skip take).more = !((w.toList.drop skip).drop take).isEmpty := by
  simp only [page, gather_rest, isSome_iff_listFrom w, listFrom_advance, toList]

/-! ## Every other number -/

/-- The numbers `start`, `start + 2`, `start + 4`, … below `stop`. -/
def everyOther (start stop : Nat) : Walk Nat where
  first := if start < stop then some start else none
  next a := if a + 2 < stop then some (a + 2) else none
  room a := stop - a
  room_next h := by
    split at h
    · cases h; omega
    · cases h

end Walk

end PirTuning
