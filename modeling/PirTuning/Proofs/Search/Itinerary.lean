import PirTuning.Proofs.Search.Enumeration

/-!
# The itinerary of a worker

A worker on its own makes one stop after the other: it announces an outermost
generator that passes a marker, or it considers a candidate.  `itinerary` lists
the stops of a search without running it, one outermost generator after the
other.  `searchRing_eq` says that a search is a walk along its itinerary, so that
rows, counts of rows and the first generator of the row before are of no concern
to what is proved about searches.
-/

namespace PirTuning.Search

open Rotation Walk

/-! ## Stops -/

/-- What a worker does next. -/
inductive Stop where
  | announce (outer : Nat)
  | consider (generators : List Nat)
  deriving Repr, DecidableEq

/-- Do what a stop asks for. -/
def Progress.visit (ring : SlotRing) (p : Progress) : Stop → Progress
  | .announce outer => p.tell (.progress outer)
  | .consider generators => p.consider ring generators

/-- The candidate that is considered at a stop. -/
def Stop.candidate? : Stop → Option (List Nat)
  | .announce _ => none
  | .consider generators => some generators

namespace Arity

/-- The announcement of an outermost generator, if it passes a marker. -/
def marker (arity : Arity) (outer : Nat) : List Stop :=
  if outer % arity.progressInterval = 1 then [.announce outer] else []

/-- The candidates with an outermost generator, in order. -/
def setsFrom (modulus outer : Nat) : Arity → List (List Nat)
  | .pair => (innerValues outer modulus).toList.map fun h => [outer, h]
  | .triple => (everyOther outer modulus).toList.flatMap fun g =>
      (innerValues g modulus).toList.map fun h => [outer, g, h]

/-- The stops for an outermost generator. -/
def block (arity : Arity) (modulus outer : Nat) : List Stop :=
  arity.marker outer ++ (arity.setsFrom modulus outer).map .consider

end Arity

/-- All stops of a search, in order. -/
def itinerary (arity : Arity) (modulus : Nat) : List Stop :=
  (pairRows modulus).toList.flatMap (arity.block modulus)

variable {ring : SlotRing} {arity : Arity} {modulus : Nat}

/-! ## What is considered -/

theorem mem_candidates {stops : List Stop} {generators : List Nat} :
    generators ∈ stops.filterMap Stop.candidate? ↔ .consider generators ∈ stops := by
  rw [List.mem_filterMap]
  constructor
  · rintro ⟨stop, member, own⟩
    cases stop with
    | announce outer => cases own
    | consider other =>
      obtain rfl := Option.some.inj own
      exact member
  · intro member
    exact ⟨_, member, rfl⟩

theorem candidates_block (arity : Arity) (modulus outer : Nat) :
    (arity.block modulus outer).filterMap Stop.candidate? = arity.setsFrom modulus outer := by
  have none_announced : (arity.marker outer).filterMap Stop.candidate? = [] := by
    unfold Arity.marker
    split <;> rfl
  rw [Arity.block, List.filterMap_append, none_announced, List.nil_append, List.filterMap_map]
  exact List.filterMap_some

theorem generatorSets_eq (arity : Arity) (modulus : Nat) :
    arity.generatorSets modulus = (pairRows modulus).toList.flatMap (arity.setsFrom modulus) := by
  cases arity with
  | pair =>
    rw [Arity.generatorSets, toList_pairCandidates, List.map_flatMap]
    simp only [List.map_map, Function.comp_def, Arity.setsFrom]
  | triple =>
    rw [Arity.generatorSets, toList_tripleCandidates, toList_tripleRows, List.map_flatMap,
      List.flatMap_assoc]
    simp only [List.map_map, List.flatMap_map, Function.comp_def, Arity.setsFrom]

/-- Every candidate is considered once, in the order of the enumeration. -/
theorem candidates_itinerary (arity : Arity) (modulus : Nat) :
    (itinerary arity modulus).filterMap Stop.candidate? = arity.generatorSets modulus := by
  rw [itinerary, List.filterMap_flatMap, generatorSets_eq]
  simp only [candidates_block]

/-! ## Rows -/

theorem foldl_visit_consider (sets : List (List Nat)) (p : Progress) :
    (sets.map Stop.consider).foldl (Progress.visit ring) p
      = sets.foldl (Progress.consider ring) p := by
  rw [List.foldl_map]
  rfl

theorem foldl_visit_marker (arity : Arity) (outer : Nat) (p : Progress) :
    (arity.marker outer).foldl (Progress.visit ring) p
      = p.announce arity.progressInterval outer := by
  unfold Arity.marker Progress.announce
  split <;> rfl

/-- A row is entered with its length, and ends where the walk over the last
    generators does. -/
theorem rowFrom_eq (candidate : Nat → List Nat) {count inner : Nat}
    (count_eq : count = (ring.modulus - inner + 1) / 2) (p : Progress) :
    p.rowFrom ring candidate inner count
      = ((everyOther inner ring.modulus).toList.map candidate).foldl (Progress.consider ring) p := by
  induction count generalizing inner p with
  | zero =>
    rw [toList_everyOther_of_le (by omega)]
    rfl
  | succ count ih =>
    rw [toList_everyOther_of_lt (by omega), Progress.rowFrom, ih (by omega)]
    rfl

theorem row_eq (candidate : Nat → List Nat) (last : Nat) (p : Progress) :
    p.row ring last candidate
      = ((innerValues last ring.modulus).toList.map candidate).foldl (Progress.consider ring) p := by
  unfold Progress.row
  split
  · exact rowFrom_eq candidate rfl p
  · rw [innerValues_eq_nil (by omega)]
    rfl

/-! ## Pairs -/

theorem searchPairs_eq (ring : SlotRing) :
    searchPairs ring = (itinerary .pair ring.modulus).foldl (Progress.visit ring) {} := by
  rw [searchPairs, Walk.foldl_eq, itinerary, List.foldl_flatMap]
  congr 1
  funext p g
  rw [Arity.block, List.foldl_append, foldl_visit_marker, foldl_visit_consider, row_eq]
  rfl

/-! ## Triples -/

theorem tripleRow_same (f g : Nat) (p : Progress) :
    tripleRow ring (f, p) (f, g) = (f, p.row ring g fun h => [f, g, h]) := by
  simp [tripleRow]

theorem tripleRow_of_ne {previous f : Nat} (ne : f ≠ previous) (g : Nat) (p : Progress) :
    tripleRow ring (previous, p) (f, g)
      = (f, (p.announce Arity.triple.progressInterval f).row ring g fun h => [f, g, h]) := by
  simp [tripleRow, ne]

/-- Rows with the first generator of the row before are not announced. -/
theorem foldl_tripleRow_same (f : Nat) (middles : List Nat) (p : Progress) :
    (middles.map (f, ·)).foldl (tripleRow ring) (f, p)
      = (f, (middles.flatMap fun g =>
          (innerValues g ring.modulus).toList.map fun h => [f, g, h]).foldl
            (Progress.consider ring) p) := by
  induction middles generalizing p with
  | nil => rfl
  | cons g middles ih =>
    rw [List.map_cons, List.foldl_cons, List.flatMap_cons, List.foldl_append, ← row_eq,
      tripleRow_same]
    exact ih _

/-- The first row of a new first generator is. -/
theorem foldl_tripleRow_block {previous f : Nat} (ne : f ≠ previous) (lt : f < ring.modulus)
    (p : Progress) :
    ((everyOther f ring.modulus).toList.map (f, ·)).foldl (tripleRow ring) (previous, p)
      = (f, (Arity.triple.block ring.modulus f).foldl (Progress.visit ring) p) := by
  rw [Arity.block, List.foldl_append, foldl_visit_marker, foldl_visit_consider, Arity.setsFrom,
    toList_everyOther_of_lt lt, List.map_cons, List.foldl_cons, List.flatMap_cons,
    List.foldl_append, ← row_eq, ← foldl_tripleRow_same, tripleRow_of_ne ne]

theorem foldl_tripleRows {previous start : Nat} (lt : previous < start) (p : Progress) :
    (((everyOther start ring.modulus).toList.flatMap fun f =>
        (everyOther f ring.modulus).toList.map (f, ·)).foldl (tripleRow ring) (previous, p)).2
      = ((everyOther start ring.modulus).toList.flatMap (Arity.triple.block ring.modulus)).foldl
          (Progress.visit ring) p := by
  by_cases inside : start < ring.modulus
  · rw [toList_everyOther_of_lt inside, List.flatMap_cons, List.flatMap_cons, List.foldl_append,
      List.foldl_append, foldl_tripleRow_block (Nat.ne_of_gt lt) inside]
    exact foldl_tripleRows (by omega) _
  · rw [toList_everyOther_of_le (Nat.not_lt.mp inside)]
    rfl
termination_by ring.modulus - start

theorem searchTriples_eq (ring : SlotRing) :
    searchTriples ring = (itinerary .triple ring.modulus).foldl (Progress.visit ring) {} := by
  rw [searchTriples, Walk.foldl_eq, toList_tripleRows]
  exact foldl_tripleRows (Nat.succ_pos 2) {}

/-! ## Searches -/

/-- How far a search has come after some stops. -/
def soloRun (ring : SlotRing) (stops : List Stop) : Progress :=
  stops.foldl (Progress.visit ring) {}

/-- A search is a walk along its itinerary. -/
theorem searchRing_eq (arity : Arity) (ring : SlotRing) :
    searchRing arity ring = (soloRun ring (itinerary arity ring.modulus)).finish := by
  cases arity with
  | pair => exact congrArg Progress.finish (searchPairs_eq ring)
  | triple => exact congrArg Progress.finish (searchTriples_eq ring)

end PirTuning.Search
