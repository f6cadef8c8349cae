import PirTuning.Search.Schedule
import PirTuning.Proofs.Search.Settling

/-!
# The locked section

Under the lock the ceiling is ahead of the record from the publication to the commit.
What holds at every moment is told along the candidates that were recorded so far, in
their order:

* `Stage` says what the shared state and the calls back are at each point of the locked
  section, and `Guarded` that at most one offer is inside;
* `Ledger` adds where the other offers are, and why those that were refused had to be;
* `Ledger.step` is preservation, and `Ledger.steps` carries it through any interleaving.
-/

namespace PirTuning.Search

open Rotation

/-! ## What a phase tells -/

namespace Phase

/-- The lock is held. -/
def locks : Phase → Bool
  | .holding | .published | .told | .recorded => true
  | .fresh | .passed | .returned _ => false

/-- The score was published. -/
def stored : Phase → Bool
  | .published | .told | .recorded => true
  | .returned installed => installed
  | .fresh | .passed | .holding => false

/-- The candidate was put into the record. -/
def settled : Phase → Bool
  | .recorded => true
  | .returned installed => installed
  | .fresh | .passed | .holding | .published | .told => false

theorem stored_of_settled {phase : Phase} (settled : phase.settled) : phase.stored := by
  cases phase with
  | recorded => rfl
  | returned installed => exact settled
  | _ => cases settled

end Phase

namespace Desk

/-- A score that makes an offer fail: the one that stands for no record, or one that was
    stored. -/
def Beaten (offers : List Offer) (score : Nat) : Prop :=
  noCeiling ≤ score ∨ ∃ other ∈ offers, other.phase.stored ∧ other.candidate.score ≤ score

/-! ## The locked section -/

/-- A call back that sees the score of its own candidate. -/
def call (best : Best) : Best × Nat :=
  (best, best.score)

/-- The shared state, the lock and the calls back after some candidates were recorded,
    by how far the offer that holds the lock has come. -/
inductive Stage (history : List Best) :
    Shared → Bool → List (Best × Nat) → Option Offer → Prop where
  | free : Stage history (.holding history.getLast?) false (history.map call) none
  | holding (best : Best) :
      Stage history (.holding history.getLast?) true (history.map call) (some ⟨best, .holding⟩)
  | published (best : Best) (lt : best.score < bar history.getLast?) :
      Stage history ((Shared.holding history.getLast?).publish best.score) true
        (history.map call) (some ⟨best, .published⟩)
  | told (best : Best) (lt : best.score < bar history.getLast?) :
      Stage history ((Shared.holding history.getLast?).publish best.score) true
        ((history ++ [best]).map call) (some ⟨best, .told⟩)
  | recorded (best : Best) :
      Stage history (.holding history.getLast?) true (history.map call) (some ⟨best, .recorded⟩)

/-- One offer holds the lock if it is taken, and none otherwise. -/
def Guarded (history : List Best) (desk : Desk) : Prop :=
  ∃ holder : Option Offer,
    desk.offers.filter (·.phase.locks) = holder.toList ∧
      Stage history desk.shared desk.locked desk.calls holder

variable {candidates history : List Best} {desk desk' : Desk} {s s' : Shared}
  {locked locked' : Bool} {calls calls' : List (Best × Nat)} {before after : List Offer}
  {best : Best} {phase phase' : Phase}

theorem filter_locks_of_not_locks (idle : phase.locks = false) :
    (before ++ ⟨best, phase⟩ :: after).filter (·.phase.locks)
      = (before ++ after).filter (·.phase.locks) := by
  simp [List.filter_append, idle]

theorem filter_locks_of_locks (locks : phase.locks)
    (alone : (before ++ after).filter (·.phase.locks) = []) :
    (before ++ ⟨best, phase⟩ :: after).filter (·.phase.locks) = [⟨best, phase⟩] := by
  rw [List.filter_append, List.append_eq_nil_iff] at alone
  simp [List.filter_append, alone, locks]

theorem mem_of_holds {offers : List Offer} {offer : Offer}
    (holds : offers.filter (·.phase.locks) = [offer]) : offer ∈ offers :=
  List.mem_of_mem_filter (holds ▸ List.mem_singleton_self offer)

/-- Where the holder of the lock stands, and that nobody else holds it. -/
theorem Guarded.stage
    (guarded : Guarded history ⟨s, locked, before ++ ⟨best, phase⟩ :: after, calls⟩)
    (locks : phase.locks) :
    Stage history s locked calls (some ⟨best, phase⟩) ∧
      (before ++ after).filter (·.phase.locks) = [] := by
  obtain ⟨holder, holds, stage⟩ := guarded
  have member : (⟨best, phase⟩ : Offer) ∈ holder.toList := by
    rw [← holds, List.mem_filter]
    exact ⟨by simp, locks⟩
  obtain rfl : holder = some ⟨best, phase⟩ := by simpa using member
  simp only [Option.toList_some, List.filter_append, List.filter_cons, locks, if_true,
    List.append_eq_singleton_iff] at holds
  refine ⟨stage, ?_⟩
  rw [List.filter_append, List.append_eq_nil_iff]
  simpa using holds

/-- A step of an offer outside the section. -/
theorem Guarded.outside
    (guarded : Guarded history ⟨s, locked, before ++ ⟨best, phase⟩ :: after, calls⟩)
    (idle : phase.locks = false) (idle' : phase'.locks = false) :
    Guarded history ⟨s, locked, before ++ ⟨best, phase'⟩ :: after, calls⟩ := by
  obtain ⟨holder, holds, stage⟩ := guarded
  refine ⟨holder, ?_, stage⟩
  rw [← holds, filter_locks_of_not_locks idle, filter_locks_of_not_locks idle']

/-- A step into the section or inside it. -/
theorem guarded_of_locks (locks : phase.locks)
    (alone : (before ++ after).filter (·.phase.locks) = [])
    (stage : Stage history s locked calls (some ⟨best, phase⟩)) :
    Guarded history ⟨s, locked, before ++ ⟨best, phase⟩ :: after, calls⟩ :=
  ⟨_, filter_locks_of_locks locks alone, stage⟩

/-- A step out of the section. -/
theorem guarded_of_free (idle : phase.locks = false)
    (alone : (before ++ after).filter (·.phase.locks) = [])
    (stage : Stage history s locked calls none) :
    Guarded history ⟨s, locked, before ++ ⟨best, phase⟩ :: after, calls⟩ :=
  ⟨none, (filter_locks_of_not_locks idle).trans alone, stage⟩

/-! ## The ledger -/

/-- Where the offers are after some candidates were recorded, in their order. -/
structure Ledger (candidates history : List Best) (desk : Desk) : Prop where
  same : desk.offers.map Offer.candidate = candidates
  guarded : Guarded history desk
  records : minima history = history
  perm : ((desk.offers.filter (·.phase.settled)).map Offer.candidate).Perm history
  refused : ∀ offer ∈ desk.offers,
    offer.phase = .returned false → Beaten desk.offers offer.candidate.score

theorem Ledger.start (candidates : List Best) : Ledger candidates [] (start candidates) where
  same := by simp [Desk.start, Function.comp_def]
  guarded := ⟨none, by simp [Desk.start, Phase.locks], .free⟩
  records := rfl
  perm := by simp [Desk.start, Phase.settled]
  refused := by simp [Desk.start]

/-- What was stored stays so. -/
theorem Beaten.advance {score : Nat} (beaten : Beaten (before ++ ⟨best, phase⟩ :: after) score)
    (keeps : phase.stored → phase'.stored) :
    Beaten (before ++ ⟨best, phase'⟩ :: after) score := by
  refine beaten.imp_right ?_
  rintro ⟨other, member, stored, le⟩
  rcases List.mem_append.mp member with front | back
  · exact ⟨other, List.mem_append_left _ front, stored, le⟩
  · rcases List.mem_cons.mp back with rfl | behind
    · exact ⟨⟨best, phase'⟩, by simp, keeps stored, le⟩
    · exact ⟨other, by simp [behind], stored, le⟩

/-- An offer takes a step, after which as many candidates as offers are recorded. -/
theorem Ledger.advance {history' : List Best}
    (ledger : Ledger candidates history ⟨s, locked, before ++ ⟨best, phase⟩ :: after, calls⟩)
    (keeps : phase.stored → phase'.stored)
    (refused : phase' = .returned false → Beaten (before ++ ⟨best, phase⟩ :: after) best.score)
    (records : minima history' = history')
    (perm : (((before ++ ⟨best, phase'⟩ :: after).filter (·.phase.settled)).map
      Offer.candidate).Perm history')
    (guarded : Guarded history' ⟨s', locked', before ++ ⟨best, phase'⟩ :: after, calls'⟩) :
    Ledger candidates history' ⟨s', locked', before ++ ⟨best, phase'⟩ :: after, calls'⟩ where
  same := by simpa using ledger.same
  guarded := guarded
  records := records
  perm := perm
  refused := by
    intro offer member back
    rcases List.mem_append.mp member with front | behind
    · exact (ledger.refused offer (List.mem_append_left _ front) back).advance keeps
    · rcases List.mem_cons.mp behind with rfl | behind
      · exact (refused back).advance keeps
      · exact (ledger.refused offer (by simp [behind]) back).advance keeps

/-- A step that puts nothing into the record. -/
theorem Ledger.keep
    (ledger : Ledger candidates history ⟨s, locked, before ++ ⟨best, phase⟩ :: after, calls⟩)
    (keeps : phase.stored → phase'.stored) (settled : phase'.settled = phase.settled)
    (refused : phase' = .returned false → Beaten (before ++ ⟨best, phase⟩ :: after) best.score)
    (guarded : Guarded history ⟨s', locked', before ++ ⟨best, phase'⟩ :: after, calls'⟩) :
    Ledger candidates history ⟨s', locked', before ++ ⟨best, phase'⟩ :: after, calls'⟩ := by
  refine ledger.advance keeps refused ledger.records ?_ guarded
  have perm := ledger.perm
  cases kept : phase.settled <;>
    simpa [List.filter_append, List.filter_cons, settled, kept] using perm

/-- The commit, which is where the record catches up with the ceiling. -/
theorem Ledger.commit
    (ledger : Ledger candidates history ⟨s, locked, before ++ ⟨best, .told⟩ :: after, calls⟩) :
    Ledger candidates (history ++ [best])
      ⟨s.commit best, locked, before ++ ⟨best, .recorded⟩ :: after, calls⟩ := by
  obtain ⟨stage, alone⟩ := ledger.guarded.stage rfl
  cases stage with
  | told _ lt =>
    refine ledger.advance id nofun (minima_append_of_lt ledger.records lt) ?_ ?_
    · have perm := ledger.perm
      simp only [List.filter_append, List.filter_cons, Phase.settled, List.map_append,
        List.map_cons, if_true, Bool.false_eq_true, if_false] at perm ⊢
      exact List.perm_middle.trans ((perm.cons best).trans (List.perm_append_singleton best _).symm)
    · have stage : Stage (history ++ [best]) _ _ _ _ := .recorded best
      rw [List.getLast?_concat] at stage
      exact guarded_of_locks rfl alone stage

/-- The ceiling is the score of an offer that was stored, unless there is none. -/
theorem Ledger.beaten {score : Nat} (ledger : Ledger candidates history desk)
    (high : desk.shared.ceiling ≤ score) : Beaten desk.offers score := by
  have recorded (le : bar history.getLast? ≤ score) : Beaten desk.offers score := by
    cases last : history.getLast? with
    | none => exact .inl (by simpa [last, bar] using le)
    | some best =>
      have member := ledger.perm.mem_iff.mpr (List.mem_of_getLast? last)
      obtain ⟨offer, settled, rfl⟩ := List.mem_map.mp member
      obtain ⟨mem, settled⟩ := List.mem_filter.mp settled
      exact .inr ⟨offer, mem, Phase.stored_of_settled settled, by simpa [last, bar] using le⟩
  have ahead {offer : Offer} (holds : desk.offers.filter (·.phase.locks) = [offer])
      (stored : offer.phase.stored) (le : offer.candidate.score ≤ score) :
      Beaten desk.offers score :=
    .inr ⟨offer, mem_of_holds holds, stored, le⟩
  obtain ⟨s, locked, offers, calls⟩ := desk
  obtain ⟨holder, holds, stage⟩ := ledger.guarded
  -- the ceiling is ahead of the record only between publication and commit
  cases stage with
  | free => exact recorded high
  | holding best => exact recorded high
  | published best => exact ahead holds rfl high
  | told best => exact ahead holds rfl high
  | recorded best => exact recorded high

theorem Ledger.step (ledger : Ledger candidates history desk) (step : Step desk desk') :
    ∃ history', Ledger candidates history' desk' := by
  cases step with
  | move before after best move =>
    have guarded := ledger.guarded
    cases move with
    | giveUp _ _ _ high =>
      exact ⟨history, ledger.keep id rfl (fun _ => ledger.beaten high) (guarded.outside rfl rfl)⟩
    | pass =>
      exact ⟨history, ledger.keep id rfl nofun (guarded.outside rfl rfl)⟩
    | lock =>
      obtain ⟨holder, holds, stage⟩ := guarded
      cases stage
      have alone := (filter_locks_of_not_locks rfl).symm.trans holds
      exact ⟨history, ledger.keep id rfl nofun (guarded_of_locks rfl alone (.holding best))⟩
    | reject _ _ late =>
      obtain ⟨stage, alone⟩ := guarded.stage rfl
      cases stage
      -- under the lock the ceiling and the record agree, so this offer came too late
      rw [Shared.recordScore_holding] at late
      exact ⟨history, ledger.keep id rfl (fun _ => ledger.beaten late)
        (guarded_of_free rfl alone .free)⟩
    | publish _ _ lt =>
      obtain ⟨stage, alone⟩ := guarded.stage rfl
      cases stage
      rw [Shared.recordScore_holding] at lt
      exact ⟨history, ledger.keep (fun _ => rfl) rfl nofun
        (guarded_of_locks rfl alone (.published best lt))⟩
    | tell =>
      obtain ⟨stage, alone⟩ := guarded.stage rfl
      cases stage with
      | published _ lt =>
        have stage := Stage.told best lt
        rw [List.map_append] at stage
        exact ⟨history, ledger.keep id rfl nofun (guarded_of_locks rfl alone stage)⟩
    | commit => exact ⟨history ++ [best], ledger.commit⟩
    | unlock =>
      obtain ⟨stage, alone⟩ := guarded.stage rfl
      cases stage
      exact ⟨history, ledger.keep id rfl nofun (guarded_of_free rfl alone .free)⟩

theorem Ledger.steps (ledger : Ledger candidates history desk) (steps : Steps desk desk') :
    ∃ history', Ledger candidates history' desk' := by
  induction steps generalizing history with
  | refl => exact ⟨history, ledger⟩
  | step head _ ih =>
    obtain ⟨history', ledger'⟩ := ledger.step head
    exact ih ledger'

end Desk

end PirTuning.Search
