import PirTuning.Proofs.Search.LockedSection

/-!
# Offers under any interleaving

The look at the ceiling is taken without the lock, so several offers can pass it on a
value that is out of date.  The ledger of the offers settles what becomes of them: the
ceiling falls, the calls back come with falling scores, whoever is refused was beaten, and
the cheapest offer is in the record when all have returned.  Offers do not wait for each
other in vain, since the holder of the lock can always go on (`Ledger.exists_step`).
-/

namespace PirTuning.Search

open Rotation

namespace Desk

variable {candidates history : List Best} {desk desk' : Desk} {s s' : Shared}
  {locked locked' : Bool} {calls calls' : List (Best × Nat)} {before after : List Offer}
  {best : Best} {phase phase' : Phase}

/-! ## The ceiling -/

theorem Ledger.ceiling_step_le (ledger : Ledger candidates history desk)
    (step : Step desk desk') : desk'.shared.ceiling ≤ desk.shared.ceiling := by
  cases step with
  | move before after best move =>
    cases move with
    | publish _ _ lt =>
      obtain ⟨stage, _⟩ := ledger.guarded.stage rfl
      cases stage
      rw [Shared.recordScore_holding] at lt
      exact Nat.le_of_lt lt
    | _ => exact Nat.le_refl _

theorem Ledger.ceiling_steps_le (ledger : Ledger candidates history desk)
    (steps : Steps desk desk') : desk'.shared.ceiling ≤ desk.shared.ceiling := by
  induction steps generalizing history with
  | refl => exact Nat.le_refl _
  | step head _ ih =>
    obtain ⟨history', ledger'⟩ := ledger.step head
    exact (ih ledger').trans (ledger.ceiling_step_le head)

/-! ## What can be seen at any moment -/

theorem Ledger.length_locks (ledger : Ledger candidates history desk) :
    (desk.offers.filter (·.phase.locks)).length = desk.locked.toNat := by
  obtain ⟨s, locked, offers, calls⟩ := desk
  obtain ⟨holder, holds, stage⟩ := ledger.guarded
  rw [holds]
  cases stage <;> rfl

theorem Ledger.shared_of_free (ledger : Ledger candidates history desk)
    (free : desk.locked = false) : desk.shared = .holding history.getLast? := by
  obtain ⟨s, locked, offers, calls⟩ := desk
  obtain ⟨holder, holds, stage⟩ := ledger.guarded
  cases stage with
  | free => rfl
  | _ => cases free

/-- The calls back are those of some records in a row. -/
theorem Ledger.exists_calls (ledger : Ledger candidates history desk) :
    ∃ told, minima told = told ∧ desk.calls = told.map call := by
  obtain ⟨s, locked, offers, calls⟩ := desk
  obtain ⟨holder, holds, stage⟩ := ledger.guarded
  cases stage with
  | told best lt => exact ⟨history ++ [best], minima_append_of_lt ledger.records lt, rfl⟩
  | _ => exact ⟨history, ledger.records, rfl⟩

theorem Ledger.pairwise_calls (ledger : Ledger candidates history desk) :
    desk.calls.Pairwise fun earlier later => later.1.score < earlier.1.score := by
  obtain ⟨told, records, calls_eq⟩ := ledger.exists_calls
  rw [calls_eq, List.pairwise_map, ← records]
  exact pairwise_minima told

theorem Ledger.own_score (ledger : Ledger candidates history desk) :
    ∀ seen ∈ desk.calls, seen.2 = seen.1.score := by
  obtain ⟨told, _, calls_eq⟩ := ledger.exists_calls
  simp [calls_eq, call]

/-- A refused offer was beaten before it returned. -/
theorem Ledger.beaten_of_refused (ledger : Ledger candidates history desk)
    (step : Step desk desk') (offers_eq : desk.offers = before ++ ⟨best, phase⟩ :: after)
    (returned : desk'.offers = before ++ ⟨best, .returned false⟩ :: after) :
    Beaten desk.offers best.score := by
  obtain ⟨_, ledger'⟩ := ledger.step step
  have beaten := ledger'.refused ⟨best, .returned false⟩ (by simp [returned]) rfl
  rw [returned] at beaten
  rw [offers_eq]
  exact beaten.advance nofun

/-! ## Offers come to an end -/

/-- How many steps an offer takes from here on, at most. -/
def stepsLeft : Phase → Nat
  | .fresh => 6
  | .passed => 5
  | .holding => 4
  | .published => 3
  | .told => 2
  | .recorded => 1
  | .returned _ => 0

theorem Move.stepsLeft_lt (move : Move best (s, locked, calls, phase) (s', locked', calls', phase')) :
    stepsLeft phase' < stepsLeft phase := by
  cases move <;> decide

def left (desk : Desk) : Nat :=
  (desk.offers.map fun offer => stepsLeft offer.phase).sum

theorem Step.left_lt (step : Step desk desk') : desk'.left < desk.left := by
  cases step with
  | move before after best move =>
    have falls := move.stepsLeft_lt
    simp only [left, List.map_append, List.map_cons, List.sum_append, List.sum_cons]
    omega

/-- The holder of the lock can go on, and if nobody holds it any offer can. -/
theorem Ledger.exists_step (ledger : Ledger candidates history desk) (unfinished : ¬ desk.Done) :
    ∃ desk', Step desk desk' := by
  obtain ⟨s, locked, offers, calls⟩ := desk
  obtain ⟨holder, holds, stage⟩ := ledger.guarded
  -- whoever holds the lock can go on; if nobody does, an offer that has not returned can
  cases stage with
  | free =>
    simp only [Done, not_forall, not_exists] at unfinished
    obtain ⟨⟨best, phase⟩, member, ongoing⟩ := unfinished
    have idle : phase.locks ≠ true := List.filter_eq_nil_iff.mp holds _ member
    obtain ⟨before, after, rfl⟩ := List.append_of_mem member
    cases phase with
    | fresh =>
      by_cases high : bar history.getLast? ≤ best.score
      · exact ⟨_, .move before after best (.giveUp _ _ _ high)⟩
      · exact ⟨_, .move before after best (.pass _ _ _ (Nat.not_le.mp high))⟩
    | passed => exact ⟨_, .move before after best (.lock _ _)⟩
    | returned installed => exact absurd rfl (ongoing installed)
    | _ => exact absurd rfl idle
  | holding best =>
    obtain ⟨before, after, rfl⟩ := List.append_of_mem (mem_of_holds holds)
    by_cases late : (Shared.holding history.getLast?).recordScore ≤ best.score
    · exact ⟨_, .move before after best (.reject _ _ late)⟩
    · exact ⟨_, .move before after best (.publish _ _ (Nat.not_le.mp late))⟩
  | published best =>
    obtain ⟨before, after, rfl⟩ := List.append_of_mem (mem_of_holds holds)
    exact ⟨_, .move before after best (.tell _ _)⟩
  | told best =>
    obtain ⟨before, after, rfl⟩ := List.append_of_mem (mem_of_holds holds)
    exact ⟨_, .move before after best (.commit _ _)⟩
  | recorded best =>
    obtain ⟨before, after, rfl⟩ := List.append_of_mem (mem_of_holds holds)
    exact ⟨_, .move before after best (.unlock _ _)⟩

theorem Ledger.exists_done (ledger : Ledger candidates history desk) :
    ∃ desk', Steps desk desk' ∧ desk'.Done := by
  induction steps : desk.left using Nat.strongRecOn generalizing desk history with
  | ind _ ih =>
    by_cases complete : desk.Done
    · exact ⟨desk, .refl desk, complete⟩
    · obtain ⟨next, step⟩ := ledger.exists_step complete
      obtain ⟨history', ledger'⟩ := ledger.step step
      obtain ⟨last, rest, done⟩ := ih next.left (steps ▸ step.left_lt) ledger' rfl
      exact ⟨last, .step step rest, done⟩

/-! ## The end -/

theorem Ledger.free_of_done (ledger : Ledger candidates history desk) (done : desk.Done) :
    desk.locked = false := by
  have nobody : desk.offers.filter (·.phase.locks) = [] := by
    refine List.filter_eq_nil_iff.mpr fun offer member => ?_
    obtain ⟨installed, returned⟩ := done offer member
    simp [returned, Phase.locks]
  have length_eq := ledger.length_locks
  rw [nobody] at length_eq
  cases locked : desk.locked with
  | false => rfl
  | true => simp [locked] at length_eq

/-- Once every offer has returned, the record is no worse than any of them. -/
theorem Ledger.bar_le (ledger : Ledger candidates history desk) (done : desk.Done) :
    ∀ candidate ∈ candidates, bar history.getLast? ≤ candidate.score := by
  have least := bar_minima_le history
  rw [ledger.records] at least
  have installed_le {offer : Offer} (member : offer ∈ desk.offers)
      (settled : offer.phase.settled) : bar history.getLast? ≤ offer.candidate.score :=
    least.2 _ (ledger.perm.mem_iff.mp
      (List.mem_map_of_mem (List.mem_filter.mpr ⟨member, settled⟩)))
  intro candidate offered
  rw [← ledger.same] at offered
  obtain ⟨offer, member, rfl⟩ := List.mem_map.mp offered
  obtain ⟨installed, returned⟩ := done offer member
  cases installed with
  | true => exact installed_le member (by rw [returned]; rfl)
  | false =>
    rcases ledger.refused offer member returned with none_below | ⟨other, inside, stored, le⟩
    · exact least.1.trans none_below
    · -- what was stored has returned by now, so it was installed
      obtain ⟨installed, returned⟩ := done other inside
      rw [returned] at stored
      exact (installed_le inside (by rw [returned]; exact stored)).trans le

/-- The record is one of the offers that were installed. -/
theorem Ledger.record_of_done (ledger : Ledger candidates history desk) (done : desk.Done)
    (recorded : desk.shared.record = some best) :
    ⟨best, .returned true⟩ ∈ desk.offers ∧ best.score < noCeiling := by
  rw [ledger.shared_of_free (ledger.free_of_done done), Shared.record_holding] at recorded
  have member := List.mem_of_getLast? recorded
  refine ⟨?_, score_lt_of_mem_minima (ledger.records.symm ▸ member)⟩
  obtain ⟨⟨_, phase⟩, settled, rfl⟩ := List.mem_map.mp (ledger.perm.mem_iff.mpr member)
  obtain ⟨inside, settled⟩ := List.mem_filter.mp settled
  obtain ⟨installed, rfl⟩ := done _ inside
  obtain rfl : installed = true := settled
  exact inside

theorem Ledger.score_record (ledger : Ledger candidates history desk) (done : desk.Done) :
    desk.shared.record.map Best.score
      = ((candidates.map Best.score).filter (· < noCeiling)).min? := by
  have record_eq : desk.shared.record = history.getLast? := by
    rw [ledger.shared_of_free (ledger.free_of_done done), Shared.record_holding]
  have least := ledger.bar_le done
  cases recorded : desk.shared.record with
  | none =>
    rw [← record_eq, recorded] at least
    have nothing : (candidates.map Best.score).filter (· < noCeiling) = [] := by
      simpa [List.filter_eq_nil_iff, bar] using least
    rw [nothing]
    rfl
  | some best =>
    rw [← record_eq, recorded] at least
    obtain ⟨member, lt⟩ := ledger.record_of_done done recorded
    have offered : best ∈ candidates := ledger.same ▸ List.mem_map_of_mem member
    refine (List.min?_eq_some_iff.mpr ⟨?_, ?_⟩).symm
    · exact List.mem_filter.mpr ⟨List.mem_map_of_mem offered, by simpa using lt⟩
    · intro score inside
      obtain ⟨other, member, rfl⟩ := List.mem_map.mp (List.mem_of_mem_filter inside)
      exact least other member

/-- The calls back are for the offers that were installed. -/
theorem Ledger.perm_calls (ledger : Ledger candidates history desk) (done : desk.Done) :
    (desk.calls.map Prod.fst).Perm
      ((desk.offers.filter fun offer => offer.phase = .returned true).map Offer.candidate) := by
  have installed : desk.offers.filter (·.phase.settled)
      = desk.offers.filter fun offer => offer.phase = .returned true := by
    refine List.filter_congr fun offer member => ?_
    obtain ⟨installed, returned⟩ := done offer member
    cases installed <;> simp [returned, Phase.settled]
  have calls_eq : desk.calls.map Prod.fst = history := by
    have free := ledger.free_of_done done
    obtain ⟨s, locked, offers, calls⟩ := desk
    obtain ⟨holder, holds, stage⟩ := ledger.guarded
    cases stage with
    | free => simp [call, Function.comp_def]
    | _ => cases free
  rw [calls_eq, ← installed]
  exact ledger.perm.symm

/-! ## Any interleaving -/

/-- Whatever the order of the steps: one offer at a time holds the lock, the ceiling only
    falls and agrees with the record while the lock is free, calls back come with falling
    scores and see their own, and who is refused was beaten before.  Offers can always be
    brought to their end, and there the record is the cheapest of them. -/
theorem offers_of_interleaving (candidates : List Best) (desk : Desk)
    (run : Steps (start candidates) desk) :
    (desk.offers.map Offer.candidate = candidates ∧
        (desk.offers.filter (·.phase.locks)).length = desk.locked.toNat) ∧
      (∀ desk', Steps desk desk' → desk'.shared.ceiling ≤ desk.shared.ceiling) ∧
      (desk.locked = false → desk.shared.ceiling = desk.shared.recordScore) ∧
      (desk.calls.Pairwise fun earlier later => later.1.score < earlier.1.score) ∧
      (∀ seen ∈ desk.calls, seen.2 = seen.1.score) ∧
      (∀ before after best phase desk', desk.offers = before ++ ⟨best, phase⟩ :: after →
        Step desk desk' → desk'.offers = before ++ ⟨best, .returned false⟩ :: after →
        noCeiling ≤ best.score ∨
          ∃ other ∈ desk.offers, other.phase.stored ∧ other.candidate.score ≤ best.score) ∧
      (∃ desk', Steps desk desk' ∧ desk'.Done) ∧
      (desk.Done →
        desk.shared.record.map Best.score
            = ((candidates.map Best.score).filter (· < noCeiling)).min? ∧
          (∀ best, desk.shared.record = some best → ⟨best, .returned true⟩ ∈ desk.offers) ∧
          (desk.calls.map Prod.fst).Perm
            ((desk.offers.filter fun offer => offer.phase = .returned true).map
              Offer.candidate)) := by
  obtain ⟨history, ledger⟩ := (Ledger.start candidates).steps run
  refine ⟨⟨ledger.same, ledger.length_locks⟩, fun _ steps => ledger.ceiling_steps_le steps,
    fun free => ?_, ledger.pairwise_calls, ledger.own_score, ?_, ledger.exists_done,
    fun done => ⟨ledger.score_record done, ?_, ledger.perm_calls done⟩⟩
  · rw [ledger.shared_of_free free, Shared.recordScore_holding, Shared.ceiling_holding]
  · intro before after best phase desk' offers_eq step returned
    exact ledger.beaten_of_refused step offers_eq returned
  · intro best recorded
    exact (ledger.record_of_done done recorded).1

/-- Three offers look at the ceiling before any of them takes the lock; the second one is
    installed over the first, and the third comes too late. -/
theorem stale_steps (first second third : Best) (falls : second.score < first.score)
    (late : second.score ≤ third.score) (low : first.score < noCeiling)
    (low' : third.score < noCeiling) :
    Steps (start [first, second, third])
      ⟨.holding (some second), false,
        [⟨first, .returned true⟩, ⟨second, .returned true⟩, ⟨third, .returned false⟩],
        [(first, first.score), (second, second.score)]⟩ := by
  have looked : Steps (start [first, second, third])
      ⟨{}, false, [⟨first, .passed⟩, ⟨second, .passed⟩, ⟨third, .passed⟩], []⟩ :=
    .step (.move [] _ first (.pass _ _ _ low))
      (.step (.move [⟨first, .passed⟩] _ second (.pass _ _ _ (falls.trans low)))
        (.step (.move [⟨first, .passed⟩, ⟨second, .passed⟩] [] third (.pass _ _ _ low'))
          (.refl _)))
  have installed := install_steps {} first [] [⟨second, .passed⟩, ⟨third, .passed⟩] [] low
  have replaced := install_steps (.holding (some first)) second [⟨first, .returned true⟩]
    [⟨third, .passed⟩] [(first, first.score)] falls
  have rejected := reject_steps (.holding (some second)) third
    [⟨first, .returned true⟩, ⟨second, .returned true⟩] []
    [(first, first.score), (second, second.score)] late
  exact looked.trans (installed.trans (replaced.trans rejected))

theorem offers_of_interleaving_stale :
    ∃ desk : Desk,
      Steps (start [⟨5, [3, 5], [1]⟩, ⟨4, [3, 7], [1]⟩, ⟨7, [5, 7], [2]⟩]) desk ∧
        desk.Done ∧ desk.shared.record = some ⟨4, [3, 7], [1]⟩ ∧
        desk.shared.record.map Best.score = [5, 4, 7].min? ∧
        desk.calls = [(⟨5, [3, 5], [1]⟩, 5), (⟨4, [3, 7], [1]⟩, 4)] := by
  have run := stale_steps ⟨5, [3, 5], [1]⟩ ⟨4, [3, 7], [1]⟩ ⟨7, [5, 7], [2]⟩ (by decide)
    (by decide) (by decide) (by decide)
  have done : Done ⟨.holding (some ⟨4, [3, 7], [1]⟩), false,
      [⟨⟨5, [3, 5], [1]⟩, .returned true⟩, ⟨⟨4, [3, 7], [1]⟩, .returned true⟩,
        ⟨⟨7, [5, 7], [2]⟩, .returned false⟩],
      [(⟨5, [3, 5], [1]⟩, 5), (⟨4, [3, 7], [1]⟩, 4)]⟩ := by
    simp [Done]
  obtain ⟨_, _, _, _, _, _, _, last⟩ := offers_of_interleaving _ _ run
  exact ⟨_, run, done, rfl, (last done).1, rfl⟩

end Desk

end PirTuning.Search
