/-
A merge over stores that answer alike.

Its turns do not look at the store at all, and drives only when the runs are
opened.  So it does the same over both stores.
-/
import ExternalSort.Proofs.Merge.Steps
import ExternalSort.Proofs.Store.Alike

namespace ExternalSort.Merge

variable {O α W : Type} [ItemOrder O α] [SpillStore W] {A : Alike W} {m : Merge O α} {w w' : W}

omit [ItemOrder O α] in
theorem conclude_twins (A : Alike W) (m : Merge O α) (w w' : W) (phase : MergePhase) (e : Ending) :
    A.TurnTwins Merge.supply (m.conclude w phase e) (m.conclude w' phase e) :=
  ⟨rfl, .of_over rfl (m.supply.finish_isOpen e)⟩

theorem turn_twins (m : Merge O α) (h : A.rel w w') :
    A.TurnTwins Merge.supply (turn (m, w)) (turn (m, w')) := by
  obtain ⟨d, -, ht⟩ := turn_decides (W := W) m
  rw [ht w, ht w']
  cases d with
  | rest m => exact ⟨rfl, .of_rel h⟩
  | conclude m phase e => exact conclude_twins A m w w' phase e
  | send m a =>
      refine ⟨rfl, rfl, ?_, fun _ => h⟩
      rw [Decision.carryOut, Decision.carryOut, Heard.events_ofEvents, Heard.events_ofEvents]

theorem run_twins (m : Merge O α) (h : A.rel w w') :
    A.Twins Merge.supply (m.run w) (m.run w') :=
  Turn.iterate_twins (fun m _ _ h => turn_twins m h) turn_again h

theorem openRuns_alike (decode : List UInt8 → Except Cause α) (chunk : Nat) (h : A.rel w w')
    (runs : List (Run α)) :
    (openRuns decode chunk w runs).1 = (openRuns decode chunk w' runs).1 ∧
      A.rel (openRuns decode chunk w runs).2 (openRuns decode chunk w' runs).2 := by
  induction runs generalizing w w' with
  | nil => exact ⟨rfl, h⟩
  | cons run runs ih =>
      cases run with
      | memory items =>
          obtain ⟨hr, hw⟩ := ih h
          exact ⟨congrArg (Except.map _) hr, hw⟩
      | file f =>
          have ho := A.openFile f.path h
          rw [openRuns, openRuns]
          revert ho
          cases SpillStore.openFile w f.path with
          | mk r w₁ =>
              cases SpillStore.openFile w' f.path with
              | mk r' w₁' =>
                  rintro ⟨hr, hw⟩
                  obtain rfl : r = r' := hr
                  cases r with
                  | error e => exact ⟨rfl, hw⟩
                  | ok source =>
                      obtain ⟨hr, hw⟩ := ih hw
                      exact ⟨congrArg (Except.map _) hr, hw⟩

theorem drive_twins (m : Merge O α) (h : A.rel w w') :
    A.Twins Merge.supply (m.drive w) (m.drive w') := by
  cases hf : m.phase.isFinal with
  | true =>
      rw [drive_of_final hf, drive_of_final hf]
      exact .of_rel h
  | false =>
      by_cases hi : m.phase = .idle
      · have ho := openRuns_alike m.decode m.chunk h m.runs
        rw [drive_of_idle hi, drive_of_idle hi]
        revert ho
        cases openRuns m.decode m.chunk w m.runs with
        | mk r w₁ =>
            cases openRuns m.decode m.chunk w' m.runs with
            | mk r' w₁' =>
                rintro ⟨hr, hw⟩
                obtain rfl : r = r' := hr
                cases r with
                | error f => exact (conclude_twins A m w₁ w₁' _ _).twins
                | ok intakes => exact run_twins _ hw
      · rw [drive_of_working hf hi, drive_of_working hf hi]
        exact run_twins m h

end ExternalSort.Merge
