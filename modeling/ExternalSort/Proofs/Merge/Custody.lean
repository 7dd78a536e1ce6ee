/-
The files of a merge.

A merge has the files of its runs from the start.  It only reads them, until
it ends in one way or another; then it removes them all, and only after that
its ending is heard.
-/
import ExternalSort.Proofs.Merge.Steps
import ExternalSort.Proofs.Store.Custody

namespace ExternalSort.Merge

variable {O α W : Type} [ItemOrder O α] [SpillStore W]

/-- What becomes of the files of a merge in one turn. -/
def TurnFate (m : Merge O α) (w : W) (t : Turn (Merge O α × W) (Heard W α)) : Prop :=
  Fate w m.files t.events t.state.1.supply t.state.2 t.state.1.files

variable {m : Merge O α} {w : W}

omit [ItemOrder O α] in
theorem conclude_fate (m : Merge O α) (w : W) (phase : MergePhase) (e : Ending) :
    TurnFate m w (m.conclude w phase e) :=
  .finish (.of_files w m.files) m.supply e

theorem turn_fate (s : Merge O α × W) (ho : s.1.supply.isOpen = true) :
    TurnFate s.1 s.2 (turn s) := by
  obtain ⟨m, w⟩ := s
  obtain ⟨d, hd, ht⟩ := turn_decides (W := W) m
  rw [TurnFate, ht w]
  dsimp only
  cases hd with
  | rest hg =>
      rw [← hg.supply_eq] at ho
      rw [← hg.files_eq]
      exact .rest w _ ho
  | conclude hg =>
      rw [← hg.files_eq]
      exact conclude_fate _ w _ _
  | send hg =>
      rw [← hg.supply_eq] at ho
      rw [← hg.files_eq]
      exact .send (.refl w _) ho _

theorem run_fate (ho : m.supply.isOpen = true) :
    Fate w m.files (m.run w).2 (m.run w).1.1.supply (m.run w).1.2 (m.run w).1.1.files :=
  Turn.iterate_fate turn_fate turn_again (m, w) ho

theorem openRuns_works (decode : List UInt8 → Except Cause α) (chunk : Nat) (w : W)
    (runs : List (Run α)) (ps : List Path) :
    Works w ps (openRuns decode chunk w runs).2 ps := by
  induction runs generalizing w with
  | nil => exact .refl w ps
  | cons run runs ih =>
      cases run with
      | memory items => exact ih w
      | file f =>
          cases ho : SpillStore.openFile w f.path with
          | mk r w' =>
              rw [openRuns, ho]
              cases r with
              | error e => exact .opened ho (.refl w' ps)
              | ok source => exact .opened ho (ih w')

/-- What becomes of the files of a merge when it is driven. -/
theorem drive_fate (h : InStep m) (ho : m.supply.isOpen = true) :
    Fate w m.files (m.drive w).2 (m.drive w).1.1.supply (m.drive w).1.2 (m.drive w).1.1.files := by
  by_cases hi : m.phase = .idle
  · have hw := openRuns_works m.decode m.chunk w m.runs m.files
    rw [drive_of_idle hi]
    revert hw
    cases openRuns m.decode m.chunk w m.runs with
    | mk r w' =>
        intro hw
        have hu : Heard.Unended ([] : List (Heard W α)) := fun _ hm => absurd hm List.not_mem_nil
        cases r with
        | error f => exact (conclude_fate m w' .errored (.failed (.io f))).after hw hu
        | ok ss =>
            have hrun := run_fate (m := { m with runs := [], intakes := m.intakes ++ ss })
              (w := w') ho
            exact hrun.after hw hu
  · rw [drive_of_working (h.working ho) hi]
    exact run_fate ho

end ExternalSort.Merge
