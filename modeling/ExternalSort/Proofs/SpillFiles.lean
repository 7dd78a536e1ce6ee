/-
The spill files of a sort.

Over a store whose faults are planned, the ledger says what a sort has done
to the files, and `Sorter.Custody` that the sort keeps to it.  Whatever
fails and whatever is done with the sort, no other files are touched, and
none of its own outlives it.
-/
import ExternalSort.Proofs.EndsOnce
import ExternalSort.Proofs.Sorter.Alike
import ExternalSort.Proofs.Sorter.Custody
import ExternalSort.Proofs.Store.Ledger

namespace ExternalSort

namespace Sorter

variable {S O α : Type} [FiniteProducer S α] [ItemOrder O α]

/-- The files of a sort that started in the store `w`, after what was done
with it. -/
structure Tidy (w : PlannedStore) (t : Sorter S O α × PlannedStore)
    (hs : List (Heard PlannedStore α)) : Prop where
  /-- What the sort has created is what it owns. -/
  accounted : Accounted w t.1.owned t.2
  /-- If it is given up now, nothing of it stays. -/
  discarded : Accounted w [] (t.1.discard t.2)
  /-- A sort that is over owns nothing. -/
  finished : t.1.phase = .ended ∨ t.1.phase = .failed ∨ t.1.phase = .closed → t.1.owned = []
  /-- When an ending was heard, the store was already as it is now. -/
  before : ∀ h ∈ hs, h.event.ending? ≠ none → h.store = t.2 ∧ t.1.owned = []

variable {s : Sorter S O α}

omit [FiniteProducer S α] [ItemOrder O α] in
theorem owned_of_over (h : InStep s)
    (hp : s.phase = .ended ∨ s.phase = .failed ∨ s.phase = .closed) : s.owned = [] := by
  cases hst : s.stage with
  | collecting heard b o => simp [phase, hst] at hp
  | merging m =>
      have hm : m.InStep := by simpa [InStep, hst] using h
      have hf : m.phase.isFinal = true := by
        rw [phase, hst] at hp
        revert hp
        dsimp only
        cases m.phase with
        | idle => simp
        | waiting => simp
        | sending => simp
        | ended =>
            intro _
            rfl
        | errored =>
            intro _
            rfl
      rw [owned, hst]
      exact (hm.released hf).2.2
  | failed o =>
      rw [owned, hst]
  | closed d =>
      rw [owned, hst]

omit [ItemOrder O α] in
theorem start_ledger {w w₁ : PlannedStore} {settings : Settings} {codec : Codec α} {order : O}
    {tag : UInt32} {input : S} (h : start w settings codec order tag input = (.ok s, w₁)) :
    Ledger w [] [] w₁ := by
  obtain ⟨-, hens, -⟩ := start_ok.mp h
  obtain ⟨b, rfl⟩ := PlannedStore.ensureDirectory_eq hens
  exact (Ledger.refl w).record (by simp) (by simp) _

omit [FiniteProducer S α] [ItemOrder O α] in
theorem Custody.tidy {w w₁ : PlannedStore} {t : Sorter S O α × PlannedStore}
    {hs : List (Heard PlannedStore α)} (hw : Ledger w [] [] w₁) (h : Custody w₁ t hs) :
    Tidy w t hs where
  accounted := by
    cases h.2 with
    | goesOn hk => exact (hw.works hk).accounted
    | finished hr _ hp =>
        rw [hp]
        obtain ⟨gone, hg⟩ := hw.released hr
        exact hg.accounted
  discarded := by
    obtain ⟨gone, hg⟩ := hw.released h.released
    exact hg.accounted
  finished := owned_of_over h.1
  before := by
    intro k hk hne
    cases h.2 with
    | goesOn _ _ hu => exact absurd (hu k hk) hne
    | finished _ _ hp hu => exact ⟨hu k hk hne, hp⟩

end Sorter

/-- Whatever is done with a sort, and whatever fails: its files are those it
owns, each was created once and is removed once when the sort is over, before
that is heard, or given up; and no other file is touched.  If removing files
fails, the sort does the same and the same is heard. -/
theorem spill_files_tidy {S O α : Type} [FiniteProducer S α] [ItemOrder O α] (settings : Settings)
    (codec : Codec α) (order : O) (tag : UInt32) (input : S) (s : Sorter S O α)
    (w w₁ : PlannedStore)
    (hstart : Sorter.start w settings codec order tag input = (.ok s, w₁)) :
    (∀ acts : List (Sorter.Action α),
      Sorter.Tidy w (actAll Sorter.act (s, w₁) acts).1 (actAll Sorter.act (s, w₁) acts).2) ∧
    ∀ removeFault : Nat → Option Fault, ∃ w₂ : PlannedStore,
      Sorter.start (w.withRemoveFault removeFault) settings codec order tag input = (.ok s, w₂) ∧
      ∀ acts : List (Sorter.Action α),
        Heard.events (actAll Sorter.act (s, w₂) acts).2 =
          Heard.events (actAll Sorter.act (s, w₁) acts).2 ∧
        (actAll Sorter.act (s, w₂) acts).1.1 = (actAll Sorter.act (s, w₁) acts).1.1 := by
  refine ⟨?_, ?_⟩
  · intro acts
    exact ((Sorter.start_custody hstart).actAll acts).tidy (Sorter.start_ledger hstart)
  · intro removeFault
    have hrel : PlannedStore.alike.rel w (w.withRemoveFault removeFault) := ⟨removeFault, rfl⟩
    obtain ⟨w₂, hstart₂, hsame⟩ := Sorter.start_same hrel hstart
    refine ⟨w₂, hstart₂, ?_⟩
    intro acts
    obtain ⟨-, hs, hes, -⟩ := hsame.actAll acts
    exact ⟨hes.symm, hs.symm⟩

/-- The first file cannot be created, and no file can be removed. -/
def brokenPlan : StorePlan where
  createFault n := if n = 0 then some ⟨.alreadyExists, "exists"⟩ else none
  removeFault _ := some ⟨.permissionDenied, "denied"⟩

theorem spill_files_tidy_of_bytes :
    ∃ (s : Sorter (ListStream UInt8) (PlainOrder UInt8) UInt8) (w₁ : PlannedStore),
      Sorter.start { plan := brokenPlan } { Settings.standard ⟨"runs"⟩ with threshold := 2 }
        byteCodec (PlainOrder.natural UInt8) 7 (.ofList [3, 1, 2]) = (.ok s, w₁) ∧
      ∀ acts : List (Sorter.Action UInt8),
        Sorter.Tidy { plan := brokenPlan } (actAll Sorter.act (s, w₁) acts).1
          (actAll Sorter.act (s, w₁) acts).2 := by
  refine ⟨_, _, rfl, ?_⟩
  exact (spill_files_tidy { Settings.standard ⟨"runs"⟩ with threshold := 2 } byteCodec
    (PlainOrder.natural UInt8) 7 (ListStream.ofList [3, 1, 2]) _ { plan := brokenPlan } _ rfl).1

end ExternalSort
