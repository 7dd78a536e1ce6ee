/-
The files of a generator.

Whatever fails, the files that a generator has created are those on its
list, with one exception: a file whose writing failed.  That one is removed
at once (`RunGenerator.Leaves`), and then the generator is given up, which
removes the others.
-/
import ExternalSort.Proofs.Store.Custody
import ExternalSort.Run.Generator

namespace ExternalSort.RunGenerator

variable {O α W : Type} [ItemOrder O α] [SpillStore W]

/-- The files of a generator. -/
def owned (b : RunGenerator O α) : List Path := b.files.map SpillFile.path

/-- How taking items in leaves the files: if it fails, some that were created
are removed already. -/
def Leaves (w : W) (ps : List Path) (r : Except Failure Unit) (b : RunGenerator O α) (w' : W) :
    Prop :=
  match r with
  | .ok () => Works w ps w' b.owned
  | .error _ => ∃ w₁ qs, Works w ps w₁ (b.owned ++ qs) ∧ w' = SpillStore.removeAll w₁ qs

variable {w w₁ w' : W} {ps ps₁ : List Path} {b : RunGenerator O α} {e : Failure}

omit [ItemOrder O α] in
theorem Leaves.of_works {r : Except Failure Unit} (hb : b.owned = ps₁) (h : Works w ps w' ps₁) :
    Leaves w ps r b w' := by
  subst hb
  cases r with
  | ok u => exact h
  | error e => exact ⟨w', [], by simpa using h, rfl⟩

omit [ItemOrder O α] in
theorem Leaves.after {r : Except Failure Unit} (k : Leaves w₁ ps₁ r b w')
    (h : Works w ps w₁ ps₁) : Leaves w ps r b w' := by
  cases r with
  | ok u => exact h.trans k
  | error e =>
      obtain ⟨w₂, qs, hw, rfl⟩ := k
      exact ⟨w₂, qs, h.trans hw, rfl⟩

omit [ItemOrder O α] in
theorem Leaves.discard (h : Leaves w ps (.error e) b w') : Released w ps (b.discard w') := by
  obtain ⟨w₁, qs, hw, rfl⟩ := h
  refine ⟨w₁, b.owned ++ qs, qs ++ b.owned, hw, List.perm_append_comm, ?_⟩
  rw [SpillStore.removeAll_append]
  rfl

/-! ## Spilling -/

theorem createFile_works (s : Settings) (tag : UInt32) (n seq : Nat) (w : W) (ps : List Path) :
    match createFile s tag seq w n with
    | (.error _, _, w') => Works w ps w' ps
    | (.ok (_, path, sink), _, w') =>
      ∃ w₁, Works w ps w₁ ps ∧ SpillStore.create w₁ path = (.ok sink, w') := by
  induction n generalizing seq w with
  | zero => exact .refl w ps
  | succ n ih =>
      rw [createFile]
      cases hc : SpillStore.create w (s.spillPath tag seq) with
      | mk r w₁ =>
          cases r with
          | ok sink => exact ⟨w, .refl w ps, hc⟩
          | error f =>
              dsimp only
              have hw : Works w ps w₁ ps := .refused hc (.refl w₁ ps)
              by_cases hf : f.kind = .alreadyExists
              · rw [if_pos hf]
                have ih := ih (seq + 1) w₁
                split at ih
                · exact hw.trans ih
                · obtain ⟨w₂, hw₂, hc₂⟩ := ih
                  exact ⟨w₂, hw.trans hw₂, hc₂⟩
              · rw [if_neg hf]
                exact hw

omit [ItemOrder O α] in
/-- A file that was written is on the list, and one that was not is removed. -/
theorem writeFile_leaves (b : RunGenerator O α) {path : Path} {sink : Sink}
    (hc : SpillStore.create w path = (.ok sink, w₁)) (seq : Nat) :
    Leaves w b.owned (b.writeFile w₁ seq path sink).1 (b.writeFile w₁ seq path sink).2.1
      (b.writeFile w₁ seq path sink).2.2 := by
  rw [writeFile]
  cases hr : Run.write b.codec sink b.buffer.toList with
  | mk r written =>
      have hw : Works w b.owned (SpillStore.keep w₁ path written) (b.owned ++ [path]) :=
        .created written hc (.refl _ _)
      cases r with
      | error e => exact ⟨_, [path], hw, rfl⟩
      | ok n =>
          show Works w b.owned _ ((b.files ++ [_]).map SpillFile.path)
          rw [List.map_append]
          exact hw

theorem spill_leaves (b : RunGenerator O α) (w : W) :
    Leaves w b.owned (b.spill w).1 (b.spill w).2.1 (b.spill w).2.2 := by
  rw [spill]
  cases sortWith (ItemOrder.compare b.order) b.buffer.toList with
  | error e => exact .of_works rfl (.refl w b.owned)
  | ok sorted =>
      have hcf := createFile_works b.settings b.tag nameAttempts b.nextSeq w b.owned
      dsimp only
      revert hcf
      cases createFile b.settings b.tag b.nextSeq w nameAttempts with
      | mk r rest =>
          obtain ⟨next, w₁⟩ := rest
          cases r with
          | error f =>
              intro hw
              exact .of_works rfl hw
          | ok created =>
              obtain ⟨seq, path, sink⟩ := created
              rintro ⟨w₂, hw, hc⟩
              exact (writeFile_leaves { b with buffer := sorted.toArray, nextSeq := next } hc
                seq).after hw

/-! ## Taking items in -/

theorem add_leaves (b : RunGenerator O α) (w : W) (a : α) :
    Leaves w b.owned (b.add w a).1 (b.add w a).2.1 (b.add w a).2.2 := by
  rw [add]
  cases ItemOrder.accept b.order a with
  | error e => exact .of_works rfl (.refl w b.owned)
  | ok o =>
      dsimp only
      split
      · exact spill_leaves _ w
      · exact .of_works rfl (.refl w b.owned)

theorem addAll_leaves (b : RunGenerator O α) (w : W) (as : List α) :
    Leaves w b.owned (b.addAll w as).1 (b.addAll w as).2.1 (b.addAll w as).2.2 := by
  induction as generalizing b w with
  | nil => exact .of_works rfl (.refl w b.owned)
  | cons a as ih =>
      have ha := add_leaves b w a
      rw [addAll]
      revert ha
      cases b.add w a with
      | mk r rest =>
          obtain ⟨b', w'⟩ := rest
          cases r with
          | error e =>
              intro h
              exact h
          | ok u =>
              intro h
              exact (ih b' w').after h

/-! ## Closing -/

omit [ItemOrder O α] in
theorem paths_fileRuns (b : RunGenerator O α) : Run.paths b.fileRuns = b.owned := by
  rw [Run.paths, fileRuns, List.filterMap_map]
  show List.filterMap (some ∘ SpillFile.path) b.files = b.owned
  rw [List.filterMap_eq_map]
  rfl

/-- A generator hands its files over with the runs, or leaves none behind. -/
theorem close_leaves (b : RunGenerator O α) (w : W) :
    match b.close w with
    | (.error _, w') => Released w b.owned w'
    | (.ok runs, w') => Works w b.owned w' (Run.paths runs) := by
  rw [close]
  by_cases hnone : b.files.isEmpty = true
  · have howned : b.owned = [] := by
      rw [owned, List.isEmpty_iff.mp hnone]
      rfl
    rw [if_pos hnone]
    cases sortWith (ItemOrder.compare b.order) b.buffer.toList with
    | error e => exact Released.of_files w b.owned
    | ok sorted =>
        rw [howned]
        exact .refl w []
  rw [if_neg hnone]
  by_cases hempty : b.buffer.isEmpty = true
  · rw [if_pos hempty]
    show Works w b.owned w (Run.paths b.fileRuns)
    rw [paths_fileRuns]
    exact .refl w b.owned
  · rw [if_neg hempty]
    have hs := spill_leaves b w
    revert hs
    cases b.spill w with
    | mk r rest =>
        obtain ⟨b', w'⟩ := rest
        cases r with
        | error e =>
            intro h
            exact h.discard
        | ok u =>
            intro h
            show Works w b.owned w' (Run.paths b'.fileRuns)
            rw [paths_fileRuns]
            exact h

end ExternalSort.RunGenerator
