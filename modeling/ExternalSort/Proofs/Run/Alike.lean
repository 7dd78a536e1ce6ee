/-
A generator over stores that answer alike.

It does the same over both, and as long as it does not fail it has removed
nothing, so the stores are alike after it as well.
-/
import ExternalSort.Proofs.Store.Alike
import ExternalSort.Run.Generator

namespace ExternalSort.RunGenerator

variable {O α W : Type} [ItemOrder O α] [SpillStore W] {A : Alike W} {w w' : W}

/-- The same has come of taking items in, over two stores that are still
alike if it has not failed. -/
structure Agree (A : Alike W) (x y : Except Failure Unit × RunGenerator O α × W) : Prop where
  result : x.1 = y.1
  generator : x.2.1 = y.2.1
  store : x.1 = .ok () → A.rel x.2.2 y.2.2

omit [ItemOrder O α] in
theorem Agree.of_rel (h : A.rel w w') (r : Except Failure Unit) (b : RunGenerator O α) :
    Agree A (r, b, w) (r, b, w') :=
  ⟨rfl, rfl, fun _ => h⟩

theorem createFile_alike (s : Settings) (tag : UInt32) (n seq : Nat) (h : A.rel w w') :
    (createFile s tag seq w n).1 = (createFile s tag seq w' n).1 ∧
      (createFile s tag seq w n).2.1 = (createFile s tag seq w' n).2.1 ∧
        A.rel (createFile s tag seq w n).2.2 (createFile s tag seq w' n).2.2 := by
  induction n generalizing seq w w' with
  | zero => exact ⟨rfl, rfl, h⟩
  | succ n ih =>
      have hc := A.create (s.spillPath tag seq) h
      rw [createFile, createFile]
      revert hc
      cases SpillStore.create w (s.spillPath tag seq) with
      | mk r w₁ =>
          cases SpillStore.create w' (s.spillPath tag seq) with
          | mk r' w₁' =>
              rintro ⟨hr, hw⟩
              obtain rfl : r = r' := hr
              cases r with
              | ok sink => exact ⟨rfl, rfl, hw⟩
              | error f =>
                  dsimp only
                  by_cases hf : f.kind = .alreadyExists
                  · rw [if_pos hf, if_pos hf]
                    exact ih (seq + 1) hw
                  · rw [if_neg hf, if_neg hf]
                    exact ⟨rfl, rfl, hw⟩

omit [ItemOrder O α] in
theorem writeFile_alike (b : RunGenerator O α) (h : A.rel w w') (seq : Nat) (path : Path)
    (sink : Sink) : Agree A (b.writeFile w seq path sink) (b.writeFile w' seq path sink) := by
  rw [writeFile, writeFile]
  cases Run.write b.codec sink b.buffer.toList with
  | mk r written =>
      cases r with
      | error e => exact ⟨rfl, rfl, fun he => absurd he (by simp)⟩
      | ok n => exact ⟨rfl, rfl, fun _ => A.keep path written h⟩

theorem spill_alike (b : RunGenerator O α) (h : A.rel w w') :
    Agree A (b.spill w) (b.spill w') := by
  rw [spill, spill]
  cases sortWith (ItemOrder.compare b.order) b.buffer.toList with
  | error e => exact .of_rel h _ _
  | ok sorted =>
      have hc := createFile_alike b.settings b.tag nameAttempts b.nextSeq h
      dsimp only
      revert hc
      cases createFile b.settings b.tag b.nextSeq w nameAttempts with
      | mk r rest =>
          cases createFile b.settings b.tag b.nextSeq w' nameAttempts with
          | mk r' rest' =>
              obtain ⟨next, w₁⟩ := rest
              obtain ⟨next', w₁'⟩ := rest'
              rintro ⟨hr, hn, hw⟩
              obtain rfl : r = r' := hr
              obtain rfl : next = next' := hn
              cases r with
              | error f => exact .of_rel hw _ _
              | ok created => exact writeFile_alike _ hw created.1 created.2.1 created.2.2

theorem add_alike (b : RunGenerator O α) (h : A.rel w w') (a : α) :
    Agree A (b.add w a) (b.add w' a) := by
  rw [add, add]
  cases ItemOrder.accept b.order a with
  | error e => exact .of_rel h _ _
  | ok o =>
      dsimp only
      split
      · exact spill_alike _ h
      · exact .of_rel h _ _

theorem addAll_alike (b : RunGenerator O α) (h : A.rel w w') (as : List α) :
    Agree A (b.addAll w as) (b.addAll w' as) := by
  induction as generalizing b w w' with
  | nil => exact .of_rel h _ _
  | cons a as ih =>
      have ha := add_alike b h a
      rw [addAll, addAll]
      revert ha
      cases b.add w a with
      | mk r rest =>
          cases b.add w' a with
          | mk r' rest' =>
              obtain ⟨b₁, w₁⟩ := rest
              obtain ⟨b₁', w₁'⟩ := rest'
              rintro ⟨hr, hb, hw⟩
              obtain rfl : r = r' := hr
              obtain rfl : b₁ = b₁' := hb
              cases r with
              | error e => exact ⟨rfl, rfl, fun he => absurd he (by simp)⟩
              | ok u => exact ih b₁ (hw rfl)

theorem close_alike (b : RunGenerator O α) (h : A.rel w w') :
    (b.close w).1 = (b.close w').1 ∧
      ∀ runs, (b.close w).1 = .ok runs → A.rel (b.close w).2 (b.close w').2 := by
  rw [close, close]
  by_cases hnone : b.files.isEmpty = true
  · rw [if_pos hnone, if_pos hnone]
    cases sortWith (ItemOrder.compare b.order) b.buffer.toList with
    | error e => exact ⟨rfl, fun runs hr => absurd hr (by simp)⟩
    | ok sorted => exact ⟨rfl, fun _ _ => h⟩
  rw [if_neg hnone, if_neg hnone]
  by_cases hempty : b.buffer.isEmpty = true
  · rw [if_pos hempty, if_pos hempty]
    exact ⟨rfl, fun _ _ => h⟩
  rw [if_neg hempty, if_neg hempty]
  have hs := spill_alike b h
  revert hs
  cases b.spill w with
  | mk r rest =>
      cases b.spill w' with
      | mk r' rest' =>
          obtain ⟨b₁, w₁⟩ := rest
          obtain ⟨b₁', w₁'⟩ := rest'
          rintro ⟨hr, hb, hw⟩
          obtain rfl : r = r' := hr
          obtain rfl : b₁ = b₁' := hb
          cases r with
          | error e => exact ⟨rfl, fun runs hr => absurd hr (by simp)⟩
          | ok u => exact ⟨rfl, fun _ _ => hw rfl⟩

end ExternalSort.RunGenerator
