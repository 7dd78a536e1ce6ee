/-
A sort that never waits.

If neither the input nor any file ever says that it is not ready, there is
only one reason for a sort to stop: nothing may be sent.  The files of such a
store never make their readers wait, whatever is done with the store
(`SpillStore.Prompt`), so the intakes of the merge do not either.
-/
import ExternalSort.Proofs.Sorter.Custody
import ExternalSort.Proofs.Sorter.Progress

namespace ExternalSort

open DiligentProducer (refusals)

/-! ## Stores -/

section Stores

variable {W : Type} [SpillStore W]

/-- A store that gets into the states `P` stays there, and then its files never
make their readers wait. -/
structure SpillStore.Prompt (P : W → Prop) : Prop where
  create : ∀ {w : W} (p : Path), P w → P (create w p).2
  keep : ∀ {w : W} (p : Path) (sink : Sink), P w → P (keep w p sink)
  openFile : ∀ {w : W} (p : Path), P w → P (openFile w p).2
  remove : ∀ {w : W} (p : Path), P w → P (remove w p).2
  ensureDirectory : ∀ {w : W} (p : Path), P w → P (ensureDirectory w p).2
  source : ∀ {w : W} {p : Path} {source : Source}, P w →
    (SpillStore.openFile w p).1 = .ok source → source.refusals = 0

theorem PlannedStore.prompt :
    SpillStore.Prompt fun w : PlannedStore => ∀ n bs, (w.plan.source n bs).refusals = 0 where
  create {w} p h := by
    show ∀ n bs, ((PlannedStore.create w p).2.plan.source n bs).refusals = 0
    rw [PlannedStore.create]
    split
    · exact h
    · split <;> exact h
  keep _ _ h := h
  openFile {w} p h := by
    show ∀ n bs, ((PlannedStore.openFile w p).2.plan.source n bs).refusals = 0
    rw [PlannedStore.openFile]
    split
    · exact h
    · split <;> exact h
  remove {w} p h := by
    show ∀ n bs, ((PlannedStore.remove w p).2.plan.source n bs).refusals = 0
    rw [PlannedStore.remove]
    split
    · exact h
    · split <;> exact h
  ensureDirectory {w} p h := by
    show ∀ n bs, ((PlannedStore.ensureDirectory w p).2.plan.source n bs).refusals = 0
    rw [PlannedStore.ensureDirectory]
    split <;> exact h
  source {w p source} h ho := by
    have ho : (PlannedStore.openFile w p).1 = .ok source := ho
    rw [PlannedStore.openFile] at ho
    split at ho
    · exact absurd ho (by simp)
    · split at ho
      · exact absurd ho (by simp)
      · obtain rfl := Except.ok.inj ho
        exact h _ _

variable {P : W → Prop} (hP : SpillStore.Prompt P) {w w' : W} {ps ps' : List Path}
include hP

theorem Works.prompt (h : Works w ps w' ps') (hw : P w) : P w' := by
  induction h with
  | refl => exact hw
  | @refused w w₁ _ _ _ p f hc _ ih => exact ih (by simpa [hc] using hP.create p hw)
  | @created w w₁ _ _ _ p sink written hc _ ih =>
      exact ih (hP.keep p written (by simpa [hc] using hP.create p hw))
  | @opened w w₁ _ _ _ p r ho _ ih => exact ih (by simpa [ho] using hP.openFile p hw)

theorem SpillStore.Prompt.removeAll (hw : P w) : P (SpillStore.removeAll w ps) := by
  induction ps generalizing w with
  | nil => exact hw
  | cons p ps ih =>
      have hr := hP.remove p hw
      rw [← tryRemove_snd] at hr
      exact ih hr

theorem Fate.prompt {α : Type} {hs : List (Heard W α)} {o : Supply α}
    (h : Fate w ps hs o w' ps') (hw : P w) : P w' := by
  cases h with
  | goesOn h => exact h.prompt hP hw
  | finished h =>
      obtain ⟨w₁, ps₁, qs, h, -, rfl⟩ := h
      exact hP.removeAll (h.prompt hP hw)

end Stores

/-! ## Merges -/

namespace Merge

variable {O α W : Type} [ItemOrder O α] [SpillStore W] {m : Merge O α} {w : W}

/-- A merge no intake of which will ever wait. -/
def Prompt (m : Merge O α) : Prop := ∀ s ∈ m.intakes, refusals s.stream = 0

theorem kept_prompt : Kept fun _ (s : Intake (RunStream α) α) => refusals s.stream = 0 where
  refill {n s} hs := Nat.le_zero.mp (hs ▸ refusals_refill n s)
  takeFirst {_ s t a} ht hs := by
    obtain ⟨rest, -, rfl⟩ := Intake.takeFirst_eq_some.mp ht
    exact hs

omit [ItemOrder O α] [SpillStore W] in
theorem Prompt.not_refused (h : m.Prompt) : ¬m.IsRefused := by
  rintro ⟨-, ready, ss, -, s, hs, hlt⟩
  rw [h s (mem_of_mem_retire hs)] at hlt
  exact absurd hlt (Nat.not_lt_zero _)

section Drives

variable {P : W → Prop} (hP : SpillStore.Prompt P) (hw : P w)
include hP hw

omit [ItemOrder O α] in
theorem openRuns_prompt {decode : List UInt8 → Except Cause α} {chunk : Nat} {runs : List (Run α)}
    {ss : List (Intake (RunStream α) α)} (h : (openRuns decode chunk w runs).1 = .ok ss) :
    ∀ s ∈ ss, refusals s.stream = 0 := by
  induction runs generalizing w ss with
  | nil =>
      obtain rfl := Except.ok.inj h
      exact fun _ hs => absurd hs List.not_mem_nil
  | cons run runs ih =>
      have hcons : ∀ {w' : W} (stream : RunStream α), P w' → refusals stream = 0 →
          (openRuns decode chunk w' runs).1.map (Intake.ofStream stream :: ·) = .ok ss →
            ∀ s ∈ ss, refusals s.stream = 0 := by
        intro w' stream hw' hz hm
        cases hr : (openRuns decode chunk w' runs).1 with
        | error e => exact absurd (hr ▸ hm) (by simp [Except.map])
        | ok ts =>
            rw [hr] at hm
            obtain rfl := Except.ok.inj hm
            refine List.forall_mem_cons.mpr ⟨?_, ih hw' hr⟩
            exact (DiligentProducer.refusals_withSupply stream _).trans hz
      cases run with
      | memory items => exact hcons (.memory (.ofList items)) hw rfl h
      | file f =>
          have hsource : ∀ source, (SpillStore.openFile w f.path).1 = .ok source →
              source.refusals = 0 := fun _ ho => hP.source hw ho
          have hnext := hP.openFile f.path hw
          rw [openRuns] at h
          revert h hsource hnext
          cases SpillStore.openFile w f.path with
          | mk r w' =>
              intro h hsource hnext
              cases r with
              | error e => exact absurd h (by simp)
              | ok source =>
                  exact hcons (.file (.ofSource source decode chunk)) hnext (hsource source rfl) h

variable (h : m.Prompt)
include h

omit [ItemOrder O α] in
theorem Prompt.enters : m.Enters (fun _ s => refusals s.stream = 0) w :=
  ⟨h, fun _ => openRuns_prompt hP hw⟩

theorem Prompt.takesTurn {u : Merge O α × W} (hu : m.TakesTurn w u) : u.1.Prompt :=
  ((h.enters hP hw).takesTurn kept_prompt hu).2

theorem Prompt.drive (hm : m.InStep) : (m.drive w).1.1.Prompt :=
  ((h.enters hP hw).drive kept_prompt hm).2

end Drives

end Merge

/-! ## Sorts -/

namespace Sorter

variable {S O α W : Type} [FiniteProducer S α] [ItemOrder O α] [SpillStore W]

omit [FiniteProducer S α] in
theorem beginMerge_input (s : Sorter S O α) (w : W) (b : RunGenerator O α) (o : Supply α) :
    (s.beginMerge w b o).state.1.input = s.input := by
  rw [beginMerge]
  split <;> rfl

omit [FiniteProducer S α] in
theorem takeIn_input (s : Sorter S O α) (w : W) (b : RunGenerator O α) (o : Supply α)
    (es : List (Event α)) : (s.takeIn w b o es).state.1.input = s.input := by
  rw [takeIn]
  split
  · rfl
  · split
    · rfl
    · exact beginMerge_input _ _ _ _
    · rfl

variable [DiligentProducer S α]

theorem refusals_turn (t : Sorter S O α × W) :
    refusals (turn t).state.1.input ≤ refusals t.1.input := by
  obtain ⟨s, w⟩ := t
  rw [turn]
  dsimp only
  split
  · split
    · exact Nat.le_refl _
    split
    · exact Nat.le_refl _
    · exact Nat.le_of_eq (congrArg refusals (beginMerge_input s w _ _))
    · refine Nat.le_trans (Nat.le_of_eq (congrArg refusals (takeIn_input _ w _ _ _))) ?_
      refine Nat.le_trans (DiligentProducer.refusals_drive s.askInput) ?_
      exact Nat.le_of_eq refusals_askInput
  all_goals exact Nat.le_refl _

/-- A sort that will never wait for anything, over a store in one of the
states `P`. -/
structure Prompt (P : W → Prop) (t : Sorter S O α × W) : Prop where
  store : P t.2
  input : refusals t.1.input = 0
  intakes : ∀ m, t.1.stage = .merging m → m.Prompt

variable {P : W → Prop} (hP : SpillStore.Prompt P) {t : Sorter S O α × W}

section Withheld

omit [ItemOrder O α] [SpillStore W]

theorem Prompt.withSupply {s : Sorter S O α} {w : W} (h : Prompt P (s, w)) (o : Supply α) :
    Prompt P (s.withSupply o, w) := by
  obtain ⟨settings, codec, input, stage, itemsRead, files, runs⟩ := s
  cases stage with
  | collecting heard b p => exact ⟨h.store, h.input, fun _ hs => absurd hs (by simp [Sorter.withSupply])⟩
  | merging m =>
      refine ⟨h.store, h.input, ?_⟩
      intro n hn
      obtain rfl := SorterStage.merging.inj hn
      exact h.intakes m rfl
  | failed p => exact ⟨h.store, h.input, fun _ hs => absurd hs (by simp [Sorter.withSupply])⟩
  | closed d => exact ⟨h.store, h.input, fun _ hs => absurd hs (by simp [Sorter.withSupply])⟩

end Withheld

include hP

omit [DiligentProducer S α] in
theorem Begins.prompt {m : Merge O α} {w : W} (h : Begins t m w) (hw : P t.2) :
    m.Prompt ∧ P w := by
  cases h with
  | @heard s b o runs w w' _ _ hclose =>
      have hc := b.close_leaves w
      rw [hclose] at hc
      exact ⟨fun _ hs => absurd hs List.not_mem_nil, hc.prompt hP hw⟩
  | @read s b b' o runs w w' w'' _ _ _ hadd hclose =>
      have ha := b.addAll_leaves w (Event.items (Producer.drive s.askInput).2)
      rw [hadd] at ha
      have hc := b'.close_leaves w'
      rw [hclose] at hc
      exact ⟨fun _ hs => absurd hs List.not_mem_nil, hc.prompt hP (ha.prompt hP hw)⟩

theorem Prompt.turn (h : Prompt P t) : Prompt P (Sorter.turn t).state where
  store := by
    cases ho : t.1.supply.isOpen with
    | true => exact (turn_fate t ho).prompt hP h.store
    | false =>
        rw [turn_of_not_canSend t (Supply.canSend_of_not_open ho)]
        exact h.store
  input := Nat.le_zero.mp (h.input ▸ refusals_turn t)
  intakes := by
    obtain ⟨⟨settings, codec, input, stage, itemsRead, files, runs⟩, w⟩ := t
    cases stage with
    | collecting heard b o =>
        let s : Sorter S O α := ⟨settings, codec, input, .collecting heard b o, itemsRead, files, runs⟩
        have ht : Turns (s, w) (Sorter.turn (s, w)) := turn_turns rfl w
        show ∀ m, (Sorter.turn (s, w)).state.1.stage = .merging m → m.Prompt
        generalize Sorter.turn (s, w) = v at ht
        cases ht with
        | unasked => exact h.intakes
        | fails s' w' e => exact fun _ hm => absurd hm (by simp [fail])
        | begins input' itemsRead' files' runs' hb =>
            intro n hn
            obtain rfl := SorterStage.merging.inj hn
            obtain ⟨hm, hw'⟩ := hb.prompt hP h.store
            exact hm.drive hP hw' hb.attentive.2
        | goesOn n hst hc he => exact fun _ hm => absurd hm (by simp)
    | merging m => exact h.intakes
    | failed o => exact h.intakes
    | closed d => exact h.intakes

theorem Prompt.not_refused (h : Prompt P t) : ¬IsRefused t := by
  rintro (hlt | ⟨v, ⟨m, w, hm, hv⟩, hr⟩)
  · rw [h.input] at hlt
    exact absurd hlt (Nat.not_lt_zero _)
  · have hmw : m.Prompt ∧ P w := by
      cases hm with
      | merging hst => exact ⟨h.intakes m hst, h.store⟩
      | begun hu hb =>
          have hu := hu.keeps (P := Prompt P) (fun _ hs _ => hs.turn hP) h
          exact hb.prompt hP hu.store
    exact (hmw.1.takesTurn hP hmw.2 hv).not_refused hr

theorem Prompt.drive_stops (h : Prompt P t) (ha : t.1.AtWork) :
    (t.1.drive t.2).1.1.supply.canSend = false :=
  (drive_progress ha.attentive ha.inStep).2.resolve_right (h.not_refused hP)

theorem Prompt.drive (h : Prompt P t) (ha : t.1.AtWork) : Prompt P (t.1.drive t.2).1 := by
  obtain ⟨s, w⟩ := t
  cases hst : s.stage with
  | collecting heard b o =>
      obtain ⟨u, hu, -, he⟩ : ∃ u, Turn.Takes Sorter.turn (s, w) u ∧ (Sorter.turn u).again = false ∧
          (s.readInput w).1 = (Sorter.turn u).state := Turn.iterate_takes (s, w)
      have hu : Prompt P u := hu.keeps (P := Prompt P) (fun _ hs _ => hs.turn hP) h
      rw [Sorter.drive, hst]
      dsimp only
      rw [he]
      exact hu.turn hP
  | merging m =>
      have hm : m.InStep := by simpa [InStep, hst] using ha.inStep
      refine ⟨?_, ?_, ?_⟩
      · cases ho : s.supply.isOpen with
        | true => exact (drive_fate ha.inStep ho).prompt hP h.store
        | false =>
            rw [drive_of_not_open ha.inStep ho]
            exact h.store
      · rw [Sorter.drive, hst]
        exact h.input
      · rw [Sorter.drive, hst]
        intro n hn
        obtain rfl := SorterStage.merging.inj hn
        exact (h.intakes m hst).drive hP h.store hm
  | failed o =>
      rw [Sorter.drive, hst]
      exact h
  | closed d =>
      rw [Sorter.drive, hst]
      exact h

omit [ItemOrder O α] in
theorem start_prompt {w w' : W} {settings : Settings} {codec : Codec α} {order : O} {tag : UInt32}
    {input : S} {s : Sorter S O α} (hw : P w) (hi : refusals input = 0)
    (h : start w settings codec order tag input = (.ok s, w')) : Prompt P (s, w') := by
  obtain ⟨-, hens, rfl⟩ := start_ok.mp h
  refine ⟨?_, ?_, fun _ hs => absurd hs (by simp)⟩
  · have hd := hP.ensureDirectory settings.directory hw
    rwa [hens] at hd
  · exact (DiligentProducer.refusals_withSupply input _).trans hi

end Sorter

end ExternalSort
