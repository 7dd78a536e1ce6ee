/-
A sort never stalls.

A drive of a sort reads its input batch by batch, and each turn that leads to
another has read something; then it drives the merge, each turn of which that
leads to another has handed an item over.  When it comes back, the sort has
ended, or nothing more is asked for, or some source was not ready in the
meantime (`drive_progress`): of a batch that brought nothing, and of an intake
that holds nothing, the source was not ready, because something was asked of
it.
-/
import ExternalSort.Proofs.EndsOnce
import ExternalSort.Proofs.Merge.Progress
import ExternalSort.Proofs.Sorter.Actions

namespace ExternalSort

/-- Somebody who is subscribed has heard of the ending, if there was one. -/
def Supply.Attended {α : Type} (o : Supply α) : Prop :=
  o.subscriber.isSome → o.status = .open ∨ ∃ e, o.status = .over e

namespace Supply.Attended

variable {α : Type} {o o' : Supply α} {es : List (Event α)}

theorem subscribe (h : o.Attended) (k : Subscriber α) : (o.subscribe k).1.Attended := by
  intro hs
  rw [Supply.subscribe] at hs ⊢
  split at hs
  · next ho => exact .inl ho
  · next e _ => exact .inr ⟨e, rfl⟩
  · next e ho => exact .inr ⟨e, ho⟩
  · exact h hs

theorem steps (h : o.Attended) (k : Steps o es o') : o'.Attended := by
  intro hs
  rw [k.subscriber_eq] at hs
  rcases h hs with ho | ⟨e, ho⟩
  · rcases k.of_open ho with ⟨as, -, hst⟩ | ⟨as, e, -, hst⟩
    · exact .inl hst
    · exact .inr ⟨e, by rw [hst, raisedTo, if_pos hs]⟩
  · obtain ⟨-, rfl⟩ := k.of_not_open (by simp [isOpen, ho])
    exact .inr ⟨e, ho⟩

end Supply.Attended

namespace Sorter

open DiligentProducer (refusals)

variable {S O α W : Type} [FiniteProducer S α] [ItemOrder O α] [SpillStore W]

/-! ## Turns -/

/-- `Begins t m w`: in its turn the sort `t` comes to the end of its input, and
drives the merge `m` over the store `w`. -/
inductive Begins : Sorter S O α × W → Merge O α → W → Prop
  | heard {s : Sorter S O α} {b : RunGenerator O α} {o : Supply α} {runs : List (Run α)}
      {w w' : W} : s.stage = .collecting (some .ended) b o → o.canSend = true →
      b.close w = (.ok runs, w') → Begins (s, w) (s.mergeOf b o runs) w'
  | read {s : Sorter S O α} {b b' : RunGenerator O α} {o : Supply α} {runs : List (Run α)}
      {w w' w'' : W} : s.stage = .collecting none b o → o.canSend = true →
      Event.endingOf (Producer.drive s.askInput).2 = some .ended →
      b.addAll w (Event.items (Producer.drive s.askInput).2) = (.ok (), b', w') →
      b'.close w' = (.ok runs, w'') → Begins (s, w) (s.mergeOf b' o runs) w''

/-- How a turn of a sort that reads its input can go. -/
inductive Turns (t : Sorter S O α × W) : Turn (Sorter S O α × W) (Heard W α) → Prop
  | unasked : t.1.supply.canSend = false → Turns t (.rest t)
  | fails (s : Sorter S O α) (w : W) (e : Failure) : Turns t (s.fail w t.1.supply e)
  | begins {m : Merge O α} {w : W} (input : S) (itemsRead files runs : Nat) : Begins t m w →
      Turns t
        { state :=
            ({ t.1 with input, stage := .merging (m.drive w).1.1, itemsRead, files, runs },
              (m.drive w).1.2)
          events := (m.drive w).2 }
  | goesOn {b b' : RunGenerator O α} {o : Supply α} {w : W} (itemsRead : Nat) :
      t.1.stage = .collecting none b o → o.canSend = true →
      Event.endingOf (Producer.drive t.1.askInput).2 = none →
      Turns t
        { state :=
            ({ t.1 with
                input := (Producer.drive t.1.askInput).1
                stage := .collecting none b' o
                itemsRead }, w)
          again := !(Event.items (Producer.drive t.1.askInput).2).isEmpty }

theorem turn_turns {s : Sorter S O α} {heard : Option Ending} {b : RunGenerator O α} {o : Supply α}
    (hs : s.stage = .collecting heard b o) (w : W) : Turns (s, w) (turn (s, w)) := by
  have ho : s.supply = o := by rw [supply, hs]
  rw [turn]
  simp only [hs]
  split
  · next hc => exact .unasked (by simpa [ho] using hc)
  next hc =>
    have hc : o.canSend = true := by simpa using hc
    subst ho
    split
    · exact .fails _ _ _
    · rw [beginMerge]
      split
      · exact .fails _ _ _
      · next runs w' hr => exact .begins _ _ _ _ (.heard hs hc hr)
    · rw [readBatch]
      dsimp only
      rw [takeIn]
      split
      · exact .fails _ _ _
      · next b' w' hadd =>
        split
        · exact .fails _ _ _
        · next hend =>
          rw [beginMerge]
          split
          · exact .fails _ _ _
          · next runs w'' hr => exact .begins _ _ _ _ (.read hs hc hend hadd hr)
        · next hend => exact .goesOn _ hs hc hend

variable [DiligentProducer S α]

/-! ## What is read from -/

/-- An input that goes on, of which everything is heard. -/
structure Hears (input : S) : Prop where
  ongoing : (Producer.supply input).status = .open
  subscriber : (Producer.supply input).subscriber = some {}

/-- A sort that has something to wait for if it waits. -/
def Attentive (s : Sorter S O α) : Prop :=
  match s.stage with
  | .collecting heard _ _ => heard = none ∧ Hears s.input
  | .merging m => m.Attentive
  | .failed _ => True
  | .closed _ => False

section AskInput

variable {s : Sorter S O α} (h : Hears s.input)
include h

omit [ItemOrder O α] in
theorem Hears.askInput : (Producer.supply s.askInput).status = .open ∧
    (Producer.supply s.askInput).subscriber = some {} ∧
      (Producer.demand s.askInput).isPositive = true := by
  rw [Sorter.askInput]
  split
  · next hd => exact ⟨h.ongoing, h.subscriber, hd⟩
  · have hs := OrderlyProducer.supply_changeDemand s.input (.request batchSize)
    refine ⟨(congrArg Supply.status hs).trans h.ongoing,
      (congrArg Supply.subscriber hs).trans h.subscriber, ?_⟩
    show (Producer.supply (Producer.changeDemand _ _)).demand.isPositive = true
    rw [hs]
    exact Intake.isPositive_grant (by decide)

omit [ItemOrder O α] h in
theorem refusals_askInput : refusals s.askInput = refusals s.input := by
  rw [Sorter.askInput]
  split
  · rfl
  · exact DiligentProducer.refusals_withSupply s.input _

omit [ItemOrder O α] in
theorem Hears.drive (he : Event.endingOf (Producer.drive s.askInput).2 = none) :
    Hears (Producer.drive s.askInput).1 := by
  obtain ⟨ho, hs, -⟩ := h.askInput
  have hsteps := OrderlyProducer.drive_steps s.askInput
  exact ⟨hsteps.open_of_silent ho hs he, hsteps.subscriber_eq.trans hs⟩

omit [ItemOrder O α] in
theorem Hears.refused (hi : Event.items (Producer.drive s.askInput).2 = [])
    (he : Event.endingOf (Producer.drive s.askInput).2 = none) :
    refusals (Producer.drive s.askInput).1 < refusals s.input := by
  obtain ⟨ho, hs, hpos⟩ := h.askInput
  have hlt := DiligentProducer.drive_silent ho hs hpos hi he
  rwa [refusals_askInput] at hlt

end AskInput

omit [FiniteProducer S α] [ItemOrder O α] [SpillStore W] [DiligentProducer S α] in
theorem mergeOf_attentive (s : Sorter S O α) (b : RunGenerator O α) (o : Supply α)
    (runs : List (Run α)) : (s.mergeOf b o runs).Attentive where
  ahead_pos := Nat.lt_of_lt_of_le Nat.zero_lt_one (Nat.le_max_right _ _)
  engaged _ hs := absurd hs List.not_mem_nil

omit [DiligentProducer S α] in
theorem Begins.attentive {t : Sorter S O α × W} {m : Merge O α} {w : W} (h : Begins t m w) :
    m.Attentive ∧ m.InStep := by
  have hstep : ∀ {s : Sorter S O α} {b : RunGenerator O α} {o : Supply α} {runs : List (Run α)},
      o.canSend = true → (s.mergeOf b o runs).InStep := fun hc =>
    Merge.inStep_of_open rfl (Supply.isOpen_iff.mpr (Supply.canSend_iff.mp hc).1)
  cases h with
  | heard _ hc => exact ⟨mergeOf_attentive _ _ _ _, hstep hc⟩
  | read _ hc => exact ⟨mergeOf_attentive _ _ _ _, hstep hc⟩

/-! ## Drives -/

/-- A drive of the sort `t` drives the merge `m` over the store `w`. -/
inductive Merges (t : Sorter S O α × W) : Merge O α → W → Prop
  | merging {m : Merge O α} : t.1.stage = .merging m → Merges t m t.2
  | begun {u : Sorter S O α × W} {m : Merge O α} {w : W} : Turn.Takes turn t u → Begins u m w →
      Merges t m w

/-- A drive of the sort `t` takes the turn `v` of its merge. -/
def TakesMergeTurn (t : Sorter S O α × W) (v : Merge O α × W) : Prop :=
  ∃ m w, Merges t m w ∧ m.TakesTurn w v

/-- In a drive of the sort the source of its input or of an intake is not
ready. -/
def IsRefused (t : Sorter S O α × W) : Prop :=
  refusals (t.1.drive t.2).1.1.input < refusals t.1.input ∨
    ∃ v, TakesMergeTurn t v ∧ v.1.IsRefused

/-- The turns in which a sort goes on reading its input. -/
structure Reads (t u : Sorter S O α × W) : Prop where
  stage : ∃ b o, u.1.stage = .collecting none b o
  hears : Hears u.1.input
  refusals_le : refusals u.1.input ≤ refusals t.1.input

variable {t u : Sorter S O α × W}

theorem Reads.next (h : Reads t u) (ha : (turn u).again = true) : Reads t (turn u).state := by
  obtain ⟨s, w⟩ := u
  obtain ⟨b, o, hst⟩ := h.stage
  have ht := turn_turns hst w
  generalize turn (s, w) = v at ha ht ⊢
  cases ht with
  | unasked => exact absurd ha (by simp)
  | fails => exact absurd ha (by simp [fail])
  | begins => exact absurd ha (by simp)
  | goesOn n hst' hc he =>
      refine ⟨⟨_, _, rfl⟩, h.hears.drive he, ?_⟩
      refine Nat.le_trans (DiligentProducer.refusals_drive _) ?_
      rw [refusals_askInput]
      exact h.refusals_le

/-- The last turn of a sort that reads its input. -/
theorem Reads.last (h : Reads t u) (hu : Turn.Takes turn t u) (hl : (turn u).again = false)
    (hd : (t.1.drive t.2).1 = (turn u).state) :
    (turn u).state.1.Attentive ∧
      ((turn u).state.1.supply.canSend = false ∨ IsRefused t) := by
  obtain ⟨s, w⟩ := u
  obtain ⟨b, o, hst⟩ := h.stage
  have ht := turn_turns hst w
  rw [IsRefused, hd]
  generalize turn (s, w) = v at hl ht ⊢
  cases ht with
  | unasked hc =>
      have hatt : s.Attentive := by
        rw [Attentive, hst]
        exact ⟨rfl, h.hears⟩
      exact ⟨hatt, .inl hc⟩
  | fails s' w' e => exact ⟨trivial, .inl (Supply.canSend_finish _ _)⟩
  | @begins m w' input n files runs hb =>
      obtain ⟨hatt, hstep⟩ := hb.attentive
      obtain ⟨hatt, hp⟩ := hatt.drive_progress (w := w') hstep
      refine ⟨hatt, hp.imp_right ?_⟩
      rintro ⟨v, hv, hr⟩
      exact .inr ⟨v, ⟨_, _, .begun hu hb, hv⟩, hr⟩
  | goesOn n hst' hc he =>
      have hlt := h.hears.refused (by simpa using hl) he
      exact ⟨⟨rfl, h.hears.drive he⟩, .inr (.inl (Nat.lt_of_lt_of_le hlt h.refusals_le))⟩

/-- After a drive nothing can be sent, or a source was not ready. -/
theorem drive_progress (h : t.1.Attentive) (hi : InStep t.1) :
    (t.1.drive t.2).1.1.Attentive ∧
      ((t.1.drive t.2).1.1.supply.canSend = false ∨ IsRefused t) := by
  obtain ⟨⟨settings, codec, input, stage, itemsRead, files, runs⟩, w⟩ := t
  cases stage with
  | collecting heard b o =>
      obtain ⟨rfl, hh⟩ := h
      let t : Sorter S O α × W :=
        (⟨settings, codec, input, .collecting none b o, itemsRead, files, runs⟩, w)
      obtain ⟨u, hu, hl, he⟩ : ∃ u, Turn.Takes turn t u ∧ (turn u).again = false ∧
          (t.1.readInput t.2).1 = (turn u).state := Turn.iterate_takes t
      have hr : Reads t u := hu.keeps (P := Reads t) (fun _ hr ha => hr.next ha)
        ⟨⟨b, o, rfl⟩, hh, Nat.le_refl _⟩
      have hd : (t.1.drive t.2).1 = (turn u).state := he
      have hlast := hr.last hu hl hd
      rw [← hd] at hlast
      exact hlast
  | merging m =>
      have hm : m.Attentive := h
      obtain ⟨hatt, hp⟩ := hm.drive_progress (w := w) hi
      refine ⟨hatt, hp.imp_right ?_⟩
      rintro ⟨v, hv, hr⟩
      exact .inr ⟨v, ⟨m, w, .merging rfl, hv⟩, hr⟩
  | failed o =>
      have ho : o.isOpen = false := hi
      exact ⟨trivial, .inl (Supply.canSend_of_not_open ho)⟩
  | closed d => exact h.elim

omit [DiligentProducer S α] in
theorem Merges.attentive {m : Merge O α} {w : W} (k : Merges t m w) (h : t.1.Attentive) :
    m.Attentive := by
  cases k with
  | merging hs =>
      rw [Attentive, hs] at h
      exact h
  | begun _ hb => exact hb.attentive.1

/-! ## All that can be done with a sort -/

/-- A sort that has been started and has not been closed. -/
structure AtWork (s : Sorter S O α) : Prop where
  inStep : InStep s
  attentive : s.Attentive
  attended : s.supply.Attended

omit [ItemOrder O α] [DiligentProducer S α] [SpillStore W] in
theorem supply_withSupply {s : Sorter S O α} (h : s.Attentive) (o : Supply α) :
    (s.withSupply o).supply = o ∧ (s.withSupply o).Attentive := by
  obtain ⟨settings, codec, input, stage, itemsRead, files, runs⟩ := s
  cases stage with
  | collecting heard b p => exact ⟨rfl, h⟩
  | merging m => exact ⟨rfl, ⟨h.ahead_pos, h.engaged⟩⟩
  | failed p => exact ⟨rfl, trivial⟩
  | closed d => exact h.elim

omit [ItemOrder O α] [DiligentProducer S α] [SpillStore W] in
theorem AtWork.withSupply {s : Sorter S O α} (h : s.AtWork) {o : Supply α}
    (ho : o.isOpen = s.supply.isOpen) (ha : o.Attended) : (s.withSupply o).AtWork := by
  obtain ⟨hs, hatt⟩ := supply_withSupply h.attentive o
  exact ⟨withSupply_inStep h.inStep ho, hatt, by rwa [hs]⟩

theorem AtWork.drive {s : Sorter S O α} (h : s.AtWork) (w : W) : (s.drive w).1.1.AtWork where
  inStep := drive_inStep h.inStep
  attentive := (drive_progress (t := (s, w)) h.attentive h.inStep).1
  attended := h.attended.steps (drive_steps s w)

omit [ItemOrder O α] [DiligentProducer S α] in
theorem start_atWork [OrderlyProducer S α] {w w' : W} {settings : Settings} {codec : Codec α}
    {order : O} {tag : UInt32} {input : S} {s : Sorter S O α}
    (ho : (Producer.supply input).status = .open)
    (h : start w settings codec order tag input = (.ok s, w')) : s.AtWork := by
  obtain ⟨-, -, rfl⟩ := start_ok.mp h
  have hs := OrderlyProducer.supply_subscribe input ({} : Subscriber α)
  obtain ⟨hsub, hst, hes⟩ := Supply.subscribe_of_open ho ({} : Subscriber α)
  have hend : Event.endingOf (Producer.subscribe input ({} : Subscriber α)).2 = none := by
    show Event.endingOf ((Producer.supply input).subscribe {}).2 = none
    rw [hes]
    rfl
  exact
    { inStep := rfl
      attentive := ⟨hend, (congrArg Supply.status hs).trans hst,
        (congrArg Supply.subscriber hs).trans hsub⟩
      attended := fun hs => absurd hs (by simp [supply]) }

/-- Whatever consumers do, a sort that is not closed is at work. -/
theorem performAll_atWork {t : Sorter S O α × W} (h : t.1.AtWork) (cs : List (Command α)) :
    (Command.performAll t cs).1.1.AtWork := by
  refine Command.performAll_induction (P := fun (t : Sorter S O α × W) _ => t.1.AtWork) ?_ ?_ ?_ h cs
  · rintro ⟨s, w⟩ k - hs
    exact hs.withSupply (Supply.isOpen_subscribe _ k) (hs.attended.subscribe k)
  · rintro ⟨s, w⟩ d - hs
    exact hs.withSupply rfl hs.attended
  · rintro ⟨s, w⟩ - hs
    exact hs.drive w

omit [DiligentProducer S α] in
theorem readInput_runs (s : Sorter S O α) (w : W) :
    ∃ n ≤ FiniteProducer.bound s.input + 1,
      Turn.Runs turn n (s, w) (s.readInput w).1 (s.readInput w).2 :=
  @Turn.iterate_runs _ _ turn (fun t => FiniteProducer.bound t.1.input) turn_shrinks (s, w)

end Sorter

end ExternalSort
