/-
Who drains a sort is handed the rest of it.

What a sort comes to is settled by the course of its input and by its store
(`Outcome`): some step of reading the input fails, or the runs are merged.  Where a
sort is on the way there (`Comes`) does not depend on who is subscribed or on what
was asked for, and the handing over from reading to merging is one of the steps.  A
drive after which something may still be sent has met an input or a file that was
not ready, or has begun to merge (`Comes.drive_remaining`).
-/
import ExternalSort.Proofs.Merge.Draining
import ExternalSort.Proofs.Sorter.Sorts
import ExternalSort.Proofs.Sorter.Verdict

namespace ExternalSort

/-! ## Inputs that were driven before -/

namespace Intake

variable {S α : Type} [FiniteProducer S α] [ForetoldProducer S α] {s : Intake S α}

theorem engaged_subscribe {stream : S} (h : (Producer.supply stream).Unheard) :
    Engaged
      { stream := (Producer.subscribe stream ({} : Subscriber α)).1
        heard := Event.endingOf (Producer.subscribe stream ({} : Subscriber α)).2 } := by
  have hs := OrderlyProducer.supply_subscribe stream ({} : Subscriber α)
  have hes : (Producer.subscribe stream ({} : Subscriber α)).2 =
      ((Producer.supply stream).subscribe {}).2 := rfl
  rw [hes]
  rcases h with ho | ⟨e, hp⟩
  · obtain ⟨hsub, hst, hnone⟩ := Supply.subscribe_of_open ho ({} : Subscriber α)
    rw [hnone]
    exact
      { listening :=
          { subscriber := (congrArg Supply.subscriber hs).trans hsub
            heard := (Supply.ending?_of_open ((congrArg Supply.status hs).trans hst)).symm }
        ongoing := fun _ => (congrArg Supply.status hs).trans hst
        asked := fun hw => absurd hw (by simp) }
  · have hsub : (Producer.supply stream).subscribe {} =
        ({ Producer.supply stream with subscriber := some {}, received := 0, status := .over e },
          [.ending e]) := by
      rw [Supply.subscribe, hp]
      cases e <;> rfl
    rw [hsub] at hs ⊢
    exact
      { listening :=
          { subscriber := congrArg Supply.subscriber hs
            heard := by
              show some e = Supply.ending? (Producer.supply (Producer.subscribe stream {}).1)
              rw [hs]
              rfl }
        ongoing := fun hn => absurd hn (by simp [Event.endingOf, Event.ending?])
        asked := fun hw => absurd hw (by simp) }

end Intake

namespace Sorter

open DiligentProducer (refusals)

open RunGenerator (FailsOn)

variable {S O α W : Type} [ItemOrder O α] [SpillStore W]

/-! ## What a sort comes to -/

/-- What a sort comes to that reads an input with the course `c` into the generator
`b`.  Either the first step that fails ends it before anything is handed over, or
the whole input is in, and the runs are merged over the store that the generator
has left. -/
inductive Outcome (b : RunGenerator O α) (w : W) (c : Course α) (out : List α) : Ending → Prop
  | unmerged {e : Failure} : out = [] → FailsBy b w c.events e → Outcome b w c out (.failed e)
  | merged {b' : RunGenerator O α} {runs : List (Run α)} {w' : W} {phase : MergePhase}
      {e : Ending} : IsIn b w c.events b' runs w' →
      Merge.Outcome b'.order (Merge.courses b.codec.decode w' runs) out phase e →
      Outcome b w c out e

variable [FiniteProducer S α]

/-- The input of a sort as an intake that holds what was taken from it, and has heard
of its ending if the sort has. -/
def hearing (s : Sorter S O α) (taken : List α) (heard : Option Ending) : Intake S α :=
  { stream := s.input, buffer := taken, heard }

section Comes

variable [ForetoldProducer S α] (b : RunGenerator O α) (w : W) (c : Course α)

/-- A sort has taken the first items of its input into its generator. -/
structure Gathering (taken : List α) (heard : Option Ending) (s : Sorter S O α)
    (b' : RunGenerator O α) (o : Supply α) (w' : W) : Prop where
  codec_eq : s.codec = b.codec
  supply_open : o.status = .open
  engaged : (s.hearing taken heard).Engaged
  course : (s.hearing taken heard).course = c
  added : b.addAll w taken = (.ok (), b', w')

/-- Where a sort is when it has handed `out` over. -/
inductive Comes (out : List α) (t : Sorter S O α × W) : Prop
  | gathering {taken : List α} {heard : Option Ending} {b' : RunGenerator O α} {o : Supply α} :
      out = [] → t.1.stage = .collecting heard b' o →
      Gathering b w c taken heard t.1 b' o t.2 → Comes out t
  | failed {o : Supply α} {e : Failure} : out = [] → t.1.stage = .failed o →
      o.ending? = some (.failed e) → FailsBy b w c.events e → Comes out t
  | merging {m : Merge O α} {b' : RunGenerator O α} {runs : List (Run α)} {w' : W} :
      t.1.stage = .merging m → IsIn b w c.events b' runs w' →
      Merge.Tracks b'.order (Merge.courses b.codec.decode w' runs) out m t.2 → m.AtWork →
      Comes out t

end Comes

variable [ForetoldProducer S α] {b b' : RunGenerator O α} {w w' : W} {c : Course α}
  {s : Sorter S O α} {o : Supply α} {t : Sorter S O α × W} {taken out : List α}
  {heard : Option Ending}

theorem Comes.outcome (h : Comes b w c out t) {e : Ending} (he : t.1.supply.ending? = some e) :
    Outcome b w c out e := by
  cases h with
  | gathering _ hst h =>
      rw [supply, hst] at he
      exact absurd he (by simp [Supply.ending?_of_open h.supply_open])
  | failed hout hst hend hf =>
      rw [supply, hst] at he
      obtain rfl := Option.some.inj (hend.symm.trans he)
      exact .unmerged hout hf
  | merging hst hin h =>
      rw [supply, hst] at he
      exact .merged hin (h.outcome he)

/-! ## Turns -/

omit [FiniteProducer S α] [ForetoldProducer S α] in
theorem failsBy_input {e : Failure} (hadd : b.addAll w c.items = (.ok (), b', w'))
    (he : c.ending = .failed e) : FailsBy b w c.events (.ofInput e) := by
  rw [← Course.items_events] at hadd
  exact .input hadd (by rw [Course.endingOf_events, he])

theorem fail_comes (ho : o.status = .open) {e : Failure} (he : FailsBy b w c.events e) :
    Comes b w c (Event.items (Heard.events (s.fail w' o e).events)) (s.fail w' o e).state := by
  refine .failed ?_ rfl (Supply.ending?_finish ho (.failed e)) he
  rw [fail]
  dsimp only
  rw [Heard.events_ofEvents]
  exact Supply.items_fail o e

/-- When the whole input was taken, the generator is closed, and its runs are
merged. -/
theorem beginMerge_comes (hc : s.codec = b.codec) (ho : o.status = .open)
    (hadd : b.addAll w c.items = (.ok (), b', w')) (hend : c.ending = .ended) :
    Comes b w c (Event.items (Heard.events (s.beginMerge w' b' o).events))
      (s.beginMerge w' b' o).state := by
  rw [← Course.items_events] at hadd
  have hended : Event.endingOf c.events = some .ended := by rw [Course.endingOf_events, hend]
  rw [beginMerge]
  split
  · next e w₁ hclose => exact fail_comes ho (.close hadd hended hclose)
  · next runs w₁ hclose =>
    have hfresh : Merge.Fresh b'.order (Merge.courses b.codec.decode w₁ runs)
        (s.mergeOf b' o runs) w₁ :=
      { order_eq := rfl
        supply_open := ho
        idle := rfl
        unopened := rfl
        courses_eq := by rw [← hc]; rfl }
    have hwork : (s.mergeOf b' o runs).AtWork :=
      ⟨Merge.inStep_of_open rfl (Supply.isOpen_iff.mpr ho), mergeOf_attentive s b' o runs⟩
    exact .merging rfl ⟨hended, w', hadd, hclose⟩ (Merge.Tracks.drive (.fresh rfl hfresh))
      (hwork.drive w₁)

theorem Gathering.askInput (h : Gathering b w c taken none s b' o w') :
    Gathering b w c taken none { s with input := s.askInput } b' o w' := by
  rw [Sorter.askInput]
  split
  · exact h
  · have hs := OrderlyProducer.supply_changeDemand s.input (.request batchSize)
    refine ⟨h.codec_eq, h.supply_open, ⟨⟨?_, ?_⟩, ?_, ?_⟩, ?_, h.added⟩
    · exact (congrArg Supply.subscriber hs).trans h.engaged.listening.subscriber
    · exact h.engaged.listening.heard.trans (congrArg Supply.ending? hs).symm
    · exact fun hn => (congrArg Supply.status hs).trans (h.engaged.ongoing hn)
    · exact fun hw => absurd hw (by simp [hearing])
    · rw [← h.course]
      exact congrArg (Course.after taken) (ForetoldProducer.course_withSupply s.input _ rfl)

/-- A batch of the input goes into the generator, up to the first item that fails. -/
theorem takeIn_comes (h : Gathering b w c taken none s b' o w') {input : S}
    {es : List (Event α)} (hd : Producer.drive s.input = (input, es)) :
    Comes b w c (Event.items (Heard.events ({ s with input }.takeIn w' b' o es).events))
      ({ s with input }.takeIn w' b' o es).state := by
  have hl : (Intake.hear { s.hearing taken none with stream := input } es).updateWaiting.Engaged := by
    have hadv := Intake.engaged_advance h.engaged
    rwa [Intake.advance, show Producer.drive (s.hearing taken none).stream = (input, es) from hd]
      at hadv
  have hdrive := ForetoldProducer.course_drive s.input
  rw [hd] at hdrive
  have hc := (Intake.course_hear (s := s.hearing taken none) hdrive).trans h.course
  have hitems : (taken ++ Event.items es) ++ (ForetoldProducer.course input).items = c.items :=
    congrArg Course.items hc
  rw [takeIn]
  dsimp only
  split
  · next e b₁ w₁ hadd =>
    have hf : FailsOn b' w' (Event.items es) e := RunGenerator.failsOn_iff.mpr (by rw [hadd])
    refine fail_comes h.supply_open (.item ?_)
    rw [Course.items_events, ← hitems]
    exact (hf.prepend h.added).append _
  · next b₁ w₁ hadd =>
    have hall := (RunGenerator.addAll_append h.added (Event.items es)).trans hadd
    split
    · next e he =>
      have hend := (Intake.course_of_heard hl.listening he).symm.trans hc
      subst hend
      exact fail_comes h.supply_open (failsBy_input hall rfl)
    · next he =>
      have hend := (Intake.course_of_heard hl.listening he).symm.trans hc
      subst hend
      exact beginMerge_comes (s := { s with input, itemsRead := _ }) h.codec_eq h.supply_open hall
        rfl
    · next he =>
      have hg : Gathering b w c (taken ++ Event.items es) none
          { s with
            input := input
            stage := .collecting none b₁ o
            itemsRead := s.itemsRead + (Event.items es).length } b₁ o w₁ :=
        { codec_eq := h.codec_eq
          supply_open := h.supply_open
          engaged :=
            { listening := ⟨hl.listening.subscriber, he.symm.trans hl.listening.heard⟩
              ongoing := fun _ => hl.ongoing he
              asked := fun hw => absurd hw (by simp [hearing]) }
          course := hc
          added := hall }
      exact .gathering rfl rfl hg

theorem turn_comes (h : Comes b w c out t) :
    Comes b w c (out ++ Event.items (Heard.events (turn t).events)) (turn t).state := by
  obtain ⟨s, w'⟩ := t
  cases h with
  | @gathering taken heard b' o hout hst h =>
      have hst : s.stage = .collecting heard b' o := hst
      rw [hout, List.nil_append, turn]
      simp only [hst]
      split
      · exact .gathering rfl hst h
      split
      · have hend := (Intake.course_of_heard h.engaged.listening rfl).symm.trans h.course
        subst hend
        exact fail_comes h.supply_open (failsBy_input h.added rfl)
      · have hend := (Intake.course_of_heard h.engaged.listening rfl).symm.trans h.course
        subst hend
        exact beginMerge_comes h.codec_eq h.supply_open h.added rfl
      · exact takeIn_comes h.askInput rfl
  | failed hout hst hend hf =>
      have hst : s.stage = .failed _ := hst
      rw [turn]
      simp only [hst]
      exact .failed (hout ▸ List.append_nil _) hst hend hf
  | merging hst hin h hwork =>
      have hst : s.stage = .merging _ := hst
      rw [turn]
      simp only [hst]
      refine .merging hst hin ?_ hwork
      show Merge.Tracks _ _ (out ++ []) _ _
      rwa [List.append_nil]

/-! ## Schedules -/

theorem drive_comes (h : Comes b w c out (s, w')) :
    Comes b w c (out ++ Event.items (Heard.events (s.drive w').2)) (s.drive w').1 := by
  cases hst : s.stage with
  | collecting heard b' o =>
      rw [drive, hst]
      refine Turn.iterate_induction
        (fun t hs => Comes b w c (out ++ Event.items (Heard.events hs)) t) ?_ (s, w')
        (by simpa using h)
      intro t hs ht
      rw [Heard.events_append, Event.items_append, ← List.append_assoc]
      exact turn_comes ht
  | merging m =>
      rw [drive, hst]
      cases h with
      | gathering _ hst' => exact absurd (hst.symm.trans hst') (by simp)
      | failed _ hst' => exact absurd (hst.symm.trans hst') (by simp)
      | merging hst' hin h hwork =>
          obtain rfl := SorterStage.merging.inj (hst.symm.trans hst')
          exact .merging rfl hin h.drive (hwork.drive w')
  | failed o =>
      rw [drive, hst]
      simpa using h
  | closed d =>
      rw [drive, hst]
      simpa using h

theorem Comes.withSupply (h : Comes b w c out (s, w')) (hopen : o.isOpen = s.supply.isOpen)
    (hend : o.ending? = s.supply.ending?) : Comes b w c out (s.withSupply o, w') := by
  cases h with
  | @gathering taken heard b' p hout hst h =>
      have ho : o.status = .open := by
        rw [← Supply.isOpen_iff, hopen, supply, hst]
        exact Supply.isOpen_iff.mpr h.supply_open
      rw [Sorter.withSupply, hst]
      exact .gathering hout rfl
        { codec_eq := h.codec_eq
          supply_open := ho
          engaged := h.engaged
          course := h.course
          added := h.added }
  | failed hout hst he hf =>
      rw [supply, hst] at hend
      rw [Sorter.withSupply, hst]
      exact .failed hout rfl (hend.trans he) hf
  | merging hst hin h hwork =>
      rw [supply, hst] at hopen hend
      rw [Sorter.withSupply, hst]
      exact .merging rfl hin (h.withSupply hopen hend) (hwork.withSupply hopen)

theorem performAll_comes (h : Comes b w c [] t) (cs : List (Command α)) :
    Comes b w c (Event.items (Command.performAll t cs).2) (Command.performAll t cs).1 := by
  refine Command.performAll_induction
    (P := fun (t : Sorter S O α × W) es => Comes b w c (Event.items es) t) ?_ ?_ ?_ h cs
  · intro t k es h
    rw [Event.items_append]
    have : Event.items (Producer.subscribe t k).2 = [] := Supply.items_subscribe t.1.supply k
    rw [this, List.append_nil]
    exact h.withSupply (Supply.isOpen_subscribe t.1.supply k)
      (Supply.ending?_subscribe t.1.supply k)
  · intro t d es h
    exact h.withSupply rfl rfl
  · intro t es h
    rw [Event.items_append]
    exact drive_comes h

theorem start_comes {settings : Settings} {codec : Codec α} {order : O} {tag : UInt32} {input : S}
    (hin : (Producer.supply input).Unheard)
    (h : start w settings codec order tag input = (.ok s, w')) :
    Comes { settings, codec, order, tag } w' (ForetoldProducer.course input) [] (s, w') := by
  obtain ⟨-, -, rfl⟩ := start_ok.mp h
  exact .gathering rfl rfl
    { codec_eq := rfl
      supply_open := rfl
      engaged := Intake.engaged_subscribe hin
      course := ForetoldProducer.course_subscribe input {}
      added := rfl }

/-! ## Coming to the end -/

variable [DiligentProducer S α]

omit [ItemOrder O α] [SpillStore W] [ForetoldProducer S α] in
/-- How far a sort is from its end: how often its input is still to say that it is not
ready, and then how far the merge is. -/
def remaining (s : Sorter S O α) : ℕ ×ₗ ℕ :=
  match s.stage with
  | .collecting .. => toLex (refusals s.input + 2, 0)
  | .merging m => m.remaining
  | .failed _ | .closed _ => toLex (0, 0)

omit [ForetoldProducer S α] in
/-- The last turn of a sort that reads its input, after which something may still be
sent, has met an input that was not ready, or begun to merge. -/
theorem turn_remaining {b : RunGenerator O α} (hst : t.1.stage = .collecting heard b o)
    (hh : heard = none → Hears t.1.input) (hl : (turn t).again = false)
    (hc : (turn t).state.1.supply.canSend = true) : (turn t).state.1.remaining < t.1.remaining := by
  obtain ⟨s, w'⟩ := t
  have hst : s.stage = .collecting heard b o := hst
  have hleft : s.remaining = toLex (refusals s.input + 2, 0) := by rw [remaining, hst]
  have ht := turn_turns hst w'
  rw [hleft]
  generalize turn (s, w') = v at hl hc ht ⊢
  cases ht with
  | unasked hn => exact absurd (hc.symm.trans hn) (by simp)
  | fails => exact absurd (hc.symm.trans (Supply.canSend_finish _ _)) (by simp)
  | @begins m w₁ input n files runs hb => exact Merge.remaining_lt (m.drive w₁).1.1 _
  | goesOn n hst' hc he =>
      obtain ⟨rfl, -⟩ := SorterStage.collecting.inj (hst.symm.trans hst')
      have hlt := (hh rfl).refused (by simpa using hl) he
      rw [remaining, Prod.Lex.toLex_lt_toLex]
      exact .inl (Nat.add_lt_add_right hlt 2)

/-- A drive after which something may still be sent has brought the sort nearer to
its end. -/
theorem Comes.drive_remaining (h : Comes b w c out t)
    (hc : (t.1.drive t.2).1.1.supply.canSend = true) :
    (t.1.drive t.2).1.1.remaining < t.1.remaining := by
  cases h with
  | @gathering taken heard b' o _ hst h =>
      have hears : heard = none → Hears t.1.input := fun hn =>
        ⟨h.engaged.ongoing hn, h.engaged.listening.subscriber⟩
      have hdrive : t.1.drive t.2 = t.1.readInput t.2 := by rw [drive, hst]
      rw [hdrive] at hc ⊢
      obtain ⟨u, hu, hl, he⟩ : ∃ u, Turn.Takes turn t u ∧ (turn u).again = false ∧
          (t.1.readInput t.2).1 = (turn u).state := Turn.iterate_takes t
      rw [he] at hc ⊢
      cases heard with
      | some e =>
          cases hu with
          | first => exact turn_remaining hst hears hl hc
          | later ha =>
              have ht := turn_turns hst t.2
              generalize turn (t.1, t.2) = v at ha ht
              cases ht with
              | unasked => exact absurd ha (by simp)
              | fails => exact absurd ha (by simp [fail])
              | begins => exact absurd ha (by simp)
              | goesOn _ hst' => exact absurd (hst.symm.trans hst') (by simp)
      | none =>
          have hr : Reads t u := hu.keeps (P := Reads t) (fun _ hr ha => hr.next ha)
            ⟨⟨b', o, hst⟩, hears rfl, Nat.le_refl _⟩
          obtain ⟨b₁, p, hst'⟩ := hr.stage
          refine lt_of_lt_of_le (turn_remaining hst' (fun _ => hr.hears) hl hc) ?_
          rw [remaining, remaining, hst, hst']
          exact Prod.Lex.toLex_mono ⟨Nat.add_le_add_right hr.refusals_le 2, Nat.le_refl 0⟩
  | failed _ hst hend =>
      have hdrive : t.1.drive t.2 = (t, []) := by rw [drive, hst]
      rw [hdrive, supply, hst] at hc
      have ho := (Supply.canSend_iff.mp hc).1
      exact absurd (hend.symm.trans (Supply.ending?_of_open ho)) (by simp)
  | @merging m _ _ _ hst _ _ hwork =>
      have hleft : t.1.remaining = m.remaining := by rw [remaining, hst]
      rw [hleft]
      rw [drive, hst] at hc ⊢
      exact hwork.attentive.drive_remaining hwork.inStep hc

/-- Who drains a sort is handed the rest of what it comes to, or its error. -/
theorem drainsRest {settings : Settings} {codec : Codec α} {order : O} {tag : UInt32} {input : S}
    (hin : (Producer.supply input).Unheard)
    (h : start w settings codec order tag input = (.ok s, w')) :
    Command.DrainsRest (s, w')
      (Outcome { settings, codec, order, tag } w' (ForetoldProducer.course input)) := by
  have hcomes := performAll_comes (start_comes hin h)
  refine Command.drainsRest (fun t : Sorter S O α × W => t.1.remaining) ?_ ?_
  · exact fun cs hc => (hcomes cs).drive_remaining hc
  · exact fun cs e he => (hcomes cs).outcome he

theorem drainsRest_sorted (T : Task O α W) (hw : T.store.ok w) (hcheck : T.settings.check = .ok ())
    {tag : UInt32} (hroom : T.store.HasRoom T.settings tag 1 w) {input : S}
    (hopen : (Producer.supply input).status = .open)
    (hin : ForetoldProducer.course input = ⟨T.items, .ended⟩) :
    ∃ s w₁, start w T.settings T.codec T.order tag input = (.ok s, w₁) ∧
      Command.DrainsRest (s, w₁) fun out e => e = .ended ∧ out = T.sorted := by
  obtain ⟨s, w₁, hstart, -, hs⟩ := start_sorts T hw hcheck hroom hopen hin
  have hcomes := performAll_comes (start_comes (.inl hopen) hstart)
  refine ⟨s, w₁, hstart, ?_⟩
  refine Command.drainsRest (fun t : Sorter S O α × W => t.1.remaining) ?_ ?_
  · exact fun cs hc => (hcomes cs).drive_remaining hc
  · exact fun cs e he => (performAll_sorts hs cs).spec.2.2 e he

end Sorter

end ExternalSort
