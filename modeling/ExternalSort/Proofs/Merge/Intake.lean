/-
What an intake is still to give.

An intake asks its stream for items, holds some of them and hands them on
one by one.  Its course is what it holds, followed by the course of its
stream.  Topping an intake up moves items within the course, so whatever
was asked for and whenever the stream was ready, the course stays
(`course_topUp`), and taking an item takes the first one off it
(`course_takeFirst`).
-/
import ExternalSort.Proofs.Frame.Course
import ExternalSort.Merge.Intake
import ExternalSort.Merge.RunStream

namespace ExternalSort

/-! ## Streams over runs -/

namespace RunStream

variable {α : Type}

def course : RunStream α → Course α
  | memory s => s.course
  | file r => r.course

instance : ForetoldProducer (RunStream α) α where
  supply_changeDemand s _ := by cases s <;> rfl
  supply_subscribe s _ := by cases s <;> rfl
  drive_steps s := by
    cases s with
    | memory s => exact OrderlyProducer.drive_steps s
    | file r => exact OrderlyProducer.drive_steps r
  course := course
  course_withSupply s o h := by
    cases s with
    | memory s => exact ForetoldProducer.course_withSupply s o h
    | file r => exact ForetoldProducer.course_withSupply r o h
  course_drive s := by
    cases s with
    | memory s => exact ForetoldProducer.course_drive s
    | file r => exact ForetoldProducer.course_drive r
  course_ended s e h := by
    cases s with
    | memory s => exact ForetoldProducer.course_ended s e h
    | file r => exact ForetoldProducer.course_ended r e h

end RunStream

/-! ## Intakes -/

namespace Intake

variable {S α : Type} {s t : Intake S α} {a : α} {target : Nat}

theorem isSpent_iff : s.isSpent = true ↔ s.heard = some .ended ∧ s.buffer = [] := by
  simp [isSpent, endedWell]

theorem failure?_eq_some {e : Failure} : s.failure? = some e ↔ s.heard = some (.failed e) := by
  rw [failure?]
  cases s.heard with
  | none => simp
  | some e' => cases e' <;> simp

theorem takeFirst_eq_some :
    s.takeFirst = some (a, t) ↔ ∃ rest, s.buffer = a :: rest ∧ t = { s with buffer := rest } := by
  rw [takeFirst]
  cases s.buffer with
  | nil => simp
  | cons b rest =>
      simp only [Option.some.injEq, Prod.mk.injEq, List.cons.injEq]
      constructor
      · rintro ⟨rfl, rfl⟩
        exact ⟨rest, ⟨rfl, rfl⟩, rfl⟩
      · rintro ⟨_, ⟨rfl, rfl⟩, rfl⟩
        exact ⟨rfl, rfl⟩

variable [Producer S α]

/-- An intake hears everything of its stream, and has heard what there was
to hear. -/
structure Listening (s : Intake S α) : Prop where
  subscriber : (Producer.supply s.stream).subscriber = some {}
  heard : s.heard = (Producer.supply s.stream).ending?

theorem listening_hear (h : s.Listening) {stream : S} {es : List (Event α)}
    (hs : Supply.Steps (Producer.supply s.stream) es (Producer.supply stream)) :
    (hear { s with stream } es).Listening where
  subscriber := hs.subscriber_eq.trans h.subscriber
  heard := by
    show (s.heard <|> Event.endingOf es) = (Producer.supply stream).ending?
    cases ho : (Producer.supply s.stream).isOpen with
    | false =>
        obtain ⟨rfl, he⟩ := hs.of_not_open ho
        rw [he, h.heard]
        cases (Producer.supply s.stream).ending? <;> rfl
    | true =>
        have ho := Supply.isOpen_iff.mp ho
        rw [h.heard, Supply.ending?_of_open ho, Event.endingOf_eq_head?]
        rcases hs.of_open ho with ⟨as, rfl, hst⟩ | ⟨as, e, rfl, hst⟩
        · rw [Supply.ending?_of_open hst, Event.endings_items]
          rfl
        · rw [h.subscriber] at hst ⊢
          rw [Supply.ending?, hst, Event.endings_append, Event.endings_items]
          cases e <;> rfl

theorem listening_takeFirst (h : s.Listening) (ht : s.takeFirst = some (a, t)) : t.Listening := by
  obtain ⟨rest, -, rfl⟩ := takeFirst_eq_some.mp ht
  exact ⟨h.subscriber, h.heard⟩

section Orderly

variable [OrderlyProducer S α]

theorem listening_ofStream (stream : S) (hu : (Producer.supply stream).Unheard) :
    (ofStream stream).Listening := by
  have hs := OrderlyProducer.supply_subscribe stream ({} : Subscriber α)
  suffices hsub : ((Producer.supply stream).subscribe {}).1.subscriber = some {} ∧
      Event.endingOf ((Producer.supply stream).subscribe {}).2 =
        ((Producer.supply stream).subscribe {}).1.ending? by
    refine ⟨(congrArg Supply.subscriber hs).trans hsub.1, ?_⟩
    show (none <|> Event.endingOf ((Producer.supply stream).subscribe {}).2) =
      (Producer.supply (Producer.subscribe stream {}).1).ending?
    rw [hs, hsub.2]
    rfl
  rcases hu with ho | ⟨e, hp⟩
  · obtain ⟨hsub, hst, hev⟩ := Supply.subscribe_of_open ho ({} : Subscriber α)
    rw [hev, Supply.ending?_of_open hst]
    exact ⟨hsub, rfl⟩
  · rw [Supply.subscribe, hp]
    cases e <;> exact ⟨rfl, rfl⟩

theorem listening_ask (target : Nat) (h : s.Listening) : (s.ask target).Listening := by
  rw [ask]
  split
  · have hs := OrderlyProducer.supply_changeDemand s.stream (.request (target - s.buffer.length))
    refine ⟨?_, ?_⟩
    · show (Producer.supply (Producer.changeDemand _ _)).subscriber = _
      rw [hs]
      exact h.subscriber
    · show s.heard = (Producer.supply (Producer.changeDemand _ _)).ending?
      rw [hs]
      exact h.heard
  · exact h

theorem listening_topUp (h : s.Listening) : (s.topUp target).Listening := by
  have ha := listening_ask target h
  rw [topUp]
  split
  · have hd := listening_hear ha (OrderlyProducer.drive_steps (s.ask target).stream)
    exact ⟨hd.subscriber, hd.heard⟩
  · exact ⟨ha.subscriber, ha.heard⟩

end Orderly

/-! ## The course of an intake -/

variable [ForetoldProducer S α]

def course (s : Intake S α) : Course α := (ForetoldProducer.course s.stream).after s.buffer

theorem course_hear {stream : S} {es : List (Event α)}
    (h : ForetoldProducer.course s.stream =
      (ForetoldProducer.course stream).after (Event.items es)) :
    (hear { s with stream } es).course = s.course := by
  show (ForetoldProducer.course stream).after (s.buffer ++ Event.items es) = _
  rw [Course.after_append, ← h]
  rfl

theorem course_ofStream (stream : S) (ho : (Producer.supply stream).status = .open) :
    (ofStream stream).course = ForetoldProducer.course stream := by
  obtain ⟨-, hst, hev⟩ := Supply.subscribe_of_open ho ({} : Subscriber α)
  show (ForetoldProducer.course (Producer.withSupply stream _)).after
    ([] ++ Event.items ((Producer.supply stream).subscribe {}).2) = _
  rw [hev]
  exact ForetoldProducer.course_withSupply stream _ (hst.trans ho.symm)

theorem course_ask : (s.ask target).course = s.course := by
  rw [ask]
  split
  · exact congrArg (Course.after s.buffer) (ForetoldProducer.course_withSupply s.stream _ rfl)
  · rfl

/-- Topping up changes nothing of what is still to be given. -/
theorem course_topUp : (s.topUp target).course = s.course := by
  rw [topUp]
  split
  · exact (course_hear (ForetoldProducer.course_drive (s.ask target).stream)).trans course_ask
  · exact course_ask

/-- Who takes an item takes the first one that is still to be given. -/
theorem course_takeFirst (ht : s.takeFirst = some (a, t)) : s.course = t.course.after [a] := by
  obtain ⟨rest, hb, rfl⟩ := takeFirst_eq_some.mp ht
  rw [course, hb]
  rfl

theorem course_of_heard (h : s.Listening) {e : Ending} (he : s.heard = some e) :
    s.course = ⟨s.buffer, e⟩ := by
  rw [course, ForetoldProducer.course_ended s.stream e (h.heard.symm.trans he)]
  simp [Course.after]

theorem course_of_isSpent (h : s.Listening) (hs : s.isSpent = true) : s.course = ⟨[], .ended⟩ := by
  obtain ⟨he, hb⟩ := isSpent_iff.mp hs
  rw [course_of_heard h he, hb]

theorem course_of_failure (h : s.Listening) {e : Failure} (he : s.failure? = some e) :
    s.course.ending = .failed e := by
  rw [course_of_heard h (failure?_eq_some.mp he)]

/-- An intake that is ready shows its true head: it holds an item, or
nothing is to come from it. -/
theorem head_of_isReady (h : s.Listening) (hr : s.isReady = true) :
    s.buffer.head? = s.course.items.head? := by
  cases hb : s.buffer with
  | cons a as => simp [course, hb]
  | nil =>
      cases he : s.heard with
      | none => simp [isReady, hb, he] at hr
      | some e => rw [course_of_heard h he, hb]

end Intake

end ExternalSort
