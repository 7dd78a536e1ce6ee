/-
Who drains a stream is handed the rest of it.

Draining takes a stream over from whoever was subscribed, asks for everything,
and drives the stream until its ending is heard, so it is a schedule like any
other (`Command.takeover`).  It comes to its end because a drive after which
something may still be sent brings a measure down (`exists_over`), and what
it gives is what the schedule lets out, items first and the ending last
(`drain_of_over`).  So the items handed over before and the drained ones are what
the stream hands over in any one schedule up to its ending (`DrainsRest`).
-/
import Mathlib.Data.Prod.Lex
import Mathlib.Order.Nat
import ExternalSort.Proofs.Stream.Delivery
import ExternalSort.Proofs.Stream.Diligence

namespace ExternalSort

/-- What draining a stream comes to that has handed some items over and ended. -/
def Ending.result {α : Type} (items : List α) : Ending → Except Failure (List α)
  | .ended => .ok items
  | .failed e => .error e

theorem Event.endingOf_append {α : Type} (es fs : List (Event α)) :
    endingOf (es ++ fs) = (endingOf es <|> endingOf fs) := by
  rw [endingOf, List.findSome?_append, Option.orElse_eq_orElse, Option.orElse_eq_or]
  rfl

theorem Supply.Eager.steps {α : Type} {o o' : Supply α} {es : List (Event α)} (h : o.Eager)
    (hs : Steps o es o') (ho : o'.isOpen = true) : o'.Eager := by
  induction hs with
  | refl => exact h
  | send a _ _ ih => exact ih (h.send a) ho
  | finish e hs _ =>
      have hover := hs.of_not_open (finish_isOpen _ e)
      rw [hover.2, finish_isOpen] at ho
      exact absurd ho (by simp)

/-! ## Gathering -/

namespace Producer

variable {S α : Type} [Producer S α] {s : S} {es : List (Event α)} {e : Ending}

theorem gatherFrom_of_ending (h : Event.endingOf es = some e) (patience : Nat) (s : S)
    (got : Array α) :
    gatherFrom patience s es got = (s, got.toList ++ Event.items es, some e) := by
  cases patience <;> simp [gatherFrom, h]

/-- Gathering drives a stream as often as it takes until the ending is heard. -/
theorem gatherFrom_of_heard {n : Nat} (h : Event.endingOf (es ++ (driveTimes s n).2) = some e) :
    ∃ j, Event.endingOf (es ++ (driveTimes s j).2) = some e ∧
      ∀ patience, n ≤ patience → ∀ got : Array α, gatherFrom patience s es got =
        ((driveTimes s j).1, got.toList ++ Event.items (es ++ (driveTimes s j).2), some e) := by
  induction n generalizing s es with
  | zero =>
      refine ⟨0, h, ?_⟩
      intro patience _ got
      have hes : es ++ (driveTimes s 0).2 = es := List.append_nil es
      rw [hes] at h ⊢
      exact gatherFrom_of_ending h patience s got
  | succ n ih =>
      cases hes : Event.endingOf es with
      | some e' =>
          obtain rfl : e' = e := by simpa [Event.endingOf_append, hes] using h
          refine ⟨0, by simpa [driveTimes] using hes, ?_⟩
          intro patience _ got
          rw [gatherFrom_of_ending hes]
          simp [driveTimes]
      | none =>
          rw [Event.endingOf_append, hes] at h
          have h : Event.endingOf ((drive s).2 ++ (driveTimes (drive s).1 n).2) = some e := h
          obtain ⟨j, hj, hall⟩ := ih h
          refine ⟨j + 1, ?_, ?_⟩
          · rw [Event.endingOf_append, hes]
            exact hj
          · intro patience hn got
            obtain ⟨p, rfl⟩ := Nat.exists_eq_add_of_le' hn
            rw [← Nat.add_assoc, gatherFrom, hes]
            dsimp only
            rw [hall (p + n) (Nat.le_add_left n p)]
            simp [driveTimes]

theorem heard_of_gatherFrom {patience : Nat} {t : S} {items : List α} {got : Array α}
    (h : gatherFrom patience s es got = (t, items, some e)) :
    ∃ j, t = (driveTimes s j).1 ∧ items = got.toList ++ Event.items (es ++ (driveTimes s j).2) ∧
      Event.endingOf (es ++ (driveTimes s j).2) = some e := by
  have hended : ∀ {p : Nat} {s : S} {es : List (Event α)} {got : Array α} {e' : Ending},
      Event.endingOf es = some e' → gatherFrom p s es got = (t, items, some e) →
      t = (driveTimes s 0).1 ∧ items = got.toList ++ Event.items (es ++ (driveTimes s 0).2) ∧
        Event.endingOf (es ++ (driveTimes s 0).2) = some e := by
    intro p s es got e' he h
    rw [gatherFrom_of_ending he] at h
    cases h
    exact ⟨rfl, by simp [driveTimes], by simpa [driveTimes] using he⟩
  induction patience generalizing s es got with
  | zero =>
      cases he : Event.endingOf es with
      | some e' => exact ⟨0, hended he h⟩
      | none => exact absurd h (by simp [gatherFrom, he])
  | succ patience ih =>
      cases he : Event.endingOf es with
      | some e' => exact ⟨0, hended he h⟩
      | none =>
          rw [gatherFrom, he] at h
          obtain ⟨j, ht, hitems, hj⟩ := ih h
          refine ⟨j + 1, ht, ?_, ?_⟩
          · have hdriven : (driveTimes s (j + 1)).2 =
                (drive s).2 ++ (driveTimes (drive s).1 j).2 := rfl
            rw [hitems, hdriven]
            simp only [Event.items_append, Array.toList_appendList, List.append_assoc]
            rfl
          · rw [Event.endingOf_append, he]
            exact hj

/-- Who has gathered up to the ending gathers the same with more patience. -/
theorem gatherFrom_of_le {p q : Nat} (hpq : p ≤ q) {t : S} {items : List α} {got : Array α}
    (h : gatherFrom p s es got = (t, items, some e)) :
    gatherFrom q s es got = (t, items, some e) := by
  induction p generalizing q s es got with
  | zero =>
      cases he : Event.endingOf es with
      | some e' =>
          rw [gatherFrom_of_ending he] at h ⊢
          exact h
      | none => exact absurd h (by simp [gatherFrom, he])
  | succ p ih =>
      obtain ⟨k, rfl⟩ := Nat.exists_eq_add_of_le' hpq
      rw [← Nat.add_assoc]
      cases he : Event.endingOf es with
      | some e' =>
          rw [gatherFrom_of_ending he] at h ⊢
          exact h
      | none =>
          rw [gatherFrom, he] at h ⊢
          exact ih (Nat.le_add_left p k) h

theorem drain_of_le {p q : Nat} (hpq : p ≤ q) {r : Except Failure (List α)}
    (h : (drain p s).2 = some r) : (drain q s).2 = some r := by
  rcases hg : gather p s with ⟨t, items, _ | e⟩
  · rw [drain, hg] at h
    exact absurd h (by simp)
  · have hq : gather q s = gather p s := hg ▸ gatherFrom_of_le hpq hg
    rw [drain, hq]
    exact h

theorem drain_eq {patience : Nat} {t : S} {items : List α}
    (h : gather patience s = (t, items, some e)) :
    drain patience s = (t, some (e.result items)) := by
  rw [drain, h]
  cases e <;> rfl

end Producer

/-! ## Taking a stream over -/

namespace Command

variable {S α : Type} [Producer S α]

open Producer

/-- Takes a stream over, asks for everything, and drives it some more times. -/
def takeover (α : Type) (n : Nat) : List (Command α) :=
  .subscribe {} :: .resume :: List.replicate n .drive

theorem gather_eq (patience : Nat) (s : S) :
    gather patience s =
      gatherFrom patience (performAll s (takeover α 0)).1 (performAll s (takeover α 0)).2 #[] := by
  simp [gather, takeover, performAll, perform]

theorem performAll_takeover (s : S) (n : Nat) :
    performAll s (takeover α n) =
      ((driveTimes (performAll s (takeover α 0)).1 n).1,
        (performAll s (takeover α 0)).2 ++ (driveTimes (performAll s (takeover α 0)).1 n).2) := by
  have hsplit : takeover α n = takeover α 0 ++ List.replicate n .drive := rfl
  rw [hsplit, performAll_append, performAll_drives]

variable [OrderlyProducer S α] {s : S}

theorem asked (ho : (supply s).status = .open) :
    let u := changeDemand (Producer.subscribe s {}).1 .unlimit
    (supply u).Eager ∧ (supply u).subscriber = some {} := by
  obtain ⟨hsub, hst, -⟩ := Supply.subscribe_of_open ho ({} : Subscriber α)
  dsimp only
  rw [OrderlyProducer.supply_changeDemand, OrderlyProducer.supply_subscribe]
  exact ⟨⟨hst, rfl, {}, hsub, fun _ _ => rfl⟩, hsub⟩

omit [OrderlyProducer S α] in
theorem performAll_takeover_asked (s : S) (n : Nat) :
    performAll s (takeover α n) =
      ((driveTimes (changeDemand (Producer.subscribe s {}).1 .unlimit) (n + 1)).1,
        (Producer.subscribe s {}).2 ++
          (driveTimes (changeDemand (Producer.subscribe s {}).1 .unlimit) (n + 1)).2) := by
  simp only [takeover, performAll, perform, performAll_drives, Producer.resume, driveTimes]

theorem eager_takeover (hs : (supply s).Unheard)
    (ho : (supply (performAll s (takeover α 0)).1).isOpen = true) :
    (supply (performAll s (takeover α 0)).1).Eager := by
  rcases hs with hs | ⟨e, hp⟩
  · rw [performAll_takeover_asked] at ho ⊢
    exact (asked hs).1.steps (OrderlyProducer.driveTimes_steps _ _) ho
  · have hover := (performAll_subscribe_of_not_open (s := s) (by simp [Supply.isOpen, hp]) {}
      (work_of_driving 0)).2
    exact absurd (ho.symm.trans hover) (by simp)

/-- Who takes a stream over whose ending nobody has heard of, and drives it until
it is over, hears of the ending. -/
theorem heard_of_over (hs : (supply s).Unheard) {n : Nat}
    (hover : (supply (performAll s (takeover α n)).1).isOpen = false) :
    ∃ e, Event.endingOf (performAll s (takeover α n)).2 = some e := by
  rw [performAll_takeover_asked] at hover ⊢
  rw [Event.endingOf_append]
  rcases hs with ho | ⟨e, hp⟩
  · obtain ⟨-, -, hes⟩ := Supply.subscribe_of_open ho ({} : Subscriber α)
    obtain ⟨heager, hsub⟩ := asked ho
    rw [show (Producer.subscribe s {}).2 = [] from hes]
    generalize changeDemand (Producer.subscribe s {}).1 .unlimit = u at hover heager hsub ⊢
    rcases (OrderlyProducer.driveTimes_steps u (n + 1)).of_open heager.status with
      ⟨as, -, hst⟩ | ⟨as, e, hes, -⟩
    · exact absurd hover (by simp [Supply.isOpen, hst])
    · refine ⟨e, ?_⟩
      rw [hes, hsub, Event.endingOf_eq_head?, Event.endingOf_eq_head?, Event.endings_append,
        Event.endings_items]
      cases e <;> rfl
  · have hes : (Producer.subscribe s {}).2 = [.ending e] := by
      show ((supply s).subscribe {}).2 = _
      rw [Supply.subscribe, hp]
      cases e <;> rfl
    exact ⟨e, by rw [hes]; rfl⟩

theorem ending?_of_heard (hs : (supply s).status ≠ .closed) {cs : List (Command α)} {e : Ending}
    (he : Event.endingOf (performAll s cs).2 = some e) :
    (supply (performAll s cs).1).ending? = some e := by
  have htold := told (.nil (supply s)) cs
  rw [List.nil_append] at htold
  rw [Event.endingOf_eq_head?] at he
  exact htold.ending?_eq (ne_closed hs cs) (List.mem_of_head? he)

theorem takeover_of_gather (hs : (supply s).status ≠ .closed) {patience : Nat} {t : S}
    {items : List α} {e : Ending} (h : gather patience s = (t, items, some e)) :
    ∃ n, t = (performAll s (takeover α n)).1 ∧
      items = Event.items (performAll s (takeover α n)).2 ∧ (supply t).ending? = some e := by
  rw [gather_eq] at h
  obtain ⟨n, rfl, rfl, he⟩ := heard_of_gatherFrom h
  have htaken := performAll_takeover s n
  refine ⟨n, (congrArg Prod.fst htaken).symm, ?_, ?_⟩
  · rw [htaken]
    rfl
  · rw [← congrArg Prod.fst htaken]
    exact ending?_of_heard hs (by rw [htaken]; exact he)

/-- If a stream whose ending nobody has heard of is over once it was taken over and
driven a number of times, then draining it comes to its end. -/
theorem drain_of_over (hs : (supply s).Unheard) {n : Nat}
    (hover : (supply (performAll s (takeover α n)).1).isOpen = false) :
    ∃ j e, (supply (performAll s (takeover α j)).1).ending? = some e ∧
      ∀ patience, n ≤ patience → drain patience s = ((performAll s (takeover α j)).1,
        some (e.result (Event.items (performAll s (takeover α j)).2))) := by
  obtain ⟨e, he⟩ := heard_of_over hs hover
  rw [performAll_takeover] at he
  obtain ⟨j, hj, hall⟩ := gatherFrom_of_heard he
  refine ⟨j, e, ?_, ?_⟩
  · refine ending?_of_heard ?_ (by rw [performAll_takeover]; exact hj)
    rcases hs with ho | ⟨e, hp⟩ <;> simp [*]
  · intro patience hn
    rw [performAll_takeover]
    refine drain_eq ?_
    rw [gather_eq, hall patience hn]
    rfl

/-! ## Coming to the end -/

variable {μ : Type} [Preorder μ] [WellFoundedLT μ]

/-- A stream comes to its end that somebody wants everything of, if each drive after
which something may still be sent brings a measure down. -/
theorem exists_over {s : S} {left : S → μ}
    (progress : ∀ cs, let t := (performAll s cs).1
      (supply (Producer.drive t).1).canSend = true → left (Producer.drive t).1 < left t)
    {cs : List (Command α)} (he : (supply (performAll s cs).1).Eager) :
    ∃ n, (supply (driveTimes (performAll s cs).1 n).1).isOpen = false := by
  -- The induction is on the measure of the state that the commands lead to.
  generalize hm : left (performAll s cs).1 = m
  induction m using (wellFounded_lt (α := μ)).induction generalizing cs with
  | h m ih =>
      have hdrive : (performAll s (cs ++ [.drive])).1 = (Producer.drive (performAll s cs).1).1 := by
        rw [performAll_append]
        rfl
      cases ho : (supply (Producer.drive (performAll s cs).1).1).isOpen with
      | false => exact ⟨1, ho⟩
      | true =>
          have heager := he.steps (OrderlyProducer.drive_steps _) ho
          have hlt := progress cs heager.canSend
          rw [← hdrive] at heager hlt
          obtain ⟨n, hn⟩ := ih _ (hm ▸ hlt) heager rfl
          refine ⟨n + 1, ?_⟩
          rw [hdrive] at hn
          exact hn

/-- Whoever takes the stream `s` over in the middle, as long as nobody has heard of
its ending, and drains it, is handed the rest of it, or the error that it ends by.
`Complete out e` says of a stream that has handed `out` over and ended by `e` that
this is all that it was to do. -/
def DrainsRest (s : S) (Complete : List α → Ending → Prop) : Prop :=
  ∀ cs : List (Command α), (supply (performAll s cs).1).Unheard →
    ∃ n rest e, Complete (Event.items (performAll s cs).2 ++ rest) e ∧
      ∀ patience, n ≤ patience →
        (drain patience (performAll s cs).1).2 = some (e.result rest)

omit [OrderlyProducer S α] in
theorem DrainsRest.mono {Complete Enough : List α → Ending → Prop} (h : DrainsRest s Complete)
    (himp : ∀ out e, Complete out e → Enough out e) : DrainsRest s Enough := by
  intro cs hs
  obtain ⟨n, rest, e, hc, hall⟩ := h cs hs
  exact ⟨n, rest, e, himp _ e hc, hall⟩

/-- A stream each drive of which brings it nearer to its end drains to the rest, if
whenever it has ended everything was handed over. -/
theorem drainsRest (left : S → μ)
    (progress : ∀ cs, let t := (performAll s cs).1
      (supply (Producer.drive t).1).canSend = true → left (Producer.drive t).1 < left t)
    {Complete : List α → Ending → Prop}
    (complete : ∀ cs e, (supply (performAll s cs).1).ending? = some e →
      Complete (Event.items (performAll s cs).2) e) :
    DrainsRest s Complete := by
  intro cs hs
  have hover : ∃ n, (supply (performAll (performAll s cs).1 (takeover α n)).1).isOpen = false := by
    cases ho : (supply (performAll (performAll s cs).1 (takeover α 0)).1).isOpen with
    | false => exact ⟨0, ho⟩
    | true =>
        have heager := eager_takeover hs ho
        have happ : (performAll (performAll s cs).1 (takeover α 0)).1 =
            (performAll s (cs ++ takeover α 0)).1 := by rw [performAll_append]
        rw [happ] at heager
        obtain ⟨n, hn⟩ := exists_over progress heager
        refine ⟨n, ?_⟩
        rw [performAll_takeover, happ]
        exact hn
  obtain ⟨n, hover⟩ := hover
  obtain ⟨j, e, he, hall⟩ := drain_of_over hs hover
  have happ := performAll_append s cs (takeover α j)
  have hdone := complete (cs ++ takeover α j) e (by rw [happ]; exact he)
  rw [happ, Event.items_append] at hdone
  exact ⟨n, _, e, hdone, fun patience hn => by rw [hall patience hn]⟩

end Command

theorem Producer.drainsRest_course {S α : Type} [Producer S α] [ForetoldProducer S α]
    [DiligentProducer S α] (s : S) :
    Command.DrainsRest s fun out e => ForetoldProducer.course s = ⟨out, e⟩ := by
  refine Command.drainsRest DiligentProducer.refusals ?_ ?_
  · intro cs t hc
    rcases DiligentProducer.drive_stops t with hn | hlt
    · exact absurd (hc.symm.trans hn) (by simp)
    · exact hlt
  · intro cs e he
    rw [ForetoldProducer.course_performAll s cs, ForetoldProducer.course_ended _ e he]
    simp [Course.after]

end ExternalSort
