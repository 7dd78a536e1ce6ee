/-
What a producer can do to its supply.

A drive of a stream may be long, and every stream drives differently, but
all of them speak to their consumer through a supply, and in two ways only:
an item is handed over when one may be, and the stream is ended.
`Supply.Steps` says that some events came about in this way.  That an
ending is the last event, and that it is raised once, follows from this
alone, so it holds of every stream at once.
-/
import ExternalSort.Stream.Supply

namespace ExternalSort

namespace Event

variable {α : Type}

/-- The endings among some events. -/
def endings (es : List (Event α)) : List Ending := es.filterMap ending?

@[simp] theorem endings_nil : endings ([] : List (Event α)) = [] := rfl

@[simp] theorem endings_append (es fs : List (Event α)) :
    endings (es ++ fs) = endings es ++ endings fs :=
  List.filterMap_append

@[simp] theorem endings_items (as : List α) : endings (as.map item) = [] := by
  induction as with
  | nil => rfl
  | cons a as ih => exact ih

@[simp] theorem items_items (as : List α) : items (as.map item) = as := by
  induction as with
  | nil => rfl
  | cons a as ih => exact congrArg (a :: ·) ih

theorem mem_endings {es : List (Event α)} {e : Ending} : e ∈ endings es ↔ ending e ∈ es := by
  simp only [endings, List.mem_filterMap]
  constructor
  · rintro ⟨ev, hm, he⟩
    cases ev with
    | item a => exact absurd he (by simp [ending?])
    | ending e' =>
        cases Option.some.inj he
        exact hm
  · intro h
    exact ⟨ending e, h, rfl⟩

theorem endingOf_eq_head? (es : List (Event α)) : endingOf es = (endings es).head? := by
  induction es with
  | nil => rfl
  | cons e es ih =>
      cases e with
      | item a => exact ih
      | ending e => rfl

/-- Events that end with at most one ending, which no item follows. -/
def Settled (es : List (Event α)) : Prop :=
  ∃ (as : List α) (e : Option Ending), es = as.map item ++ e.toList.map ending

theorem Settled.length_endings {es : List (Event α)} (h : Settled es) :
    (endings es).length ≤ 1 := by
  obtain ⟨as, e, rfl⟩ := h
  rw [endings_append, endings_items]
  cases e with
  | none => exact Nat.zero_le 1
  | some e => exact Nat.le_refl 1

end Event

namespace Supply

variable {α : Type}

/-! ## One step -/

@[simp] theorem isOpen_iff {o : Supply α} : o.isOpen = true ↔ o.status = .open := by
  simp [isOpen]

theorem canSend_iff {o : Supply α} :
    o.canSend = true ↔ o.status = .open ∧ o.subscriber.isSome ∧ o.demand.isPositive := by
  simp [canSend, and_assoc]

theorem canSend_of_not_open {o : Supply α} (h : o.isOpen = false) : o.canSend = false := by
  rw [canSend, h]
  rfl

@[simp] theorem send_status (o : Supply α) (a : α) : (o.send a).1.status = o.status := by
  unfold send; split <;> rfl

@[simp] theorem send_subscriber (o : Supply α) (a : α) :
    (o.send a).1.subscriber = o.subscriber := by
  unfold send; split <;> rfl

theorem send_events {o : Supply α} (h : o.canSend = true) (a : α) : (o.send a).2 = [.item a] := by
  obtain ⟨-, hs, -⟩ := canSend_iff.mp h
  obtain ⟨s, hs⟩ := Option.isSome_iff_exists.mp hs
  simp [send, hs]

@[simp] theorem finish_subscriber (o : Supply α) (e : Ending) :
    (o.finish e).1.subscriber = o.subscriber := by
  rw [finish]
  split
  · split <;> simp_all
  · rfl

theorem finish_of_not_open {o : Supply α} (h : o.isOpen = false) (e : Ending) :
    o.finish e = (o, []) := by
  simp [finish, h]

/-- What those hear who listen when a stream ends. -/
def heardBy (s : Option (Subscriber α)) (e : Ending) : List (Event α) :=
  s.elim [] (endingEvents · e)

/-- How an ending stands after it was raised: it waits for somebody to hear
it if nobody does. -/
def raisedTo (s : Option (Subscriber α)) (e : Ending) : Status :=
  if s.isSome then .over e else .parked e

theorem finish_of_open {o : Supply α} (h : o.status = .open) (e : Ending) :
    (o.finish e).1.status = raisedTo o.subscriber e ∧
      (o.finish e).2 = heardBy o.subscriber e := by
  rw [finish]
  rw [if_pos (isOpen_iff.mpr h)]
  cases o.subscriber <;> exact ⟨rfl, rfl⟩

@[simp] theorem raisedTo_ne_open (s : Option (Subscriber α)) (e : Ending) :
    raisedTo s e ≠ .open := by
  unfold raisedTo; split <;> simp

theorem finish_isOpen (o : Supply α) (e : Ending) : (o.finish e).1.isOpen = false := by
  cases h : o.isOpen with
  | false => rw [finish_of_not_open h, h]
  | true =>
      rw [Bool.eq_false_iff, Ne, isOpen_iff, (finish_of_open (isOpen_iff.mp h) e).1]
      exact raisedTo_ne_open _ _

theorem heardBy_cases (s : Option (Subscriber α)) (e : Ending) :
    heardBy s e = [] ∨ heardBy s e = [.ending e] := by
  cases s with
  | none => exact .inl rfl
  | some s =>
      simp only [heardBy, Option.elim_some, endingEvents]
      split
      · exact .inr rfl
      · exact .inl rfl

@[simp] theorem items_heardBy (s : Option (Subscriber α)) (e : Ending) :
    Event.items (heardBy s e) = [] := by
  rcases heardBy_cases s e with h | h <;> rw [h] <;> rfl

theorem finish_fst (o : Supply α) (e : Ending) :
    (o.finish e).1 = o ∨ (o.finish e).1 = { o with status := raisedTo o.subscriber e } := by
  rw [finish]
  split
  · right
    split <;> simp_all [raisedTo]
  · exact .inl rfl

theorem subscribe_of_open {o : Supply α} (ho : o.status = .open) (h : Subscriber α) :
    (o.subscribe h).1.subscriber = some h ∧ (o.subscribe h).1.status = .open ∧
      (o.subscribe h).2 = [] := by
  rw [subscribe]
  split
  · exact ⟨rfl, ho, rfl⟩
  all_goals next hs => exact absurd (ho.symm.trans hs) (by simp)

/-! ## Steps -/

/-- `Steps o es o'`: with the supply `o`, a producer lets out the events
`es` and leaves the supply `o'`.  It has handed items over, each when one
might be, and it may have ended the stream. -/
inductive Steps : Supply α → List (Event α) → Supply α → Prop
  | refl (o : Supply α) : Steps o [] o
  | send {o o' : Supply α} {es : List (Event α)} (a : α) :
      o.canSend = true → Steps (o.send a).1 es o' → Steps o ((o.send a).2 ++ es) o'
  | finish {o o' : Supply α} {es : List (Event α)} (e : Ending) :
      Steps (o.finish e).1 es o' → Steps o ((o.finish e).2 ++ es) o'

namespace Steps

variable {o o' o'' : Supply α} {es fs : List (Event α)}

theorem trans (h : Steps o es o') (k : Steps o' fs o'') : Steps o (es ++ fs) o'' := by
  induction h with
  | refl => exact k
  | send a hc _ ih =>
      rw [List.append_assoc]
      exact .send a hc (ih k)
  | finish e _ ih =>
      rw [List.append_assoc]
      exact .finish e (ih k)

theorem one_send (h : o.canSend = true) (a : α) : Steps o (o.send a).2 (o.send a).1 := by
  simpa using Steps.send a h (.refl _)

theorem one_finish (o : Supply α) (e : Ending) : Steps o (o.finish e).2 (o.finish e).1 := by
  simpa using Steps.finish e (.refl (o.finish e).1)

theorem subscriber_eq (h : Steps o es o') : o'.subscriber = o.subscriber := by
  induction h with
  | refl => rfl
  | send a _ _ ih => rw [ih, send_subscriber]
  | finish e _ ih => rw [ih, finish_subscriber]

theorem of_not_open (h : Steps o es o') (ho : o.isOpen = false) : es = [] ∧ o' = o := by
  induction h with
  | refl => exact ⟨rfl, rfl⟩
  | send a hc _ _ =>
      rw [isOpen_iff.mpr (canSend_iff.mp hc).1] at ho
      exact absurd ho (by simp)
  | finish e _ ih =>
      rw [finish_of_not_open ho] at ih ⊢
      exact ih ho

/-- An open stream hands items over, and after them it may end, once. -/
theorem of_open (h : Steps o es o') (ho : o.status = .open) :
    (∃ as : List α, es = as.map .item ∧ o'.status = .open) ∨
      ∃ (as : List α) (e : Ending), es = as.map .item ++ heardBy o.subscriber e ∧
        o'.status = raisedTo o.subscriber e := by
  induction h with
  | refl => exact .inl ⟨[], rfl, ho⟩
  | send a hc _ ih =>
      rw [send_events hc]
      rw [send_subscriber] at ih
      rcases ih ((send_status _ _).trans ho) with ⟨as, rfl, h⟩ | ⟨as, e, rfl, h⟩
      · exact .inl ⟨a :: as, rfl, h⟩
      · exact .inr ⟨a :: as, e, rfl, h⟩
  | finish e hs _ =>
      obtain ⟨hst, hev⟩ := finish_of_open ho e
      obtain ⟨rfl, rfl⟩ := hs.of_not_open (finish_isOpen _ e)
      exact .inr ⟨[], e, by simp [hev], hst⟩

theorem items_of_no_demand (h : Steps o es o') (hd : o.demand.isPositive = false) :
    Event.items es = [] := by
  induction h with
  | refl => rfl
  | send a hc => exact absurd (canSend_iff.mp hc).2.2 (by simp [hd])
  | finish e _ ih =>
      rw [Event.items_append, items_finish, List.nil_append]
      refine ih ?_
      rcases finish_fst _ e with heq | heq <;> rw [heq] <;> exact hd

/-- An open stream that nobody is subscribed to hands nothing over, and if it
ends, its ending is parked. -/
theorem parks (h : Steps o es o') (ho : o.status = .open) (hs : o.subscriber = none) :
    es = [] ∧ (o'.status = .open ∨ ∃ e, o'.status = .parked e) := by
  cases h with
  | refl => exact ⟨rfl, .inl ho⟩
  | send a hc => exact absurd (canSend_iff.mp hc).2.1 (by simp [hs])
  | finish e k =>
      obtain ⟨hst, hev⟩ := finish_of_open ho e
      obtain ⟨rfl, rfl⟩ := k.of_not_open (finish_isOpen o e)
      refine ⟨by simp [hev, hs, heardBy], .inr ⟨e, ?_⟩⟩
      rw [hst, hs]
      rfl

end Steps

end Supply

end ExternalSort
