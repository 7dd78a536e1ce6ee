/-
What is heard of a stream whose course is settled.

Whatever its consumers do, what they have heard so far is the beginning of the
course (`ForetoldProducer.heard_prefix`).  Once somebody subscribes, asks for
everything and drives the stream often enough, the whole course was heard
(`ForetoldProducer.heard_whole`), provided that whoever subscribed earlier did
not ignore the ending: an ending is raised once, and who is not told of it
then is never told.
-/
import ExternalSort.Proofs.Stream.Course

namespace ExternalSort

/-- What is heard of a course by who hears of its ending, too. -/
def Course.events {α : Type} (c : Course α) : List (Event α) :=
  c.items.map .item ++ [.ending c.ending]

@[simp] theorem Course.items_events {α : Type} (c : Course α) : Event.items c.events = c.items := by
  simp [events]

@[simp] theorem Course.endingOf_events {α : Type} (c : Course α) :
    Event.endingOf c.events = some c.ending := by
  rw [Event.endingOf_eq_head?, events, Event.endings_append, Event.endings_items]
  rfl

/-! ## Endings that nobody ignores -/

namespace Supply

variable {α : Type} {o o' : Supply α} {es fs : List (Event α)} {m : Move α} {e : Ending}

theorem Moved.ne_closed (k : Moved o m es o') (hm : m ≠ .close) (ho : o.status ≠ .closed) :
    o'.status ≠ .closed := by
  cases m with
  | subscribe h =>
      rcases k.subscribe_cases with ⟨-, hs⟩ | ⟨e, -, -, hs⟩
      · rwa [hs]
      · simp [hs]
  | work =>
      cases hopen : o.isOpen with
      | false => rwa [(k.work_of_not_open hopen).2]
      | true =>
          obtain ⟨d, k⟩ := k
          rcases k.of_open (isOpen_iff.mp hopen) with ⟨as, -, hs⟩ | ⟨as, e, -, hs⟩
          · simp [hs]
          · rw [hs, raisedTo]
            split <;> simp
  | close => exact absurd rfl hm

/-- Who is subscribed wants to hear of the ending `e`, and if it was raised, it
was heard. -/
structure Announced (e : Ending) (es : List (Event α)) (o : Supply α) : Prop where
  listens : ∀ h, o.subscriber = some h → h.hears e = true
  heard : o.status = .over e → .ending e ∈ es

/-- If everybody who subscribes wants to hear of an ending, it is heard when it
is raised. -/
theorem Announced.move (h : Announced e es o) (k : Moved o m fs o')
    (hm : ∀ h, m = .subscribe h → h.hears e = true) : Announced e (es ++ fs) o' := by
  cases m with
  | subscribe s =>
      have hs := hm s rfl
      have hsub : ∀ t, o'.subscriber = some t → t.hears e = true := by
        have k : o.subscribe s = (o', fs) := k
        intro t ht
        rw [subscribe] at k
        split at k <;> obtain ⟨rfl, -⟩ := Prod.mk.inj k
        · exact Option.some.inj ht ▸ hs
        · exact Option.some.inj ht ▸ hs
        · exact Option.some.inj ht ▸ hs
        · exact h.listens _ ht
      refine ⟨hsub, ?_⟩
      intro ho
      rcases k.subscribe_cases with ⟨rfl, hst⟩ | ⟨e', -, rfl, hst⟩
      · rw [List.append_nil]
        exact h.heard (hst.symm.trans ho)
      · obtain rfl : e' = e := Status.over.inj (hst.symm.trans ho)
        simp [endingEvents, hs]
  | work =>
      obtain ⟨d, k⟩ := k
      have hsub : o'.subscriber = o.subscriber := k.subscriber_eq
      refine ⟨fun s hs => h.listens s (hsub ▸ hs), ?_⟩
      intro ho
      cases hopen : o.isOpen with
      | false =>
          obtain ⟨rfl, rfl⟩ := k.of_not_open (o := { o with demand := d }) hopen
          exact List.mem_append_left _ (h.heard ho)
      | true =>
          rcases k.of_open (isOpen_iff.mp hopen) with ⟨as, -, hst⟩ | ⟨as, e', rfl, hst⟩
          · exact absurd (hst.symm.trans ho) (by simp)
          · rw [ho, raisedTo] at hst
            dsimp only at hst ⊢
            cases hs : o.subscriber with
            | none => exact absurd hst (by simp [hs])
            | some s =>
                obtain rfl : e = e' := by simpa [hs] using hst
                simp [heardBy, endingEvents, h.listens s hs]
  | close =>
      obtain ⟨rfl, rfl⟩ := k
      exact ⟨fun _ hs => absurd hs (by simp [closed]), fun ho => absurd ho (by simp [closed])⟩

end Supply

/-! ## Histories of commands -/

namespace Command

variable {S α : Type} [Producer S α]

open Producer

theorem performAll_append (s : S) (cs ds : List (Command α)) :
    performAll s (cs ++ ds) = ((performAll (performAll s cs).1 ds).1,
      (performAll s cs).2 ++ (performAll (performAll s cs).1 ds).2) := by
  simp only [performAll_eq, actAll_append]

theorem move_ne_close (c : Command α) : c.move ≠ .close := by
  cases c <;> simp [move]

theorem eq_subscribe {c : Command α} {h : Subscriber α} (hc : c.move = .subscribe h) :
    c = .subscribe h := by
  cases c with
  | subscribe k => exact congrArg Command.subscribe (Move.subscribe.inj hc)
  | _ => exact absurd hc (by simp [move])

variable [OrderlyProducer S α] {s : S} {es : List (Event α)} {e : Ending} {cs : List (Command α)}

theorem ne_closed (ho : (supply s).status ≠ .closed) (cs : List (Command α)) :
    (supply (performAll s cs).1).status ≠ .closed := by
  induction cs generalizing s with
  | nil => exact ho
  | cons c cs ih => exact ih ((moved s c).ne_closed c.move_ne_close ho)

theorem told (h : Supply.Told es (supply s)) (cs : List (Command α)) :
    Supply.Told (es ++ (performAll s cs).2) (supply (performAll s cs).1) := by
  rw [performAll_eq]
  exact actAll_induction (P := fun s es => Supply.Told es (supply s))
    (fun s c _ h => h.move (moved s c)) h cs

theorem announced (h : Supply.Announced e es (supply s))
    (hcs : ∀ k, .subscribe k ∈ cs → k.hears e = true) :
    Supply.Announced e (es ++ (performAll s cs).2) (supply (performAll s cs).1) := by
  induction cs generalizing s es with
  | nil => simpa [performAll] using h
  | cons c cs ih =>
      have hc := h.move (moved s c) fun k hk =>
        hcs k (List.mem_cons.mpr (.inl (eq_subscribe hk).symm))
      have hall := ih hc fun k hk => hcs k (List.mem_cons_of_mem c hk)
      rwa [List.append_assoc] at hall

theorem performAll_of_not_open (ho : (supply s).isOpen = false)
    (hcs : ∀ c ∈ cs, c.move = .work) :
    (performAll s cs).2 = [] ∧ (supply (performAll s cs).1).isOpen = false := by
  induction cs generalizing s with
  | nil => exact ⟨rfl, ho⟩
  | cons c cs ih =>
      obtain ⟨hc, hcs⟩ := List.forall_mem_cons.mp hcs
      have hm := moved s c
      rw [hc] at hm
      obtain ⟨hes, hst⟩ := hm.work_of_not_open ho
      obtain ⟨hfs, hover⟩ := ih (s := (perform s c).1) (by simpa [Supply.isOpen, hst] using ho) hcs
      refine ⟨?_, hover⟩
      rw [performAll]
      dsimp only
      rw [hes, hfs, List.nil_append]

/-- Who subscribes to a stream that is over hears of the ending if it is parked,
and of nothing else. -/
theorem performAll_subscribe_of_not_open (ho : (supply s).isOpen = false) (h : Subscriber α)
    (hcs : ∀ c ∈ cs, c.move = .work) :
    (performAll s (.subscribe h :: cs)).2 = ((supply s).subscribe h).2 ∧
      (supply (performAll s (.subscribe h :: cs)).1).isOpen = false := by
  have hsub : (supply (Producer.subscribe s h).1).isOpen = false := by
    rw [OrderlyProducer.supply_subscribe, Supply.isOpen_subscribe, ho]
  obtain ⟨hes, hover⟩ := performAll_of_not_open hsub hcs
  refine ⟨?_, hover⟩
  rw [performAll]
  dsimp only [perform]
  rw [hes, List.append_nil]
  rfl

theorem work_of_driving (n : Nat) :
    ∀ c ∈ .resume :: List.replicate n (.drive : Command α), c.move = .work := by
  intro c hc
  rcases List.mem_cons.mp hc with rfl | hc
  · rfl
  · rw [List.eq_of_mem_replicate hc]
    rfl

end Command

/-! ## Streams with a course -/

namespace ForetoldProducer

variable {S α : Type} [Producer S α] [ForetoldProducer S α] {s : S} {cs : List (Command α)}

open Producer Command

theorem course_subscribe (s : S) (h : Subscriber α) :
    course (Producer.subscribe s h).1 = course s := by
  have hsupply := OrderlyProducer.supply_subscribe s h
  cases he : (supply s).ending? with
  | none =>
      refine course_withSupply s _ ?_
      have k : (supply s).Moved (.subscribe h) ((supply s).subscribe h).2
        ((supply s).subscribe h).1 := rfl
      rcases k.subscribe_cases with ⟨-, hs⟩ | ⟨e, hs, -, -⟩
      · exact hs
      · simp [Supply.ending?, hs] at he
  | some e =>
      rw [course_ended s e he]
      refine course_ended _ e ?_
      rw [hsupply, Supply.ending?_subscribe, he]

theorem course_performAll (s : S) (cs : List (Command α)) :
    course s = (course (performAll s cs).1).after (Event.items (performAll s cs).2) := by
  refine performAll_induction (P := fun t es => course s = (course t).after (Event.items es))
    ?_ ?_ ?_ rfl cs
  · intro t h es ht
    have k : (supply t).Moved (.subscribe h) (Producer.subscribe t h).2 _ := rfl
    rw [Event.items_append, k.items_subscribe, List.append_nil, course_subscribe, ht]
  · intro t d es ht
    rw [ht]
    have hd : course (changeDemand t d) = course t := course_withSupply t _ rfl
    rw [hd]
  · intro t es ht
    rw [ht, course_drive t, Event.items_append, Course.after_append]

/-- What is heard of a stream up to now is the beginning of its course. -/
theorem heard_prefix (ho : (supply s).status = .open) (cs : List (Command α)) :
    (performAll s cs).2 <+: (course s).events := by
  have htold := told (.nil (supply s)) cs
  have hcourse := course_performAll s cs
  have hclosed := ne_closed (s := s) (by simp [ho]) cs
  rw [List.nil_append] at htold
  obtain ⟨as, e, hes⟩ := htold.settled
  rw [hes, Event.items_append, Event.items_items] at hcourse
  cases e with
  | none =>
      rw [hes, hcourse, Course.events]
      simp
  | some e =>
      have hend := htold.ending?_eq hclosed (e := e) (by rw [hes]; simp [Event.mem_endings])
      rw [course_ended _ e hend] at hcourse
      rw [hes, hcourse, Course.events]
      simp

/-- Whoever subscribes to a stream, asks for everything and drives it often
enough, at whatever moment, is told what is left of its course, so that the whole
of it was heard. -/
theorem heard_whole (left : S → Nat) (apart : ∀ s o, left (withSupply s o) = left s)
    (progress : ∀ s : S, (supply s).Eager → (supply (drive s).1).isOpen = false ∨
      (supply (drive s).1).Eager ∧ left (drive s).1 < left s)
    (ho : (supply s).status = .open) (hunheard : (supply s).subscriber = none)
    (hcs : ∀ k, .subscribe k ∈ cs → k.hears (course s).ending = true)
    {h : Subscriber α} (hq : h.IsQuiet) (hh : h.hears (course s).ending = true) {n : Nat}
    (hn : left (performAll s cs).1 ≤ n) :
    let r := performAll s (cs ++ .subscribe h :: .resume :: List.replicate n .drive)
    r.2 = (course s).events ∧ (supply r.1).isOpen = false := by
  intro r
  generalize hs₁ : (performAll s cs).1 = s₁ at hn
  generalize hes : (performAll s cs).2 = es
  have hr : r = ((performAll s₁ (.subscribe h :: .resume :: List.replicate n .drive)).1,
      es ++ (performAll s₁ (.subscribe h :: .resume :: List.replicate n .drive)).2) := by
    rw [← hs₁, ← hes]
    exact performAll_append s cs _
  have htold : Supply.Told es (supply s₁) := by
    rw [← hs₁, ← hes]
    exact told (.nil (supply s)) cs
  have hcourse : course s = (course s₁).after (Event.items es) := by
    rw [← hs₁, ← hes]
    exact course_performAll s cs
  have hend : ∀ {e}, (supply s₁).ending? = some e → course s = ⟨Event.items es, e⟩ := by
    intro e he
    rw [hcourse, course_ended s₁ e he, Course.after, List.append_nil]
  rw [hr]
  cases hst : (supply s₁).status with
  | «open» =>
      obtain ⟨hfs, hdone⟩ := hears_course left apart progress hst hq hn
      obtain ⟨as, rfl⟩ := htold.items_only (.inl hst)
      refine ⟨?_, hdone⟩
      rw [hcourse] at hh ⊢
      rw [Course.ending_after] at hh
      simp [hfs, Course.events, Supply.endingEvents, hh]
  | parked e =>
      obtain ⟨hfs, hdone⟩ := performAll_subscribe_of_not_open (s := s₁) (by simp [Supply.isOpen, hst])
        h (work_of_driving n)
      obtain ⟨as, rfl⟩ := htold.items_only (.inr ⟨e, hst⟩)
      refine ⟨?_, hdone⟩
      rw [hend (e := e) (by simp [Supply.ending?, hst])] at hh ⊢
      simp [hfs, Supply.subscribe, hst, Course.events, Supply.endingEvents, hh]
  | «over» e =>
      obtain ⟨hfs, hdone⟩ := performAll_subscribe_of_not_open (s := s₁) (by simp [Supply.isOpen, hst])
        h (work_of_driving n)
      have hend := hend (e := e) (by simp [Supply.ending?, hst])
      -- The ending was raised before, so it was heard before.
      have hann : Supply.Announced e es (supply s₁) := by
        have hnew : Supply.Announced e [] (supply s) :=
          ⟨fun k hk => absurd hk (by simp [hunheard]), fun hs => absurd hs (by simp [ho])⟩
        rw [← hs₁, ← hes]
        exact announced hnew (by simpa [hend] using hcs)
      have hmem := hann.heard hst
      refine ⟨?_, hdone⟩
      rw [hend]
      obtain ⟨as, f, rfl⟩ := htold.settled
      cases f with
      | none => exact absurd hmem (by simp)
      | some f =>
          obtain rfl : e = f := by simpa using hmem
          simp [hfs, Supply.subscribe, hst, Course.events]
  | closed =>
      have hclosed := ne_closed (s := s) (by simp [ho]) cs
      exact absurd hst (hs₁ ▸ hclosed)

end ForetoldProducer

end ExternalSort
