/-
What a stream is still to give.

Whatever a consumer asks for and however often its source is not ready, a
stream over a list, a script or a file hands over the same items in the same
order and ends in the same way.  These items and this ending are the
course of the stream.  Driving it moves items from the course to the
consumer and does nothing else to it (`ForetoldProducer.course_drive`).
-/
import ExternalSort.Proofs.Stream.Commands
import ExternalSort.Stream.Listed
import ExternalSort.Stream.Scripted

namespace ExternalSort

/-- Items to come, and the ending after them. -/
@[ext]
structure Course (α : Type) where
  items : List α
  ending : Ending
deriving DecidableEq, Repr

namespace Course

variable {α : Type}

/-- The course that hands some items over first. -/
def after (as : List α) (c : Course α) : Course α := { c with items := as ++ c.items }

@[simp] theorem items_after (as : List α) (c : Course α) : (c.after as).items = as ++ c.items :=
  rfl

@[simp] theorem ending_after (as : List α) (c : Course α) : (c.after as).ending = c.ending := rfl

@[simp] theorem after_nil (c : Course α) : c.after [] = c := rfl

theorem after_append (as bs : List α) (c : Course α) :
    c.after (as ++ bs) = (c.after bs).after as := by
  ext1
  · simp
  · rfl

end Course

namespace Supply

variable {α : Type}

/-- A stream that has ended has nothing more to give. -/
def courseOr (o : Supply α) (c : Course α) : Course α :=
  match o.ending? with
  | some e => ⟨[], e⟩
  | none => c

theorem ending?_of_open {o : Supply α} (h : o.status = .open) : o.ending? = none := by
  simp [ending?, h]

theorem ending?_congr {o p : Supply α} (h : o.status = p.status) : o.ending? = p.ending? := by
  simp [ending?, h]

theorem ending?_finish {o : Supply α} (h : o.status = .open) (e : Ending) :
    (o.finish e).1.ending? = some e := by
  rw [ending?, (finish_of_open h e).1, raisedTo]
  cases o.subscriber <;> rfl

theorem courseOr_of_open {o : Supply α} (h : o.status = .open) (c : Course α) :
    o.courseOr c = c := by
  simp [courseOr, ending?_of_open h]

theorem courseOr_of_ended {o : Supply α} {e : Ending} (h : o.ending? = some e) (c : Course α) :
    o.courseOr c = ⟨[], e⟩ := by
  simp [courseOr, h]

theorem courseOr_congr {o p : Supply α} (h : o.status = p.status) (c : Course α) :
    o.courseOr c = p.courseOr c := by
  simp [courseOr, ending?_congr h]

end Supply

/-- A stream whose items and whose ending are settled from the start. -/
class ForetoldProducer (S : Type) (α : outParam Type) [Producer S α] extends
    OrderlyProducer S α where
  course : S → Course α
  /-- What a consumer does to the demand changes nothing of it. -/
  course_withSupply : ∀ (s : S) (o : Supply α), o.status = (Producer.supply s).status →
    course (Producer.withSupply s o) = course s
  course_drive : ∀ s : S, course s = (course (Producer.drive s).1).after
    (Event.items (Producer.drive s).2)
  course_ended : ∀ (s : S) (e : Ending), (Producer.supply s).ending? = some e →
    course s = ⟨[], e⟩

/-! ## Streams that are driven again and again -/

theorem Command.performAll_drives {S α : Type} [Producer S α] (s : S) (n : Nat) :
    performAll s (List.replicate n .drive) = Producer.driveTimes s n := by
  induction n generalizing s with
  | zero => rfl
  | succ n ih => simp only [List.replicate_succ, performAll, perform, Producer.driveTimes, ih]

theorem OrderlyProducer.driveTimes_steps {S α : Type} [Producer S α] [OrderlyProducer S α] (s : S)
    (n : Nat) : Supply.Steps (Producer.supply s) (Producer.driveTimes s n).2
      (Producer.supply (Producer.driveTimes s n).1) := by
  induction n generalizing s with
  | zero => exact .refl _
  | succ n ih => exact (drive_steps s).trans (ih _)

namespace ForetoldProducer

variable {S α : Type} [Producer S α] [ForetoldProducer S α]

theorem course_driveTimes (s : S) (n : Nat) : course s =
    (course (Producer.driveTimes s n).1).after (Event.items (Producer.driveTimes s n).2) := by
  induction n generalizing s with
  | zero => rfl
  | succ n ih =>
      rw [course_drive s, ih (Producer.drive s).1, ← Course.after_append, ← Event.items_append]
      rfl

theorem events_of_over {s : S} {n : Nat} (ho : (Producer.supply s).status = .open)
    (he : (Producer.supply (Producer.driveTimes s n).1).isOpen = false) :
    (Producer.driveTimes s n).2 = (course s).items.map .item ++
      Supply.heardBy (Producer.supply s).subscriber (course s).ending := by
  rcases (OrderlyProducer.driveTimes_steps s n).of_open ho with ⟨as, -, hs⟩ | ⟨as, e, hes, hs⟩
  · exact absurd he (by simp [Supply.isOpen, hs])
  · have hend : (Producer.supply (Producer.driveTimes s n).1).ending? = some e := by
      rw [Supply.ending?, hs, Supply.raisedTo]
      cases (Producer.supply s).subscriber <;> rfl
    rw [course_driveTimes s n, course_ended _ e hend, hes]
    simp

end ForetoldProducer

/-! ## Consumers that want everything -/

/-- A consumer that leaves the demand alone. -/
def Subscriber.IsQuiet {α : Type} (h : Subscriber α) : Prop := ∀ i a, h.react i a = []

/-- An open stream of which everything is wanted, for good. -/
structure Supply.Eager {α : Type} (o : Supply α) : Prop where
  status : o.status = .open
  demand : o.demand = .unlimited
  listens : ∃ h, o.subscriber = some h ∧ h.IsQuiet

namespace Supply.Eager

variable {α : Type} {o : Supply α}

theorem canSend (h : o.Eager) : o.canSend = true := by
  obtain ⟨s, hs, -⟩ := h.listens
  rw [canSend_iff, hs, h.demand]
  exact ⟨h.status, rfl, rfl⟩

theorem send (h : o.Eager) (a : α) : (o.send a).1.Eager := by
  obtain ⟨s, hs, hq⟩ := h.listens
  refine ⟨(send_status o a).trans h.status, ?_, s, (send_subscriber o a).trans hs, hq⟩
  rw [Supply.send, hs]
  dsimp only
  rw [hq, h.demand]
  rfl

end Supply.Eager

/-- A stream each drive of which brings it nearer to its end is over after
enough of them. -/
theorem OrderlyProducer.over_of_drives {S α : Type} [Producer S α] [OrderlyProducer S α]
    {left : S → Nat}
    (progress : ∀ s : S, (Producer.supply s).Eager →
      (Producer.supply (Producer.drive s).1).isOpen = false ∨
        (Producer.supply (Producer.drive s).1).Eager ∧ left (Producer.drive s).1 < left s)
    {s : S} (hs : (Producer.supply s).Eager) {n : Nat} (hn : left s < n) :
    (Producer.supply (Producer.driveTimes s n).1).isOpen = false := by
  induction n generalizing s with
  | zero => exact absurd hn (Nat.not_lt_zero _)
  | succ n ih =>
      rcases progress s hs with ho | ⟨he, hlt⟩
      · obtain ⟨-, hs⟩ := (driveTimes_steps (Producer.drive s).1 n).of_not_open ho
        exact (congrArg Supply.isOpen hs).trans ho
      · exact ih he (Nat.lt_of_lt_of_le hlt (Nat.le_of_lt_succ hn))

/-- Who subscribes to a foretold stream, asks for everything and drives it
often enough hears its whole course. -/
theorem ForetoldProducer.hears_course {S α : Type} [Producer S α] [ForetoldProducer S α]
    (left : S → Nat) (apart : ∀ s o, left (Producer.withSupply s o) = left s)
    (progress : ∀ s : S, (Producer.supply s).Eager →
      (Producer.supply (Producer.drive s).1).isOpen = false ∨
        (Producer.supply (Producer.drive s).1).Eager ∧ left (Producer.drive s).1 < left s)
    {s : S} (ho : (Producer.supply s).status = .open) {h : Subscriber α} (hq : h.IsQuiet)
    {n : Nat} (hn : left s ≤ n) :
    let r := Command.performAll s (.subscribe h :: .resume :: List.replicate n .drive)
    r.2 = (course s).items.map .item ++ Supply.endingEvents h (course s).ending ∧
      (Producer.supply r.1).isOpen = false := by
  obtain ⟨hsub, hst, hes⟩ := Supply.subscribe_of_open ho h
  generalize hu : Producer.changeDemand (Producer.subscribe s h).1 .unlimit = u
  have hrun : Command.performAll s (.subscribe h :: .resume :: List.replicate n .drive) =
      Producer.driveTimes u (n + 1) := by
    simp only [Command.performAll, Command.perform, Command.performAll_drives, Producer.resume, hu,
      Producer.driveTimes]
    rw [show (Producer.subscribe s h).2 = [] from hes, List.nil_append]
  have hsupply : Producer.supply u = { ((Producer.supply s).subscribe h).1 with
      demand := .unlimited } := by
    rw [← hu, OrderlyProducer.supply_changeDemand, OrderlyProducer.supply_subscribe]
    rfl
  have heager : (Producer.supply u).Eager := by
    rw [hsupply]
    exact ⟨hst, rfl, h, hsub, hq⟩
  have hcourse : course u = course s := by
    have hasked : course (Producer.changeDemand (Producer.subscribe s h).1 .unlimit) =
        course (Producer.subscribe s h).1 := course_withSupply (Producer.subscribe s h).1 _ rfl
    rw [← hu, hasked]
    exact course_withSupply s _ (hst.trans ho.symm)
  have hleft : left u = left s := by
    rw [← hu]
    exact (apart _ _).trans (apart _ _)
  have hover := OrderlyProducer.over_of_drives progress heager (n := n + 1) (by omega)
  have hevents := events_of_over heager.status hover
  rw [hcourse, hsupply, hsub] at hevents
  rw [hrun]
  exact ⟨hevents, hover⟩

/-! ## Streams that are driven turn by turn -/

section Turns

variable {σ α : Type} {turn : σ → Turn σ (Event α)} {size : σ → Nat}
  {shrinks : ∀ s, (turn s).again = true → size (turn s).state < size s}

theorem Turn.iterate_course {course : σ → Course α}
    (step : ∀ s, course s = (course (turn s).state).after (Event.items (turn s).events)) (s : σ) :
    course s = (course (Turn.iterate turn size shrinks s).1).after
      (Event.items (Turn.iterate turn size shrinks s).2) := by
  refine Turn.iterate_trace (R := fun s es t => course s = (course t).after (Event.items es))
    (fun _ => rfl) ?_ step s
  intro s t u es fs h k
  rw [h, k, Event.items_append, Course.after_append]

end Turns

/-! ## Lists -/

namespace ListStream

variable {α : Type}

def course (s : ListStream α) : Course α := s.supply.courseOr ⟨s.items, .ended⟩

theorem turn_steps (s : ListStream α) :
    Supply.Steps s.supply (turn s).events (turn s).state.supply := by
  rw [turn]
  split
  · exact .refl _
  split
  · exact .one_finish ..
  · split
    · exact .refl _
    · next h => exact .one_send (by simpa using h) _

theorem turn_course (s : ListStream α) :
    s.course = (turn s).state.course.after (Event.items (turn s).events) := by
  rw [turn]
  split
  · rfl
  next ho =>
    have ho : s.supply.status = .open := by simpa using ho
    split
    · next hi =>
      simp [course, Supply.courseOr_of_open ho, Supply.courseOr_of_ended
        (Supply.ending?_finish ho .ended), hi]
    · next a rest hi =>
      split
      · rfl
      · next hc =>
        have hc : s.supply.canSend = true := by simpa using hc
        simp only [course, Supply.courseOr_of_open ho, hi]
        rw [Supply.courseOr_of_open ((Supply.send_status _ _).trans ho), Supply.send_events hc]
        rfl

instance : ForetoldProducer (ListStream α) α where
  supply_changeDemand _ _ := rfl
  supply_subscribe _ _ := rfl
  drive_steps s := Turn.iterate_steps turn_steps s
  course := course
  course_withSupply _ _ h := Supply.courseOr_congr h _
  course_drive s := Turn.iterate_course turn_course s
  course_ended _ _ h := Supply.courseOr_of_ended h _

theorem turn_again : Turn.StopsWhenOver turn (supply (α := α)) := by
  intro s h
  revert h
  rw [turn]
  split
  · intro h
    exact absurd h (by simp [Turn.rest])
  next ho =>
    have ho : s.supply.status = .open := by simpa using ho
    split
    · intro h
      exact absurd h (by simp)
    split
    · intro h
      exact absurd h (by simp [Turn.rest])
    · intro _
      exact Supply.isOpen_iff.mpr ((Supply.send_status _ _).trans ho)

theorem lawful : (Command.conduct (items (α := α))).Lawful fun _ => True := by
  refine Command.lawful (fun _ _ _ _ => trivial) (fun _ _ => trivial) (fun _ _ => rfl) ?_
  intro s _ ho
  have ht : turn s = .rest s := by
    have hc : s.supply.isOpen = false := ho
    rw [turn, if_pos (by simp [hc])]
  show (drive s).1.items = s.items
  rw [drive, Turn.iterate_of_rest ht]

theorem course_ofList (items : List α) :
    ForetoldProducer.course (ListStream.ofList items) = ⟨items, .ended⟩ := rfl

end ListStream

/-! ## Scripts -/

/-- What a script hands over up to its end or its first failure. -/
def Cue.course {α : Type} : List (Cue α) → Course α
  | [] => ⟨[], .ended⟩
  | .item a :: cues => (course cues).after [a]
  | .rest :: cues => course cues
  | .fail e :: _ => ⟨[], .failed e⟩

namespace ScriptStream

variable {α : Type}

def course (s : ScriptStream α) : Course α := s.supply.courseOr (Cue.course s.cues)

theorem turn_steps (s : ScriptStream α) :
    Supply.Steps s.supply (turn s).events (turn s).state.supply := by
  rw [turn]
  split
  · exact .refl _
  split
  · exact .one_finish ..
  · exact .refl _
  · exact .one_finish ..
  · split
    · exact .refl _
    · next h => exact .one_send (by simpa using h) _

theorem turn_course (s : ScriptStream α) :
    s.course = (turn s).state.course.after (Event.items (turn s).events) := by
  rw [turn]
  split
  · rfl
  next ho =>
    have ho : s.supply.status = .open := by simpa using ho
    split
    · next hi =>
      simp [course, Supply.courseOr_of_open ho, Supply.courseOr_of_ended
        (Supply.ending?_finish ho .ended), hi, Cue.course]
    · next hi => simp [course, Supply.courseOr_of_open ho, hi, Cue.course, Turn.rest]
    · next e cues hi =>
      simp [course, Supply.fail, Supply.courseOr_of_open ho, Supply.courseOr_of_ended
        (Supply.ending?_finish ho (.failed e)), hi, Cue.course]
    · next a rest hi =>
      split
      · rfl
      · next hc =>
        have hc : s.supply.canSend = true := by simpa using hc
        simp only [course, Supply.courseOr_of_open ho, hi]
        rw [Supply.courseOr_of_open ((Supply.send_status _ _).trans ho), Supply.send_events hc]
        rfl

instance : ForetoldProducer (ScriptStream α) α where
  supply_changeDemand _ _ := rfl
  supply_subscribe _ _ := rfl
  drive_steps s := Turn.iterate_steps turn_steps { s with drives := s.drives + 1 }
  course := course
  course_withSupply _ _ h := Supply.courseOr_congr h _
  course_drive s := Turn.iterate_course turn_course { s with drives := s.drives + 1 }
  course_ended _ _ h := Supply.courseOr_of_ended h _

end ScriptStream

end ExternalSort
