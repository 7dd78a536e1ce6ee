/-
Reading frames does not depend on how the bytes arrive.

`Frame.course` reads frames from the content of a source in one go.  A stream
of frames reads in chunks, keeps what is not yet a whole frame, and rests
where the source does; its course is what reading in one go gives
(`FrameStream.course_ofSource`).
-/
import ExternalSort.Proofs.Bytes.Reading
import ExternalSort.Proofs.Stream.Course
import ExternalSort.Frame.Stream

namespace ExternalSort

/-! ## Frames in one go -/

namespace Frame

variable {α : Type}

theorem head_append_frame {bs payload rest : List UInt8} (h : head bs = .frame payload rest)
    (more : List UInt8) : head (bs ++ more) = .frame payload (rest ++ more) := by
  match bs, h with
  | a :: b :: c :: d :: tail, h =>
    simp only [head] at h
    simp only [List.cons_append, head]
    split at h
    · exact absurd h (by simp)
    next hm =>
      rw [if_neg hm]
      split at h
      · exact absurd h (by simp)
      next hl =>
        have hlen : ofBigEndian [a, b, c, d] ≤ tail.length := by
          simp only [List.length_take] at hl
          omega
        obtain ⟨rfl, rfl⟩ := Head.frame.inj h
        rw [List.take_append_of_le_length hlen, if_neg hl, List.drop_append_of_le_length hlen]

theorem head_append_tooLarge {bs : List UInt8} {length : Nat} (h : head bs = .tooLarge length)
    (more : List UInt8) : head (bs ++ more) = .tooLarge length := by
  match bs, h with
  | a :: b :: c :: d :: tail, h =>
    simp only [head] at h
    simp only [List.cons_append, head]
    split at h
    next hm =>
      rw [if_pos hm]
      exact h
    · split at h <;> exact absurd h (by simp)

/-- How a stream of frames ends where no whole frame is left: by the fault
of its source, or else by what is missing. -/
def shortEnding (expected length : Nat) (fault : Option Fault) : Ending :=
  match fault with
  | some f => .failed (.io f)
  | none => if length = 0 then .ended else .failed (.truncatedFrame expected length)

/-- All items of some bytes, and how a stream of them ends if a fault may
stand behind them. -/
def course (decode : List UInt8 → Except Cause α) (bs : List UInt8) (fault : Option Fault) :
    Course α :=
  match _h : head bs with
  | .frame payload rest =>
    match decode payload with
    | .ok a => (course decode rest fault).after [a]
    | .error c => ⟨[], .failed (.decoding c)⟩
  | .tooLarge length => ⟨[], .failed (.frameTooLarge length)⟩
  | .short expected => ⟨[], shortEnding expected bs.length fault⟩
termination_by bs.length
decreasing_by
  have := length_of_head_frame _h
  omega

variable {decode : List UInt8 → Except Cause α} {bs payload rest : List UInt8}
  {fault : Option Fault}

theorem course_frame {a : α} (h : head bs = .frame payload rest) (hd : decode payload = .ok a) :
    course decode bs fault = (course decode rest fault).after [a] := by
  rw [course]
  split
  · next h' =>
    obtain ⟨rfl, rfl⟩ := Head.frame.inj (h ▸ h')
    rw [hd]
  · next h' => exact absurd (h ▸ h') (by simp)
  · next h' => exact absurd (h ▸ h') (by simp)

theorem course_undecodable {c : Cause} (h : head bs = .frame payload rest)
    (hd : decode payload = .error c) : course decode bs fault = ⟨[], .failed (.decoding c)⟩ := by
  rw [course]
  split
  · next h' =>
    obtain ⟨rfl, rfl⟩ := Head.frame.inj (h ▸ h')
    rw [hd]
  · next h' => exact absurd (h ▸ h') (by simp)
  · next h' => exact absurd (h ▸ h') (by simp)

theorem course_tooLarge {length : Nat} (h : head bs = .tooLarge length) :
    course decode bs fault = ⟨[], .failed (.frameTooLarge length)⟩ := by
  rw [course]
  split
  · next h' => exact absurd (h ▸ h') (by simp)
  · next h' =>
    obtain rfl := Head.tooLarge.inj (h ▸ h')
    rfl
  · next h' => exact absurd (h ▸ h') (by simp)

theorem course_short {expected : Nat} (h : head bs = .short expected) :
    course decode bs fault = ⟨[], shortEnding expected bs.length fault⟩ := by
  rw [course]
  split
  · next h' => exact absurd (h ▸ h') (by simp)
  · next h' => exact absurd (h ▸ h') (by simp)
  · next h' =>
    obtain rfl := Head.short.inj (h ▸ h')
    rfl

theorem ending_ne_comparison (e : OrderError) :
    (course decode bs fault).ending ≠ .failed (.ofCompare e) := by
  fun_induction course decode bs fault with
  | case1 bs payload rest h a hd ih => exact ih
  | case2 bs payload rest h c hd => simp [Failure.ofCompare]
  | case3 bs length h => simp [Failure.ofCompare]
  | case4 bs expected h =>
      unfold shortEnding
      split
      · simp [Failure.ofCompare]
      · split <;> simp [Failure.ofCompare]

end Frame

/-! ## Frames on demand -/

namespace FrameStream

variable {α : Type}

/-- The bytes that are still to be made into items, and the fault that
stands behind them. -/
def content (r : FrameStream α) : List UInt8 × Option Fault :=
  if r.atEnd then (r.atHand, none)
  else (r.atHand ++ (Source.content r.source).1, (Source.content r.source).2)

def course (r : FrameStream α) : Course α :=
  r.supply.courseOr (Frame.course r.decode r.content.1 r.content.2)

/-- A stream of frames gives what reading its source in one go gives. -/
theorem course_ofSource (source : Source) (decode : List UInt8 → Except Cause α) (chunk : Nat) :
    course (.ofSource source decode chunk) =
      Frame.course decode (Source.content source).1 (Source.content source).2 := rfl

theorem deliver_steps {r : FrameStream α} (h : r.supply.canSend = true)
    {payload rest : List UInt8} (hh : Frame.head r.atHand = .frame payload rest) :
    Supply.Steps r.supply (r.deliver hh).events (r.deliver hh).state.supply := by
  rw [deliver]
  split
  · exact .one_finish ..
  · exact .one_send h _

theorem readMore_steps (r : FrameStream α) :
    Supply.Steps r.supply r.readMore.events r.readMore.state.supply := by
  obtain ⟨bs, source, -, hm⟩ | ⟨f, source, -, hm⟩ := r.readMore_cases
  · rw [hm]
    exact .refl _
  · rw [hm]
    split
    · exact .refl _
    · exact .one_finish ..

theorem conclude_steps (r : FrameStream α) (expected : Nat) :
    Supply.Steps r.supply (r.conclude expected).events (r.conclude expected).state.supply := by
  rw [conclude]
  split <;> exact .one_finish ..

theorem turn_steps (r : FrameStream α) :
    Supply.Steps r.supply (turn r).events (turn r).state.supply := by
  rw [turn]
  split
  · exact .refl _
  next hc =>
    have hc : r.supply.canSend = true := by simpa using hc
    split
    · exact deliver_steps hc _
    · exact .one_finish ..
    · split
      · exact conclude_steps ..
      · exact readMore_steps r

/-- What is behind a frame stays when the frame is taken off. -/
theorem head_content {r : FrameStream α} {payload rest : List UInt8}
    (hh : Frame.head r.atHand = .frame payload rest) :
    Frame.head r.content.1 = .frame payload (r.pass hh).content.1 ∧
      r.content.2 = (r.pass hh).content.2 := by
  have hend : (r.pass hh).atEnd = r.atEnd := rfl
  have hsource : (r.pass hh).source = r.source := rfl
  simp only [content, hend, hsource, atHand_pass]
  split
  · exact ⟨hh, rfl⟩
  · exact ⟨Frame.head_append_frame hh _, rfl⟩

section Open

variable {r : FrameStream α} (ho : r.supply.status = .open)
include ho

theorem course_of_open : r.course = Frame.course r.decode r.content.1 r.content.2 :=
  Supply.courseOr_of_open ho _

theorem fail_course {e : Failure} {q : FrameStream α} (hs : q.supply = r.supply)
    (h : r.course = ⟨[], .failed e⟩) :
    r.course = (q.fail e).state.course.after (Event.items (q.fail e).events) := by
  have hf : (q.fail e).state.course = ⟨[], .failed e⟩ :=
    Supply.courseOr_of_ended (Supply.ending?_finish (hs ▸ ho) _) _
  rw [hf, h]
  simp [fail]

theorem deliver_course (hc : r.supply.canSend = true) {payload rest : List UInt8}
    (hh : Frame.head r.atHand = .frame payload rest) :
    r.course = (r.deliver hh).state.course.after (Event.items (r.deliver hh).events) := by
  obtain ⟨h₁, h₂⟩ := head_content hh
  rw [deliver]
  split
  · next c hd =>
    refine fail_course ho (q := r.pass hh) rfl ?_
    rw [course_of_open ho, Frame.course_undecodable h₁ hd]
  · next a hd =>
    rw [course_of_open ho, Frame.course_frame h₁ hd, h₂]
    dsimp only
    rw [course_of_open ((Supply.send_status _ _).trans ho), Supply.send_events hc]
    rfl

omit ho in
/-- Reading on only moves bytes from the source to those at hand, unless it fails. -/
theorem readMore_content (he : r.atEnd = false) (h : r.readMore.state.supply.isOpen = true) :
    r.readMore.state.content = r.content := by
  have hcontent : r.content = (r.atHand ++ (Source.content r.source).1,
      (Source.content r.source).2) := by simp [content, he]
  obtain ⟨bs, source, hr, hm⟩ | ⟨f, source, hr, hm⟩ := r.readMore_cases
  · rw [hm, hcontent]
    cases bs with
    | nil =>
        obtain ⟨hnil, -⟩ := Source.content_read_nil r.chunk_pos hr
        rw [hnil]
        simp [content, refilled, atHand]
    | cons b bs =>
        rw [Source.content_read hr]
        simp [content, refilled, atHand, he]
  · have hf := Source.content_read_fault hr
    rw [hm] at h ⊢
    by_cases hk : f.kind = .wouldBlock
    · rw [if_pos hk] at hf
      rw [if_pos hk, hcontent, hf]
      simp [content, refilled, atHand, he, Turn.rest]
    · rw [if_neg hk] at h
      exact absurd (h.symm.trans (Supply.finish_isOpen _ _)) (by simp)

omit ho in
theorem readMore_goesOn (h : r.readMore.state.supply.isOpen = true) :
    r.readMore.state.supply = r.supply ∧ r.readMore.events = [] := by
  obtain ⟨bs, source, -, hm⟩ | ⟨f, source, -, hm⟩ := r.readMore_cases
  · rw [hm]
    exact ⟨rfl, rfl⟩
  · rw [hm] at h ⊢
    split at h
    · next hk =>
      rw [if_pos hk]
      exact ⟨rfl, rfl⟩
    · exact absurd (h.symm.trans (Supply.finish_isOpen _ _)) (by simp)

omit ho in
theorem readMore_decode (r : FrameStream α) : r.readMore.state.decode = r.decode := by
  obtain ⟨bs, source, -, hm⟩ | ⟨f, source, -, hm⟩ := r.readMore_cases
  · rw [hm]
    rfl
  · rw [hm]
    split <;> rfl

theorem readMore_course (he : r.atEnd = false) {expected : Nat}
    (hh : Frame.head r.atHand = .short expected) :
    r.course = r.readMore.state.course.after (Event.items r.readMore.events) := by
  cases hopen : r.readMore.state.supply.isOpen with
  | true =>
      obtain ⟨hs, hes⟩ := readMore_goesOn hopen
      rw [course_of_open ho, course_of_open (Supply.isOpen_iff.mp hopen), readMore_decode,
        readMore_content he hopen, hes]
      rfl
  | false =>
      obtain ⟨bs, source, hr, hm⟩ | ⟨f, source, hr, hm⟩ := r.readMore_cases
      · rw [hm] at hopen
        exact absurd ((Supply.isOpen_iff.mpr ho).symm.trans hopen) (by simp)
      · have hk : f.kind ≠ .wouldBlock := by
          intro hk
          rw [hm, if_pos hk] at hopen
          exact absurd ((Supply.isOpen_iff.mpr ho).symm.trans hopen) (by simp)
        have hf := Source.content_read_fault hr
        rw [if_neg hk] at hm hf
        rw [hm]
        refine fail_course ho rfl ?_
        rw [course_of_open ho, content, if_neg (by simp [he]), hf]
        simp only [List.append_nil]
        rw [Frame.course_short hh]
        rfl

theorem conclude_course (he : r.atEnd = true) {expected : Nat}
    (hh : Frame.head r.atHand = .short expected) :
    r.course = (r.conclude expected).state.course.after
      (Event.items (r.conclude expected).events) := by
  have hcourse : r.course = ⟨[], Frame.shortEnding expected r.atHand.length none⟩ := by
    rw [course_of_open ho]
    simp only [content, he, if_true]
    rw [Frame.course_short hh]
  rw [conclude]
  split
  · next hn =>
    have hf : course { r with supply := (r.supply.finish .ended).1 } = ⟨[], .ended⟩ :=
      Supply.courseOr_of_ended (Supply.ending?_finish ho _) _
    rw [hcourse]
    dsimp only
    rw [hf]
    simp [Frame.shortEnding, List.isEmpty_iff.mp hn]
  · next hn =>
    refine fail_course ho rfl ?_
    rw [hcourse, Frame.shortEnding, if_neg]
    simpa using hn

end Open

theorem turn_course (r : FrameStream α) :
    r.course = (turn r).state.course.after (Event.items (turn r).events) := by
  rw [turn]
  split
  · rfl
  next hc =>
    have hc : r.supply.canSend = true := by simpa using hc
    have ho := (Supply.canSend_iff.mp hc).1
    split
    · next hh => exact deliver_course ho hc hh
    · next length hh =>
      refine fail_course ho rfl ?_
      rw [course_of_open ho]
      refine Frame.course_tooLarge ?_
      rw [content]
      split
      · exact hh
      · exact Frame.head_append_tooLarge hh _
    · next hh =>
      split
      · next he => exact conclude_course ho he hh
      · next he => exact readMore_course ho (by simpa using he) hh

instance : ForetoldProducer (FrameStream α) α where
  supply_changeDemand _ _ := rfl
  supply_subscribe _ _ := rfl
  drive_steps r := Turn.iterate_steps turn_steps r
  course := course
  course_withSupply _ _ h := Supply.courseOr_congr h _
  course_drive r := Turn.iterate_course turn_course r
  course_ended _ _ h := Supply.courseOr_of_ended h _

/-! ## Ending once -/

theorem readMore_again {r : FrameStream α} (ho : r.supply.status = .open)
    (h : r.readMore.again = true) : r.readMore.state.supply.isOpen = true := by
  obtain ⟨bs, source, -, hm⟩ | ⟨f, source, -, hm⟩ := r.readMore_cases
  · rw [hm]
    exact Supply.isOpen_iff.mpr ho
  · rw [hm] at h
    split at h <;> exact absurd h (by simp [Turn.rest, fail])

theorem turn_again : Turn.StopsWhenOver turn (supply (α := α)) := by
  intro r h
  revert h
  rw [turn]
  split
  · intro h
    exact absurd h (by simp [Turn.rest])
  next hc =>
    have ho : r.supply.status = .open := (Supply.canSend_iff.mp (by simpa using hc)).1
    split
    · rw [deliver]
      split
      · intro h
        exact absurd h (by simp [fail])
      · intro _
        exact Supply.isOpen_iff.mpr ((Supply.send_status _ _).trans ho)
    · intro h
      exact absurd h (by simp [fail])
    · split
      · rw [conclude]
        split <;> exact fun h => absurd h (by simp [fail])
      · exact readMore_again ho

/-- What a stream of frames works on: everything but its supply. -/
def work (r : FrameStream α) : FrameStream α := { r with supply := {} }

theorem lawful : (Command.conduct (work (α := α))).Lawful fun _ => True := by
  refine Command.lawful (fun _ _ _ _ => trivial) (fun _ _ => trivial) (fun _ _ => rfl) ?_
  intro r _ ho
  have ht : turn r = .rest r := by
    have hc : r.supply.canSend = false := Supply.canSend_of_not_open ho
    rw [turn, if_pos (by simp [hc])]
  show work (drive r).1 = work r
  rw [drive, Turn.iterate_of_rest ht]

end FrameStream

end ExternalSort
