/-
Reading rows does not depend on how the bytes arrive.

The verdicts on its lines settle from the start what a source gives: its rows
and how they end (`Table.course`), whatever is asked for and when.

A source that rests inside a character loses the first part of it.  One that
does not has the same course as its bytes in one piece
(`course_ofBytes_bytes`): where a line is taken up again, what is there of it
was read as text, and text may be read in pieces.
-/
import ExternalSort.Proofs.Stream.Course
import ExternalSort.Proofs.Table.Lines
import ExternalSort.Proofs.Table.Rows

namespace ExternalSort.Table

variable {columns : List String} {n : Nat} {line : String} {read : LineRead}

/-! ## The course of a source -/

/-- How much is still to be read behind the beginning of a line. -/
def toRead (line : String) (s : Source) : Nat :=
  2 * s.faults + s.bytes.length + (if line.isEmpty then 0 else 1)

theorem toRead_of_wait {s : Source} {rest : String}
    (h : judge columns n line (readLine s).1 = .wait rest) :
    toRead rest (readLine s).2 < toRead line s := by
  obtain ⟨f, hf, -⟩ := fault_of_wait h
  have hs := readLine_faults s
  have hb := congrArg List.length (readLine_bytes s)
  simp only [hf, Option.toList_some, List.length_cons, List.length_nil, List.length_append]
    at hs hb
  have hflag : (if rest.isEmpty then 0 else 1) ≤ 1 := by split <;> omega
  unfold toRead
  omega

theorem toRead_of_line {s : Source} {v : Verdict} (h : judge columns n line (readLine s).1 = v)
    (hw : ∀ rest, v ≠ .wait rest) (ho : ∀ e, v ≠ .ending e) :
    toRead "" (readLine s).2 < toRead line s := by
  obtain ⟨hf, he⟩ := fault_of_line h hw ho
  have hs := readLine_faults s
  have hb := congrArg List.length (readLine_bytes s)
  simp only [hf, Option.toList_none, List.length_nil, List.length_append] at hs hb
  have hsome : 0 < (readLine s).1.bytes.length + (if line.isEmpty then 0 else 1) := by
    cases hr : (readLine s).1.bytes with
    | cons b bs =>
        rw [List.length_cons]
        omega
    | nil =>
        rw [hr] at he
        rw [if_neg (by simpa using he)]
        exact Nat.one_pos
  unfold toRead
  rw [if_pos (by rfl)]
  omega

/-- The rows of a source, behind `n` lines and the beginning of another one, and
how they end. -/
def course (columns : List String) (n : Nat) (line : String) (s : Source) : Course Row :=
  match _h : judge columns n line (readLine s).1 with
  | .wait line => course columns n line (readLine s).2
  | .ending e => ⟨[], e⟩
  | .blank => course columns (n + 1) "" (readLine s).2
  | .row row => (course columns (n + 1) "" (readLine s).2).after [row]
termination_by toRead line s
decreasing_by
  · exact toRead_of_wait _h
  · exact toRead_of_line _h (by simp) (by simp)
  · exact toRead_of_line _h (by simp) (by simp)

/-- What goes on after a verdict on the line behind `n` others, if `k` is what
comes behind so many lines and the beginning of one. -/
def Verdict.lead (n : Nat) (k : Nat → String → Course Row) : Verdict → Course Row
  | wait line => k n line
  | ending e => ⟨[], e⟩
  | blank => k (n + 1) ""
  | row r => (k (n + 1) "").after [r]

theorem course_eq (columns : List String) (n : Nat) (line : String) (s : Source) :
    course columns n line s = (judge columns n line (readLine s).1).lead n
      fun n line => course columns n line (readLine s).2 := by
  rw [course]
  split <;> next h => rw [h]; rfl

theorem course_congr {s s' : Source} (h : readLine s = readLine s') :
    course columns n line s = course columns n line s' := by
  rw [course_eq, h, ← course_eq]

/-! ## Sources in pieces -/

theorem judge_of_rest {read : LineRead} {f : Fault} (hf : read.fault = some f)
    (hk : f.kind = .wouldBlock) {text : String} (ht : Text.text? read.bytes = some text) :
    judge columns n line read = .wait (line ++ text) := by
  rw [judge, hf]
  simp [hk, ht]

theorem judge_begun {bs more : List UInt8} {text : String} (ht : Text.text? bs = some text) :
    judge columns n line { bytes := bs ++ more } =
      judge columns n (line ++ text) { bytes := more } := by
  cases bs with
  | nil =>
      obtain rfl := Option.some.inj (Text.text?_nil.symm.trans ht)
      rw [String.append_empty, List.nil_append]
  | cons b bs =>
      -- Something has begun the line, so it is not the end of the source.
      have hne : (line ++ text).isEmpty = false := by
        rw [Bool.eq_false_iff]
        intro he
        obtain ⟨-, rfl⟩ := String.append_eq_empty_iff.mp (String.isEmpty_iff.mp he)
        exact absurd (Text.text?_eq_empty ht) (by simp)
      simp only [judge, Text.text?_append ht, hne]
      cases Text.text? more with
      | none => rfl
      | some u => simp [String.append_assoc]

theorem course_begun {bs more : List UInt8} {text : String} (hc : cutLine bs = none)
    (ht : Text.text? bs = some text) : course columns n line (.ofBytes (bs ++ more)) =
      course columns n (line ++ text) (.ofBytes more) := by
  rw [course_eq, course_eq columns n (line ++ text)]
  have hcut := cutLine_append_of_none hc more
  cases hm : cutLine more with
  | none =>
      rw [hm] at hcut
      rw [readLine_ofBytes_of_none hcut, readLine_ofBytes_of_none hm, judge_begun ht]
  | some p =>
      obtain ⟨l, rest⟩ := p
      rw [hm] at hcut
      rw [readLine_ofBytes_of_some hcut, readLine_ofBytes_of_some hm, judge_begun ht]

/-- A source that rests between characters has the course of its bytes. -/
theorem course_ofBytes_bytes {held : List UInt8} {s : Source} (h : RestsInText held s)
    (ht : Text.text? held = some line) :
    course columns n line s = course columns n line (.ofBytes s.bytes) := by
  -- Where a line is read to its end, all goes on behind it as it would have.
  have hline : ∀ {n line s}, (readLine s).1.fault = none →
      course columns n line (readLine (.ofBytes (Source.bytes s))).2 =
        course columns n line (.ofBytes (readLine s).2.bytes) := by
    intro n line s hf
    exact course_congr (readLine_ofBytes_bytes hf).2
  fun_induction course columns n line s generalizing held with
  | case1 n line s rest hj ih =>
      obtain ⟨f, hf, -⟩ := fault_of_wait hj
      obtain ⟨hk, hsome, hrest⟩ := h.pause hf
      rw [Text.text?_append ht, Option.isSome_map] at hsome
      obtain ⟨text, htext⟩ := Option.isSome_iff_exists.mp hsome
      obtain rfl := Verdict.wait.inj (hj.symm.trans (judge_of_rest hf hk htext))
      have hc : cutLine (readLine s).1.bytes = none := by
        rcases readLine_cases s with ⟨-, -, hc⟩ | ⟨hn, -⟩
        · exact hc
        · exact absurd (hn.symm.trans hf) (by simp)
      rw [ih hrest (by rw [Text.text?_append ht, htext]; rfl), readLine_bytes s,
        course_begun hc htext]
  | case2 n line s e hj =>
      have hf : (readLine s).1.fault = none := by
        cases hf : (readLine s).1.fault with
        | none => rfl
        | some f =>
            rw [judge, hf] at hj
            exact absurd (hj.symm.trans (if_pos (h.pause hf).1)) (by simp)
      rw [course_eq, (readLine_ofBytes_bytes hf).1, hj]
      rfl
  | case3 n line s hj ih =>
      obtain ⟨hf, -⟩ := fault_of_line hj (by simp) (by simp)
      rw [ih (h.next hf) Text.text?_nil, ← hline hf, course_eq columns n line,
        (readLine_ofBytes_bytes hf).1, hj]
      rfl
  | case4 n line s row hj ih =>
      obtain ⟨hf, -⟩ := fault_of_line hj (by simp) (by simp)
      rw [ih (h.next hf) Text.text?_nil, ← hline hf, course_eq columns n line,
        (readLine_ofBytes_bytes hf).1, hj]
      rfl

/-! ## Streams of rows -/

namespace RowStream

/-- What a stream of rows is still to give. -/
def course (r : RowStream) : Course Row :=
  r.supply.courseOr (Table.course r.columns r.lineNumber r.line r.source)

theorem turn_course (r : RowStream) :
    r.course = (turn r).state.course.after (Event.items (turn r).events) := by
  rcases turn_cases r with ⟨-, ht⟩ | ⟨hc, v, hv, hh⟩
  · rw [ht]
    rfl
  · have ho := (Supply.canSend_iff.mp hc).1
    rw [course, Supply.courseOr_of_open ho, course_eq, hv]
    generalize turn r = t at hh ⊢
    cases hh with
    | wait line => exact (Supply.courseOr_of_open ho _).symm
    | ending line n e =>
        rw [course, Supply.courseOr_of_ended (Supply.ending?_finish ho e)]
        simp [Verdict.lead]
    | blank => exact (Supply.courseOr_of_open ho _).symm
    | row row =>
        rw [course, Supply.courseOr_of_open ((Supply.send_status _ _).trans ho),
          Supply.send_events hc]
        rfl

instance : ForetoldProducer RowStream Row where
  course := course
  course_withSupply _ _ h := Supply.courseOr_congr h _
  course_drive r := Turn.iterate_course turn_course r
  course_ended _ _ h := Supply.courseOr_of_ended h _

/-- Where everything is wanted, a drive comes to the end or past a fault. -/
theorem drive_progress (r : RowStream) (h : r.supply.Eager) :
    (drive r).1.supply.isOpen = false ∨
      (drive r).1.supply.Eager ∧ (drive r).1.source.faults < r.source.faults := by
  refine Turn.iterate_last
    (P := fun t _ => t.supply.Eager ∧ t.source.faults ≤ r.source.faults)
    (Q := fun t _ => t.supply.isOpen = false ∨
      t.supply.Eager ∧ t.source.faults < r.source.faults) ?_ ?_ r ⟨h, Nat.le_refl _⟩
  · rintro t - ⟨he, hle⟩ ha
    have hs := readLine_faults t.source
    rcases turn_cases t with ⟨hc, -⟩ | ⟨-, v, -, hh⟩
    · exact absurd (he.canSend.symm.trans hc) (by simp)
    · generalize turn t = u at ha hh ⊢
      cases hh with
      | wait line => exact absurd ha (by simp)
      | ending line n e => exact absurd ha (by simp)
      | blank => exact ⟨he, by dsimp only; omega⟩
      | row row => exact ⟨he.send row, by dsimp only; omega⟩
  · rintro t - ⟨he, hle⟩ ha
    have hs := readLine_faults t.source
    rcases turn_cases t with ⟨hc, -⟩ | ⟨-, v, hv, hh⟩
    · exact absurd (he.canSend.symm.trans hc) (by simp)
    · generalize turn t = u at ha hh ⊢
      cases hh with
      | wait line =>
          obtain ⟨f, hf, -⟩ := fault_of_wait hv
          rw [hf] at hs
          refine .inr ⟨he, ?_⟩
          simp only [Option.toList_some, List.length_singleton] at hs
          dsimp only [Turn.rest]
          omega
      | ending line n e => exact .inl (Supply.finish_isOpen _ _)
      | blank => exact absurd ha (by simp)
      | row row => exact absurd ha (by simp)

end RowStream

/-! ## All ways of delivering a table -/

/-- Whoever wants everything and drives a stream of rows as often as its source
fails hears the same rows, and the same ending after them, as if the bytes
came in one read, provided the source fails only by not being ready, and
never inside a character or behind what is no text. -/
theorem rows_of_any_delivery (columns : List String) {h : Subscriber Row} (hq : h.IsQuiet)
    {s : Source} (hs : RestsInText [] s) {drives : Nat} (hd : s.faults ≤ drives) :
    let run (s : Source) (drives : Nat) := Command.performAll ({ source := s, columns } : RowStream)
      (.subscribe h :: .resume :: List.replicate drives .drive)
    (run s drives).2 = (run (.ofBytes s.bytes) 0).2 ∧
      (run s drives).1.supply.isOpen = false ∧ (run (.ofBytes s.bytes) 0).1.supply.isOpen = false := by
  intro run
  have hears : ∀ {s : Source} {drives : Nat}, s.faults ≤ drives →
      (run s drives).2 = (course columns 1 "" s).items.map .item ++
          Supply.endingEvents h (course columns 1 "" s).ending ∧
        (run s drives).1.supply.isOpen = false := by
    intro s drives hd
    exact ForetoldProducer.hears_course (fun r : RowStream => r.source.faults) (fun _ _ => rfl)
      RowStream.drive_progress (s := { source := s, columns }) rfl hq hd
  obtain ⟨hevents, hover⟩ := hears hd
  obtain ⟨hwhole, hover'⟩ :=
    hears (show (Source.ofBytes s.bytes).faults ≤ 0 from Nat.le_refl _)
  refine ⟨?_, hover, hover'⟩
  rw [hevents, hwhole, course_ofBytes_bytes hs Text.text?_nil]

/-- A source that is interrupted and rests in the middle of a line, behind a
character of two bytes, gives the row that it gives at once. -/
theorem row_of_rest_between_characters :
    let s : Source :=
      [.data [0xC3, 0xA9], .fault .wouldBlock, .interrupt, .data [0x0A, 0x31], .fault .wouldBlock]
    let run (s : Source) (drives : Nat) :=
      Command.performAll ({ source := s, columns := ["k"] } : RowStream)
        (.subscribe {} :: .resume :: List.replicate drives .drive)
    ({} : Subscriber Row).IsQuiet ∧ RestsInText [] s ∧ s.faults ≤ 2 ∧
      (run s 2).2 = (run (.ofBytes s.bytes) 0).2 ∧
      (run s 2).2 = [.item (.ofList [("k", .text "é")]), .item (.ofList [("k", .int 1)]),
        .ending .ended] := by
  intro s run
  have hq : ({} : Subscriber Row).IsQuiet := fun _ _ => rfl
  have hs : RestsInText [] s := ⟨rfl, by decide +kernel, rfl, by decide +kernel, trivial⟩
  have hd : s.faults ≤ 2 := by decide
  exact ⟨hq, hs, hd, (rows_of_any_delivery ["k"] hq hs hd).1, by decide +kernel⟩

/-- A source that rests between the two bytes of a character loses the first of
them, and with it the row that it gives at once. -/
theorem row_lost_by_rest_inside_character :
    let s : Source := [.data [0xC3], .fault .wouldBlock, .data [0xA9, 0x0A]]
    let run (s : Source) (drives : Nat) :=
      Command.performAll ({ source := s, columns := ["k"] } : RowStream)
        (.subscribe {} :: .resume :: List.replicate drives .drive)
    (run s 1).2 = [.ending (.failed (.io Fault.notText))] ∧
      (run (.ofBytes s.bytes) 0).2 = [.item (.ofList [("k", .text "é")]), .ending .ended] := by
  intro s run
  exact ⟨by decide +kernel, by decide +kernel⟩

end ExternalSort.Table
