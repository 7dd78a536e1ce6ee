/-
A stream of rows deals with its supply in order.

What a line that was read means for a stream of rows is its `Verdict`, and a
turn does no more than heed it (`RowStream.turn_cases`): it takes a line as far
as it has come, ends its supply, passes over a blank line, or hands over the
row of a line.
-/
import ExternalSort.Proofs.Stream.Commands
import ExternalSort.Proofs.Text.Utf8
import ExternalSort.Table.Rows

namespace ExternalSort.Table

/-! ## Verdicts -/

/-- What a line that was read means for a stream of rows. -/
inductive Verdict where
  /-- The source is not ready, and this is what there is of the line. -/
  | wait (line : String)
  | ending (e : Ending)
  | blank
  | row (r : Row)

/-- The verdict on a whole line behind `n` others. -/
def judgeLine (columns : List String) (n : Nat) (line : String) : Verdict :=
  if (lineText line.toList).isEmpty then .blank
  else
    match RowStream.parseRow columns (n + 1) line with
    | .error f => .ending (.failed (.io f))
    | .ok row => .row row

/-- The verdict on what was read behind the beginning of a line. -/
def judge (columns : List String) (n : Nat) (line : String) (read : LineRead) : Verdict :=
  match read.fault with
  | some f =>
    if f.kind = .wouldBlock then .wait (line ++ (Text.text? read.bytes).getD "")
    else .ending (.failed (.io f))
  | none =>
    match Text.text? read.bytes with
    | none => .ending (.failed (.io Fault.notText))
    | some text =>
      if read.bytes.isEmpty && line.isEmpty then .ending .ended
      else judgeLine columns n (line ++ text)

variable {columns : List String} {n : Nat} {line : String} {read : LineRead}

theorem judgeLine_ne_wait {rest : String} : judgeLine columns n line ≠ .wait rest := by
  rw [judgeLine]
  split
  · simp
  · split <;> simp

/-- Only a source that is not ready makes a stream of rows wait. -/
theorem fault_of_wait {rest : String} (h : judge columns n line read = .wait rest) :
    ∃ f, read.fault = some f ∧ f.kind = .wouldBlock := by
  cases hf : read.fault with
  | some f =>
      simp only [judge, hf] at h
      split at h
      · next hk => exact ⟨f, rfl, hk⟩
      · exact absurd h (by simp)
  | none =>
      simp only [judge, hf] at h
      split at h
      · exact absurd h (by simp)
      · split at h
        · exact absurd h (by simp)
        · exact absurd h judgeLine_ne_wait

theorem fault_of_line {v : Verdict} (h : judge columns n line read = v)
    (hw : ∀ rest, v ≠ .wait rest) (ho : ∀ e, v ≠ .ending e) :
    read.fault = none ∧ (read.bytes.isEmpty && line.isEmpty) = false := by
  subst h
  cases hf : read.fault with
  | some f =>
      simp only [judge, hf] at hw ho
      split at hw
      · exact absurd rfl (hw _)
      · next hk => exact absurd (if_neg hk) (ho _)
  | none =>
      refine ⟨rfl, ?_⟩
      simp only [judge, hf] at ho
      split at ho
      · exact absurd rfl (ho _)
      · split at ho
        · exact absurd rfl (ho _)
        · next he => simpa using he

namespace RowStream

/-- A turn that does with the stream `r` what a verdict says. -/
inductive Heeds (r : RowStream) : Verdict → Turn RowStream (Event Row) → Prop
  | wait (line : String) : Heeds r (.wait line) (.rest { r with line })
  | ending (line : String) (lineNumber : Nat) (e : Ending) : Heeds r (.ending e)
      { state := { r with line, lineNumber, supply := (r.supply.finish e).1 }
        events := (r.supply.finish e).2 }
  | blank : Heeds r .blank
      { state := { r with lineNumber := r.lineNumber + 1, line := "" }, again := true }
  | row (row : Row) : Heeds r (.row row)
      { state :=
          { r with
            lineNumber := r.lineNumber + 1
            line := ""
            supply := (r.supply.send row).1 }
        events := (r.supply.send row).2
        again := true }

theorem deliver_heeds (r : RowStream) (line : String) :
    Heeds r (judgeLine r.columns r.lineNumber line) (r.deliver line) := by
  rw [judgeLine, deliver]
  dsimp only
  split
  · exact .blank
  · cases parseRow r.columns (r.lineNumber + 1) line with
    | error f => exact .ending "" (r.lineNumber + 1) _
    | ok row => exact .row row

theorem hear_heeds (r : RowStream) (read : LineRead) :
    Heeds r (judge r.columns r.lineNumber r.line read) (r.hear read) := by
  rw [judge, hear, Text.text?]
  cases read.fault with
  | some f =>
      cases Text.ofUtf8 read.bytes with
      | error e =>
          simp only [stop, Except.toOption, Option.getD_none, String.append_empty]
          split
          · exact .wait r.line
          · exact .ending r.line r.lineNumber _
      | ok text =>
          simp only [stop, Except.toOption, Option.getD_some]
          split
          · exact .wait _
          · exact .ending (r.line ++ text) r.lineNumber _
  | none =>
      cases Text.ofUtf8 read.bytes with
      | error e => exact .ending r.line r.lineNumber _
      | ok text =>
          simp only [Except.toOption]
          split
          · exact .ending r.line r.lineNumber _
          · exact deliver_heeds r _

/-- A turn rests, or it heeds the verdict on the next line. -/
theorem turn_cases (r : RowStream) :
    r.supply.canSend = false ∧ turn r = .rest r ∨
      r.supply.canSend = true ∧ ∃ v,
        judge r.columns r.lineNumber r.line (readLine r.source).1 = v ∧
        Heeds { r with source := (readLine r.source).2 } v (turn r) := by
  rw [turn]
  split
  · next hc => exact .inl ⟨by simpa using hc, rfl⟩
  · next hc =>
    exact .inr ⟨by simpa using hc, _, rfl, hear_heeds { r with source := (readLine r.source).2 } _⟩

theorem turn_steps (r : RowStream) :
    Supply.Steps r.supply (turn r).events (turn r).state.supply := by
  rcases turn_cases r with ⟨-, ht⟩ | ⟨hc, v, -, hh⟩
  · rw [ht]
    exact .refl _
  · generalize turn r = t at hh ⊢
    cases hh with
    | wait line => exact .refl _
    | ending line n e => exact .one_finish ..
    | blank => exact .refl _
    | row row => exact .one_send hc row

instance : OrderlyProducer RowStream Row where
  supply_changeDemand _ _ := rfl
  supply_subscribe _ _ := rfl
  drive_steps r := Turn.iterate_steps turn_steps r

/-! ## Ending once -/

theorem turn_again : Turn.StopsWhenOver turn supply := by
  intro r h
  rcases turn_cases r with ⟨-, ht⟩ | ⟨hc, v, -, hh⟩
  · exact absurd h (by simp [ht])
  · have ho := (Supply.canSend_iff.mp hc).1
    generalize turn r = t at h hh ⊢
    cases hh with
    | wait line => exact absurd h (by simp)
    | ending line n e => exact absurd h (by simp)
    | blank => exact Supply.isOpen_iff.mpr ho
    | row row => exact Supply.isOpen_iff.mpr ((Supply.send_status _ _).trans ho)

/-- What a stream of rows works on: everything but its supply. -/
def work (r : RowStream) : RowStream := { r with supply := {} }

theorem lawful : (Command.conduct work).Lawful fun _ => True := by
  refine Command.lawful (fun _ _ _ _ => trivial) (fun _ _ => trivial) (fun _ _ => rfl) ?_
  intro r _ ho
  have ht : turn r = .rest r := by
    have hc : r.supply.canSend = false := Supply.canSend_of_not_open ho
    rw [turn, if_pos (by simp [hc])]
  show work (drive r).1 = work r
  rw [drive, Turn.iterate_of_rest ht]

end RowStream

end ExternalSort.Table
