/-
The rows of a table as a stream.

Each line that is not blank becomes a row.  A line whose end has not come
yet is kept, and reading it goes on when the source is ready again.
-/
import ExternalSort.Row
import ExternalSort.Stream.Basic
import ExternalSort.Stream.Turn
import ExternalSort.Table.Cell
import ExternalSort.Table.Lines

namespace ExternalSort.Table

/-- A stream of the rows that follow the header of a table. -/
structure RowStream where
  source : Source
  columns : List String
  /-- The beginning of a line whose end has not come yet. -/
  line : String := ""
  /-- Lines read so far, the header included. -/
  lineNumber : Nat := 1
  supply : Supply Row := {}

namespace RowStream

/-- A line has too many or too few cells. -/
def ragged (line expected found : Nat) : Fault :=
  ⟨.invalidData, s!"line {line}: expected {expected} cells, found {found}"⟩

/-- The row of a line. -/
def parseRow (columns : List String) (lineNumber : Nat) (line : String) : Except Fault Row :=
  let cs := cells line
  if cs.length = columns.length then .ok (Row.ofList (columns.zip (cs.map cellValue)))
  else .error (ragged lineNumber columns.length cs.length)

/-- Ends a stream by a fault. -/
def fail (r : RowStream) (f : Fault) : Turn RowStream (Event Row) :=
  let (o, es) := r.supply.fail (.io f)
  { state := { r with supply := o }, events := es }

/-- Ends a stream at the end of its source. -/
def conclude (r : RowStream) : Turn RowStream (Event Row) :=
  let (o, es) := r.supply.finish .ended
  { state := { r with supply := o }, events := es }

/-- Hands over the row of a whole line, if it is not blank. -/
def deliver (r : RowStream) (line : String) : Turn RowStream (Event Row) :=
  let r := { r with lineNumber := r.lineNumber + 1, line := "" }
  if (lineText line.toList).isEmpty then { state := r, again := true }
  else
    match parseRow r.columns r.lineNumber line with
    | .error f => r.fail f
    | .ok row =>
      let (o, es) := r.supply.send row
      { state := { r with supply := o }, events := es, again := true }

/-- A source that is not ready lets the stream rest. -/
def stop (r : RowStream) (f : Fault) : Turn RowStream (Event Row) :=
  if f.kind = .wouldBlock then .rest r else r.fail f

/-- Goes on after reading up to the end of a line, or to a fault.  Bytes
that are no text are lost if a fault stopped the reading. -/
def hear (r : RowStream) (read : LineRead) : Turn RowStream (Event Row) :=
  match Text.ofUtf8 read.bytes, read.fault with
  | .error _, none => r.fail Fault.notText
  | .error _, some f => r.stop f
  | .ok text, some f => { r with line := r.line ++ text }.stop f
  | .ok text, none =>
    if read.bytes.isEmpty && r.line.isEmpty then r.conclude else r.deliver (r.line ++ text)

/-- Reads one line and hands its row over, or ends. -/
def turn (r : RowStream) : Turn RowStream (Event Row) :=
  if !r.supply.canSend then .rest r
  else
    let (read, source) := readLine r.source
    { r with source }.hear read

/-- The reading that is still to come: the bytes of the source, and the end
of a line that was begun.  No more rows than this are still to come. -/
def bound (r : RowStream) : Nat := r.source.bytes.length + (if r.line.isEmpty then 0 else 1)

theorem bound_fail (r : RowStream) (f : Fault) :
    (Event.items (r.fail f).events).length + (r.fail f).state.bound = r.bound := by
  simp [fail, bound]

theorem bound_stop (r : RowStream) (f : Fault) :
    (Event.items (r.stop f).events).length + (r.stop f).state.bound = r.bound := by
  unfold stop
  split
  · simp [Turn.rest]
  · exact bound_fail r f

theorem again_stop (r : RowStream) (f : Fault) : (r.stop f).again = false := by
  unfold stop; split <;> rfl

/-- A line that was read leaves nothing begun. -/
theorem bound_deliver (r : RowStream) (line : String) :
    (Event.items (r.deliver line).events).length + (r.deliver line).state.bound ≤
        r.source.bytes.length + 1 ∧
      (r.deliver line).state.bound = r.source.bytes.length := by
  unfold deliver
  dsimp only
  split
  · simp [bound]
  · split
    · simp [fail, bound]
    · next row _ =>
      have := Supply.items_send r.supply row
      simp [bound] at *
      omega

/-- Reading on makes the rest smaller, and hands over one row at most. -/
theorem bound_hear (r : RowStream) (read : LineRead) :
    (Event.items (r.hear read).events).length + (r.hear read).state.bound ≤
        r.bound + read.bytes.length ∧
      ((r.hear read).again = true → (r.hear read).state.bound < r.bound + read.bytes.length) := by
  unfold hear
  split
  · simp [fail, bound]
  · next f _ _ =>
    have := bound_stop r f
    simp only [again_stop]
    exact ⟨by omega, by simp⟩
  · next text f h _ =>
    have := bound_stop { r with line := r.line ++ text } f
    have hb : (if (r.line ++ text).isEmpty then 0 else 1) ≤
        (if r.line.isEmpty then 0 else 1) + read.bytes.length := by
      cases hr : read.bytes with
      | cons => simp only [List.length_cons]; split <;> omega
      | nil =>
        have : text = "" := by
          rw [hr, Text.ofUtf8_nil] at h
          exact (Except.ok.inj h).symm
        simp [this]
    simp only [again_stop]
    refine ⟨?_, by simp⟩
    simp only [bound] at *
    omega
  · next text h _ =>
    split
    · simp [conclude, bound]
    · next hne =>
      have := bound_deliver r (r.line ++ text)
      have : 1 ≤ (if r.line.isEmpty then 0 else 1) + read.bytes.length := by
        cases hr : read.bytes with
        | cons => simp only [List.length_cons]; omega
        | nil => simp_all
      simp only [bound] at *
      omega

/-- What a turn reads and hands over is off the rest. -/
theorem bound_turn (r : RowStream) :
    (Event.items (turn r).events).length + (turn r).state.bound ≤ r.bound ∧
      ((turn r).again = true → (turn r).state.bound < r.bound) := by
  unfold turn
  split
  · simp [Turn.rest]
  · have hb := bound_hear { r with source := (readLine r.source).2 } (readLine r.source).1
    have hs := congrArg List.length (readLine_bytes r.source)
    rw [List.length_append] at hs
    obtain ⟨hb, ha⟩ := hb
    simp only [bound] at *
    refine ⟨by omega, fun h => ?_⟩
    have := ha h
    omega

def drive (r : RowStream) : RowStream × List (Event Row) :=
  Turn.iterate turn bound (fun r => (bound_turn r).2) r

theorem drive_bound (r : RowStream) :
    (Event.items (drive r).2).length + (drive r).1.bound ≤ r.bound := by
  refine Turn.iterate_induction
    (fun (t : RowStream) es => (Event.items es).length + t.bound ≤ r.bound) ?_ r (by simp)
  intro t es h
  have := (bound_turn t).1
  simp only [Event.items_append, List.length_append]
  omega

instance : FiniteProducer RowStream Row where
  supply := supply
  withSupply r o := { r with supply := o }
  drive := drive
  bound := bound
  bound_withSupply _ _ := rfl
  bound_drive := drive_bound

/-- Lines are read into buffers that grow with them, never ahead of the source. -/
instance : AbortableProducer RowStream Row := ⟨fun _ => true⟩

end RowStream

end ExternalSort.Table
