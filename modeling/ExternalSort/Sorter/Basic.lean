/-
Sorting a stream within a budget of memory.

A sort is a stream.  While items are asked of it, it first reads its input
in batches and builds runs from it; when the input ends it merges the runs
and hands their items over.  Nothing is read before somebody asks.  The
first error anywhere ends the sort, and no spill file outlives it.
-/
import ExternalSort.Merge.Basic
import ExternalSort.Order.Fields
import ExternalSort.Run.Generator

namespace ExternalSort

/-- Where a sort is on its way. -/
inductive SorterStage (O α : Type) where
  /-- Reading the input.  The input may have ended before the sort got it. -/
  | collecting (heard : Option Ending) (generator : RunGenerator O α) (supply : Supply α)
  | merging (merge : Merge O α)
  /-- The input could not be made into runs. -/
  | failed (supply : Supply α)
  /-- Torn down; only the demand is still there. -/
  | closed (demand : Demand)

/-- The coarse lifecycle of a sort. -/
inductive SorterPhase where
  | collecting
  | merging
  | ended
  | failed
  | closed
deriving DecidableEq, Repr

namespace SorterPhase

def name : SorterPhase → String
  | collecting => "Collecting"
  | merging => "Merging"
  | ended => "Ended"
  | failed => "Failed"
  | closed => "Closed"

end SorterPhase

/-- A sort of an input `S` by an order `O`. -/
structure Sorter (S O α : Type) where
  settings : Settings
  codec : Codec α
  /-- The input, which is not touched any more once it has been read. -/
  input : S
  stage : SorterStage O α
  /-- Items taken from the input. -/
  itemsRead : Nat := 0
  /-- Files handed to the merge. -/
  files : Nat := 0
  /-- Runs handed to the merge. -/
  runs : Nat := 0

namespace Sorter

variable {S O α W : Type} [FiniteProducer S α] [ItemOrder O α] [SpillStore W]

/-- How many items are asked of the input at a time. -/
def batchSize : Nat := 256

/-- A sort of an input, if the settings allow it and the directory of the
spill files is there. -/
def start (w : W) (settings : Settings) (codec : Codec α) (order : O) (tag : UInt32) (input : S) :
    Except SettingsError (Sorter S O α) × W :=
  match settings.check with
  | .error e => (.error e, w)
  | .ok () =>
    match SpillStore.ensureDirectory w settings.directory with
    | (.error f, w) => (.error (.directory settings.directory f), w)
    | (.ok (), w) =>
      let (input, es) := Producer.subscribe input ({} : Subscriber α)
      let generator := { settings, codec, order, tag }
      (.ok { settings, codec, input, stage := .collecting (Event.endingOf es) generator {} }, w)

/-! ## Views -/

def supply (s : Sorter S O α) : Supply α :=
  match s.stage with
  | .collecting _ _ o => o
  | .merging m => m.supply
  | .failed o => o
  | .closed d => .closed d

def withSupply (s : Sorter S O α) (o : Supply α) : Sorter S O α :=
  match s.stage with
  | .collecting h b _ => { s with stage := .collecting h b o }
  | .merging m => { s with stage := .merging { m with supply := o } }
  | .failed _ => { s with stage := .failed o }
  | .closed _ => { s with stage := .closed o.demand }

def phase (s : Sorter S O α) : SorterPhase :=
  match s.stage with
  | .collecting .. => .collecting
  | .merging m =>
    match m.phase with
    | .ended => .ended
    | .errored => .failed
    | .idle | .waiting | .sending => .merging
  | .failed _ => .failed
  | .closed _ => .closed

/-- Files written so far, by the generator or before the merge. -/
def filesWritten (s : Sorter S O α) : Nat :=
  match s.stage with
  | .collecting _ b _ => b.files.length
  | .merging _ | .failed _ | .closed _ => s.files

/-- Items handed over so far. -/
def sent (s : Sorter S O α) : Nat := s.supply.sent

/-! ## Collecting -/

/-- Ends a sort that could not make runs of its input. -/
def fail (s : Sorter S O α) (w : W) (o : Supply α) (e : Failure) :
    Turn (Sorter S O α × W) (Heard W α) :=
  let (o, es) := o.fail e
  { state := ({ s with stage := .failed o }, w), events := Heard.ofEvents w es }

/-- Gives a generator up, and ends the sort. -/
def failGenerating (s : Sorter S O α) (w : W) (b : RunGenerator O α) (o : Supply α)
    (e : Failure) : Turn (Sorter S O α × W) (Heard W α) :=
  s.fail (b.discard w) o e

omit [FiniteProducer S α] [ItemOrder O α] in
@[simp] theorem failGenerating_again (s : Sorter S O α) (w : W) (b : RunGenerator O α)
    (o : Supply α) (e : Failure) : (s.failGenerating w b o e).again = false := rfl

/-- The merge that a sort makes of its runs. -/
def mergeOf (s : Sorter S O α) (b : RunGenerator O α) (o : Supply α) (runs : List (Run α)) :
    Merge O α :=
  { (Merge.ofRuns b.order s.codec.decode runs).withSettings s.settings with supply := o }

/-- Ends the generation of runs, and begins to merge them. -/
def beginMerge (s : Sorter S O α) (w : W) (b : RunGenerator O α) (o : Supply α) :
    Turn (Sorter S O α × W) (Heard W α) :=
  match b.close w with
  | (.error e, w) => s.fail w o e
  | (.ok runs, w) =>
    let ((m, w), es) := (s.mergeOf b o runs).drive w
    { state :=
        ({ s with
            stage := .merging m
            files := (Run.paths runs).length
            runs := runs.length }, w)
      events := es }

omit [FiniteProducer S α] in
/-- Reading the input is over once the merge begins. -/
@[simp] theorem beginMerge_again (s : Sorter S O α) (w : W) (b : RunGenerator O α)
    (o : Supply α) : (s.beginMerge w b o).again = false := by
  rw [beginMerge]
  split <;> rfl

/-- Goes on after the input has let some events out: their items go to
the generator before anything else is done about them. -/
def takeIn (s : Sorter S O α) (w : W) (b : RunGenerator O α) (o : Supply α)
    (es : List (Event α)) : Turn (Sorter S O α × W) (Heard W α) :=
  let items := Event.items es
  match b.addAll w items with
  | (.error e, b, w) => s.failGenerating w b o e
  | (.ok (), b, w) =>
    match Event.endingOf es with
    | some (.failed e) => s.failGenerating w b o (.ofInput e)
    | some .ended => { s with itemsRead := s.itemsRead + items.length }.beginMerge w b o
    | none =>
      { state :=
          ({ s with
              stage := .collecting none b o
              itemsRead := s.itemsRead + items.length }, w)
        again := !items.isEmpty }

/-- Asks the input for a batch, unless it still owes some items. -/
def askInput (s : Sorter S O α) : S :=
  if (Producer.demand s.input).isPositive then s.input
  else Producer.request s.input batchSize

/-- Reads one batch of the input. -/
def readBatch (s : Sorter S O α) (w : W) (b : RunGenerator O α) (o : Supply α) :
    Turn (Sorter S O α × W) (Heard W α) :=
  let (input, es) := Producer.drive s.askInput
  { s with input }.takeIn w b o es

/-- One turn of a sort that reads its input. -/
def turn (t : Sorter S O α × W) : Turn (Sorter S O α × W) (Heard W α) :=
  let (s, w) := t
  match s.stage with
  | .collecting heard b o =>
    if !o.canSend then .rest (s, w)
    else match heard with
      | some (.failed e) => s.failGenerating w b o (.ofInput e)
      | some .ended => s.beginMerge w b o
      | none => s.readBatch w b o
  | .merging _ | .failed _ | .closed _ => .rest (s, w)

omit [FiniteProducer S α] in
theorem takeIn_again (s : Sorter S O α) (w : W) (b : RunGenerator O α) (o : Supply α)
    (es : List (Event α)) (h : (s.takeIn w b o es).again = true) :
    0 < (Event.items es).length ∧ (s.takeIn w b o es).state.1.input = s.input := by
  revert h
  unfold takeIn
  dsimp only
  split
  · simp
  · split
    · simp
    · simp
    · intro h
      simp only [Bool.not_eq_true', List.isEmpty_eq_false_iff] at h
      exact ⟨List.length_pos_iff.2 h, rfl⟩

omit [ItemOrder O α] in
theorem bound_askInput (s : Sorter S O α) :
    FiniteProducer.bound s.askInput = FiniteProducer.bound s.input := by
  unfold askInput
  split
  · rfl
  · simp [Producer.request, Producer.changeDemand, FiniteProducer.bound_withSupply]

theorem readBatch_shrinks (s : Sorter S O α) (w : W) (b : RunGenerator O α) (o : Supply α)
    (h : (s.readBatch w b o).again = true) :
    FiniteProducer.bound (s.readBatch w b o).state.1.input < FiniteProducer.bound s.input := by
  have hb := FiniteProducer.bound_drive s.askInput
  rw [bound_askInput] at hb
  obtain ⟨hp, hi⟩ := takeIn_again { s with input := (Producer.drive s.askInput).1 } w b o
    (Producer.drive s.askInput).2 h
  refine Nat.lt_of_le_of_lt (Nat.le_of_eq (congrArg FiniteProducer.bound hi)) ?_
  dsimp only
  omega

theorem turn_shrinks (t : Sorter S O α × W) (h : (turn t).again = true) :
    FiniteProducer.bound (turn t).state.1.input < FiniteProducer.bound t.1.input := by
  revert h
  unfold turn
  dsimp only
  split
  · split
    · simp
    · split
      · simp
      · simp
      · exact readBatch_shrinks _ _ _ _
  · simp
  · simp
  · simp

/-- Reads the input as far as the demand and the input allow, and begins
to merge when it has ended. -/
def readInput (s : Sorter S O α) (w : W) : (Sorter S O α × W) × List (Heard W α) :=
  Turn.iterate turn (fun t => FiniteProducer.bound t.1.input) turn_shrinks (s, w)

/-! ## The sort as a stream -/

/-- Goes on as far as the demand, the input and the files allow. -/
def drive (s : Sorter S O α) (w : W) : (Sorter S O α × W) × List (Heard W α) :=
  match s.stage with
  | .collecting .. => s.readInput w
  | .merging m =>
    let ((m, w), es) := m.drive w
    (({ s with stage := .merging m }, w), es)
  | .failed _ | .closed _ => ((s, w), [])

instance : Producer (Sorter S O α × W) α where
  supply s := s.1.supply
  withSupply s o := (s.1.withSupply o, s.2)
  drive s := ((drive s.1 s.2).1, Heard.events (drive s.1 s.2).2)

/-! ## Drives that are aborted -/

section Returning

/-- Whether ending the generation of runs and beginning to merge them come back. -/
def beginMergeReturns (s : Sorter S O α) (w : W) (b : RunGenerator O α) (o : Supply α) : Bool :=
  b.closeReturns &&
    match b.close w with
    | (.error _, _) => true
    | (.ok runs, w) => (s.mergeOf b o runs).returns w

/-- Whether going on after the input has let some events out comes back. -/
def takeInReturns (s : Sorter S O α) (w : W) (b : RunGenerator O α) (o : Supply α)
    (es : List (Event α)) : Bool :=
  b.addAllReturns w (Event.items es) &&
    match b.addAll w (Event.items es), Event.endingOf es with
    | (.ok (), b, w), some .ended => s.beginMergeReturns w b o
    | _, _ => true

variable [AbortableProducer S α]

/-- Whether the next turn of a sort that reads its input comes back. -/
def turnReturns (t : Sorter S O α × W) : Bool :=
  let (s, w) := t
  match s.stage with
  | .collecting heard b o =>
    !o.canSend ||
      match heard with
      | some (.failed _) => true
      | some .ended => s.beginMergeReturns w b o
      | none =>
        AbortableProducer.returns s.askInput &&
          s.takeInReturns w b o (Producer.drive s.askInput).2
  | .merging _ | .failed _ | .closed _ => true

/-- Whether the next drive comes back. -/
def returns (s : Sorter S O α) (w : W) : Bool :=
  match s.stage with
  | .collecting .. =>
    Turn.all turn (fun t => FiniteProducer.bound t.1.input) turn_shrinks turnReturns (s, w)
  | .merging m => m.returns w
  | .failed _ | .closed _ => true

instance : AbortableProducer (Sorter S O α × W) α := ⟨fun t => t.1.returns t.2⟩

end Returning

/-- Removes the files of a sort that is given up. -/
def discard (s : Sorter S O α) (w : W) : W :=
  match s.stage with
  | .collecting _ b _ => b.discard w
  | .merging m => m.discard w
  | .failed _ | .closed _ => w

/-- Tears the sort down: its files are removed, and nobody hears anything
of it any more. -/
def close (s : Sorter S O α) (w : W) : Sorter S O α × W :=
  ({ s with stage := .closed s.supply.demand }, s.discard w)

/-- A description of the sort for people. -/
def describe (s : Sorter S O α) : String :=
  s!"SortingStream \x7b phase: {s.phase.name}, items_in: {s.itemsRead}" ++
  s!", spills: {s.filesWritten}, runs: {s.runs}" ++
  s!", spill_threshold: {s.settings.threshold}" ++
  ", temp_dir: " ++ Text.quoted s.settings.directory.text ++
  ", operation_id: " ++ Text.quoted s.settings.id ++ " \x7d"

end Sorter

end ExternalSort
