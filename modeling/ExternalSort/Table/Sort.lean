/-
Sorting a table.

The header names the columns and is written first.  The rows are sorted by
some of the columns and written one line each, every cell as the text of
its value.
-/
import ExternalSort.Sorter.Basic
import ExternalSort.Table.Rows
import ExternalSort.Table.Packing

namespace ExternalSort.Table

/-- Why a table was not sorted. -/
inductive TableError where
  /-- The header cannot be read. -/
  | header (f : Fault)
  | unknownColumn (column : String) (header : List String)
  | settings (e : SettingsError)
  /-- The output cannot be begun or ended. -/
  | output (f : Fault)
  /-- A row cannot be written. -/
  | write (f : Fault)
  | sort (e : Failure)
  /-- The input was not ready for too long. -/
  | stalled
deriving DecidableEq, Repr

namespace TableError

def message : TableError → String
  | header _ => "failed to read header"
  | unknownColumn c h => s!"unknown column '{c}' (header has: " ++ ", ".intercalate h ++ ")"
  | settings e => e.message
  | output f => f.text
  | write _ => "failed to write output"
  | sort _ => "sort failed"
  | stalled => Fault.wouldBlock.text

/-- The texts of the causes of an error, the nearest one first. -/
def causes : TableError → List String
  | header f => [f.text]
  | unknownColumn .. => []
  | settings e => e.causes
  | output _ => []
  | write f => [f.text]
  | sort e => e.message :: e.causes
  | stalled => []

end TableError

/-- The lines of the header and of a row. -/
def headerLine (header : List String) : String := "\t".intercalate header ++ "\n"

def rowLine (row : Row) : String := "\t".intercalate (row.values.map Value.display) ++ "\n"

/-- Writes a line. -/
def writeLine (sink : Sink) (line : String) : Except Fault Unit × Sink :=
  let (r, _, sink) := sink.writeAll (Text.utf8 line)
  (r, sink)

/-- Writes rows, up to the first one that fails. -/
def writeRows (sink : Sink) : List Row → Except Fault Unit × Sink
  | [] => (.ok (), sink)
  | row :: rows =>
    match writeLine sink (rowLine row) with
    | (.error f, sink) => (.error f, sink)
    | (.ok (), sink) => writeRows sink rows

/-- The first key that names no column. -/
def unknownColumn? (keys : List SortKey) (header : List String) : Option String :=
  (keys.find? fun s => !header.contains s.name).map SortKey.name

/-- The order of rows by some keys. -/
def rowOrder (keys : List SortKey) : RecordOrder Row := ⟨.ofKeys keys⟩

/-- The sort of the rows that follow a header. -/
abbrev RowSorter := Sorter RowStream (RecordOrder Row) Row

variable {W : Type} [SpillStore W]

/-- Ends the output after all rows that came have been written. -/
def endOutput (ending : Option Ending) (count : Nat) (sink : Sink) : Except TableError Nat :=
  match ending with
  | none => .error .stalled
  | some (.failed e) => .error (.sort e)
  | some .ended =>
    match sink.flush with
    | .error f => .error (.output f)
    | .ok () => .ok count

/-- Writes what a sort gives.  A row that cannot be written counts before
anything that goes wrong later. -/
def writeSorted (patience : Nat) (sorter : RowSorter) (w : W) (sink : Sink) :
    Except TableError Nat × Sink × W :=
  let ((sorter, w), rows, ending) := Producer.gather patience (sorter, w)
  let w := sorter.discard w
  match writeRows sink rows with
  | (.error f, sink) => (.error (.write f), sink, w)
  | (.ok (), sink) => (endOutput ending rows.length sink, sink, w)

/-- Sorts the rows of a table whose header has been read. -/
def sortRows (patience : Nat) (settings : Settings) (tag : UInt32) (keys : List SortKey)
    (header : List String) (source : Source) (sink : Sink) (w : W) :
    Except TableError Nat × Sink × W :=
  match writeLine sink (headerLine header) with
  | (.error f, sink) => (.error (.output f), sink, w)
  | (.ok (), sink) =>
    match Sorter.start w settings (packing header) (rowOrder keys) tag
      ({ source, columns := header } : RowStream) with
    | (.error e, w) => (.error (.settings e), sink, w)
    | (.ok sorter, w) => writeSorted patience sorter w sink

/-- Sorts a table by some keys and writes it.  The result is the number of
rows.  A source that is not ready is asked again, `patience` times at
most. -/
def sort (patience : Nat) (settings : Settings) (tag : UInt32) (keys : List SortKey)
    (source : Source) (sink : Sink) (w : W) : Except TableError Nat × Sink × W :=
  match takeHeader source with
  | (.error f, _) => (.error (.header f), sink, w)
  | (.ok none, _) => (.ok 0, sink, w)
  | (.ok (some header), source) =>
    match unknownColumn? keys header with
    | some c => (.error (.unknownColumn c header), sink, w)
    | none => sortRows patience settings tag keys header source sink w

/-- Whether sorting the rows of a table whose header has been read comes back. -/
def sortRowsReturns (patience : Nat) (settings : Settings) (tag : UInt32) (keys : List SortKey)
    (header : List String) (source : Source) (sink : Sink) (w : W) : Bool :=
  match (writeLine sink (headerLine header)).1,
    Sorter.start w settings (packing header) (rowOrder keys) tag
      ({ source, columns := header } : RowStream) with
  | .ok (), (.ok sorter, w) => Producer.gatherReturns patience (sorter, w)
  | _, _ => true

/-- Whether sorting a table comes back. -/
def sortReturns (patience : Nat) (settings : Settings) (tag : UInt32) (keys : List SortKey)
    (source : Source) (sink : Sink) (w : W) : Bool :=
  match takeHeader source with
  | (.ok (some header), source) =>
    match unknownColumn? keys header with
    | some _ => true
    | none => sortRowsReturns patience settings tag keys header source sink w
  | (.error _, _) | (.ok none, _) => true

end ExternalSort.Table
