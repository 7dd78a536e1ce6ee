/-
Runs: sorted sequences of items, in memory or in a file.
-/
import ExternalSort.Frame.Sink
import ExternalSort.Path

namespace ExternalSort

/-- A run in a file. -/
structure SpillFile where
  path : Path
  /-- The number that the name of the file was made from. -/
  seq : Nat
  items : Nat
  /-- The size of the file. -/
  bytes : Nat
deriving DecidableEq, Repr

/-- A sorted sequence of items. -/
inductive Run (α : Type) where
  | memory (items : List α)
  | file (f : SpillFile)
deriving DecidableEq, Repr

namespace Run

variable {α : Type}

/-- How many items a run has. -/
def length : Run α → Nat
  | memory items => items.length
  | file f => f.items

def path? : Run α → Option Path
  | memory _ => none
  | file f => some f.path

/-- The files that runs are in. -/
def paths (runs : List (Run α)) : List Path := runs.filterMap path?

/-- Writes items into a sink, frame by frame.  The result is how many
items and bytes were written; a writer that fails is given up. -/
def write (codec : Codec α) (sink : Sink) (items : List α) :
    Except Failure (Nat × Nat) × Sink :=
  match FrameSink.writeAll codec.encode (.ofSink sink) items with
  | (.error e, w) => (.error e, w.abandon)
  | (.ok (), w) =>
    let (r, sink) := w.close
    (r.map fun _ => (w.frames, w.bytes), sink)

end Run

end ExternalSort
