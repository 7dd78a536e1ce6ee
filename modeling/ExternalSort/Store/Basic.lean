/-
Stores of spill files.

A sort touches files only through these operations.  A file that is
created takes bytes through its sink, and holds what the sink has taken
once the writing is over; a file that is opened gives its bytes through a
source.  No file is ever created in the place of another.
-/
import ExternalSort.Bytes.Sink
import ExternalSort.Bytes.Source
import ExternalSort.Path

namespace ExternalSort

/-- A place for files. -/
class SpillStore (W : Type) where
  /-- Creates a file, unless there is one. -/
  create : W → Path → Except Fault Sink × W
  /-- Ends the writing of a created file. -/
  keep : W → Path → Sink → W
  openFile : W → Path → Except Fault Source × W
  remove : W → Path → Except Fault Unit × W
  /-- Makes a directory and those above it, as far as they are missing. -/
  ensureDirectory : W → Path → Except Fault Unit × W

namespace SpillStore

variable {W : Type} [SpillStore W]

/-- Removes a file as far as that can be done.  The result tells whether
it is gone, as a file that is missing is. -/
def tryRemove (w : W) (p : Path) : Bool × W :=
  match remove w p with
  | (.ok (), w) => (true, w)
  | (.error f, w) => (f.kind == .notFound, w)

/-- Removes files in order, as far as that can be done. -/
def removeAll (w : W) (ps : List Path) : W := ps.foldl (fun w p => (tryRemove w p).2) w

end SpillStore

end ExternalSort
