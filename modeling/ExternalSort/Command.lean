/-
The command that sorts a table.

Its arguments are sort keys; the table comes from its input and goes to
its output, and its settings come from variables.  A failure is told in
one line, with the causes below it.
-/
import ExternalSort.Table.Sort

namespace ExternalSort.Command

/-- How the command ends: its exit code, its output and its complaint. -/
structure Outcome where
  code : Nat
  output : List UInt8
  complaint : String
deriving DecidableEq, Repr

def usage : String := "usage: rowsort FIELD... (prefix a field with '-' to sort descending)"

/-- The lines of the causes of an error.  They are numbered if there is
more than one. -/
def causeLines : List String → List String
  | [c] => ["    " ++ c]
  | cs => cs.zipIdx.map fun (c, i) => s!"    {i}: " ++ c

/-- What the command says about an error. -/
def complaint (message : String) (causes : List String) : String :=
  let head := "Error: " ++ message ++ "\n"
  if causes.isEmpty then head
  else head ++ "\nCaused by:\n" ++ String.join ((causeLines causes).map (· ++ "\n"))

/-- How often the input is asked again when it is not ready: as often as
anything can happen when it is read. -/
def patience (input : Source) : Nat := input.size

variable {W : Type} [SpillStore W]

/-- Runs the command with some arguments.  Settings that no variable gives
are those of `base`. -/
def run (base : Settings) (lookup : String → Option String) (tag : UInt32) (args : List String)
    (input : Source) (w : W) : Outcome × W :=
  match SortKey.parseAll (" ".intercalate args) with
  | .error e => (⟨1, [], complaint (e.message ++ "\n" ++ usage) []⟩, w)
  | .ok keys =>
    let settings := Settings.ofLookup base lookup
    match Table.sort (patience input) settings tag keys input {} w with
    | (.ok _, sink, w) => (⟨0, sink.bytes, ""⟩, w)
    | (.error e, sink, w) => (⟨1, sink.bytes, complaint e.message e.causes⟩, w)

end ExternalSort.Command
