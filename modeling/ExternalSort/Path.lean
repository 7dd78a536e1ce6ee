/-
Paths of files and directories, as texts whose parts are separated by
slashes.
-/
import ExternalSort.Text.Blank

namespace ExternalSort

/-- A path. -/
structure Path where
  text : String
deriving DecidableEq, Repr

namespace Path

/-- A path that ends where a name could follow leads to a directory. -/
def endsOpen (p : Path) : Bool := p.text.isEmpty || p.text.toList.getLast? == some '/'

/-- A name inside a directory.  A name that begins with a slash stands for
itself, and a directory that ends with one needs no other. -/
def join (dir : Path) (name : String) : Path :=
  if name.toList.head? = some '/' then ⟨name⟩
  else if dir.endsOpen then ⟨dir.text ++ name⟩
  else ⟨dir.text ++ "/" ++ name⟩

/-- The names between the slashes.  Empty ones are left out. -/
def names (p : Path) : List String :=
  ((Text.pieces (· == '/') p.text.toList).map String.ofList).filter (· != "")

/-- What tells a path from others: where it starts, and its names.  A single
dot is part of a path only where the path starts with it. -/
def parts (p : Path) : List String :=
  let start := if p.text.toList.head? = some '/' then ["/"]
    else (p.names.take 1).filter (· == ".")
  start ++ p.names.filter (· != ".")

/-- Whether two paths have the same parts, however they are written. -/
def sameAs (p q : Path) : Bool := p.parts == q.parts

end Path

end ExternalSort
