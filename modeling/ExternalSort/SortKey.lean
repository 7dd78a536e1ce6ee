/-
Sort keys: which field to compare, and in which direction.

A key is written as the name of the field, after a minus sign if it is
descending; a plus sign may stand before an ascending one.  A list of keys
is separated by commas and blanks.
-/
import ExternalSort.Text.Blank
import ExternalSort.Text.Quoted

namespace ExternalSort

/-- The direction of a sort key. -/
inductive Direction where
  | ascending
  | descending
deriving DecidableEq, Repr

namespace Direction

def flip : Direction → Direction
  | ascending => descending
  | descending => ascending

/-- The order of two items in this direction, given their ascending one. -/
def apply : Direction → Ordering → Ordering
  | ascending, o => o
  | descending, o => o.swap

end Direction

/-- One sort key. -/
structure SortKey where
  name : String
  direction : Direction
deriving DecidableEq, Repr

/-- Why a text is no sort key, or no list of them. -/
inductive SortKeyError where
  /-- The text names no field. -/
  | nameless (text : String)
  | noKeys
deriving DecidableEq, Repr

namespace SortKeyError

def message : SortKeyError → String
  | nameless s => s!"field spec {Text.quoted s} has an empty key"
  | noKeys => "no sort fields given"

end SortKeyError

namespace SortKey

/-- A key in the opposite direction. -/
def flip (f : SortKey) : SortKey := { f with direction := f.direction.flip }

/-- The direction and the name that a text without blanks around it
gives. -/
def signed : List Char → Direction × List Char
  | '-' :: r => (.descending, r)
  | '+' :: r => (.ascending, r)
  | r => (.ascending, r)

/-- Reads one sort key.  One sign at most is taken off. -/
def parse (s : String) : Except SortKeyError SortKey :=
  let (d, name) := signed (Text.trim s.toList)
  if name.isEmpty then .error (.nameless s) else .ok ⟨String.ofList name, d⟩

/-- Whether a character separates the keys of a list. -/
def separates (c : Char) : Bool := c == ',' || Text.isBlank c

/-- The texts of the single keys of a list. -/
def parts (s : String) : List String :=
  ((Text.pieces separates s.toList).filter (!·.isEmpty)).map String.ofList

/-- Reads a list of sort keys, at least one. -/
def parseAll (s : String) : Except SortKeyError (List SortKey) := do
  let keys ← (parts s).mapM parse
  if keys.isEmpty then .error .noKeys else .ok keys

/-- The text of a sort key. -/
def text (f : SortKey) : String :=
  match f.direction with
  | .ascending => f.name
  | .descending => "-" ++ f.name

end SortKey

end ExternalSort
