/-
Typing the cells of a table.
-/
import ExternalSort.Binary64.Read
import ExternalSort.Value

namespace ExternalSort.Table

/-- The value of a floating-point cell, unless it is infinite or a NaN. -/
def floatCell? (cell : List Char) : Option Binary64 :=
  (Binary64.read? cell).filter Binary64.isFinite

/-- The value that a cell stands for: null if it is empty, else the first
that it can be read as of a truth value, a whole number and a finite
floating-point number; everything else is a text. -/
def cellValue (cell : String) : Value :=
  if cell.isEmpty then .null
  else if cell = "true" then .bool true
  else if cell = "false" then .bool false
  else match Text.int64? cell.toList with
    | some i => .int i
    | none =>
      match floatCell? cell.toList with
      | some x => .float x
      | none => .text cell

end ExternalSort.Table
