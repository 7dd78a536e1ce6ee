/-
Values: the typed cells of a row.

Dates are days and date-times microseconds since the Unix epoch, times are
nanoseconds since midnight.  Values of one kind have a common order, and
so have whole and floating-point numbers; nulls come after everything.
-/
import ExternalSort.Binary64.Shortest
import ExternalSort.Text.Utf8

namespace ExternalSort

/-- A typed cell. -/
inductive Value where
  | null
  | bool (b : Bool)
  | int (i : Int64)
  | float (x : Binary64)
  | text (s : String)
  | date (days : Int32)
  | dateTime (micros : Int64)
  | time (nanos : Int64)
deriving DecidableEq, Repr

/-- The kinds of values. -/
inductive Kind where
  | null
  | bool
  | int
  | float
  | text
  | date
  | dateTime
  | time
deriving DecidableEq, Repr

namespace Kind

/-- Every kind, by rising tag. -/
def all : List Kind := [.null, .bool, .int, .float, .text, .date, .dateTime, .time]

/-- The number that stands for a kind in stored rows. -/
def tag : Kind → UInt8
  | .null => 0
  | .bool => 1
  | .int => 2
  | .float => 3
  | .text => 4
  | .date => 5
  | .dateTime => 6
  | .time => 7

def ofTag? (t : UInt8) : Option Kind := all[t.toNat]?

def name : Kind → String
  | .null => "null"
  | .bool => "bool"
  | .int => "int"
  | .float => "float"
  | .text => "string"
  | .date => "date"
  | .dateTime => "datetime"
  | .time => "time"

def isNumber (k : Kind) : Bool := k == .int || k == .float

/-- Whether values of the two kinds, nulls apart, have a common order. -/
def comparesWith (k l : Kind) : Bool := k == l || (k.isNumber && l.isNumber)

end Kind

namespace Value

def kind : Value → Kind
  | null => .null
  | bool _ => .bool
  | int _ => .int
  | float _ => .float
  | text _ => .text
  | date _ => .date
  | dateTime _ => .dateTime
  | time _ => .time

def isNull (v : Value) : Bool := v.kind == .null

/-- How many bytes a value is estimated to take in memory.  A text takes
24 besides its own. -/
def size : Value → Nat
  | null => 1
  | bool _ => 1
  | date _ => 4
  | int _ => 8
  | float _ => 8
  | dateTime _ => 8
  | time _ => 8
  | text s => s.utf8ByteSize + 24

/-- The text of a value as it is written into a table. -/
def display : Value → String
  | null => ""
  | bool b => if b then "true" else "false"
  | int i => toString i.toInt
  | float x => x.text
  | text s => s
  | date d => toString d.toInt
  | dateTime t => toString t.toInt
  | time t => toString t.toInt

/-- Equality as values: floating-point numbers are equal as numbers, and
all other values if they are the same. -/
def sameValue : Value → Value → Bool
  | float x, float y => x.sameNumber y
  | v, w => v == w

/-- Compares texts by their characters, from the first on. -/
def compareText (s t : String) : Ordering :=
  if s < t then .lt else if s = t then .eq else .gt

/-- The ascending order of values.  Nulls are last, a whole number stands
beside a floating-point number by its exact value, and there is no order
between values of other kinds. -/
def compare? : Value → Value → Option Ordering
  | null, null => some .eq
  | null, _ => some .gt
  | _, null => some .lt
  | bool a, bool b => some (compare a.toNat b.toNat)
  | int a, int b => some (compare a.toInt b.toInt)
  | float a, float b => some (a.totalCompare b)
  | int a, float b => some (b.compareInt a)
  | float a, int b => some (a.compareInt b).swap
  | text a, text b => some (compareText a b)
  | date a, date b => some (compare a.toInt b.toInt)
  | dateTime a, dateTime b => some (compare a.toInt b.toInt)
  | time a, time b => some (compare a.toInt b.toInt)
  | _, _ => none

end Value

end ExternalSort
