/-
Whole numbers written in decimal: the reading of counts and of signed
integers, and fixed-width writing.

A count is one or more ASCII digits, with an optional plus sign; an
integer may have a minus sign instead.  Nothing else may stand beside
them, and a number out of range is no number.
-/
import ExternalSort.Word

namespace ExternalSort.Text

/-- The value of a run of ASCII digits. -/
def digitsValue (cs : List Char) : Nat :=
  cs.foldl (fun n c => 10 * n + (c.toNat - '0'.toNat)) 0

/-- The value of a text, if it is one or more ASCII digits. -/
def digits? (cs : List Char) : Option Nat :=
  if cs.isEmpty || !cs.all Char.isDigit then none else some (digitsValue cs)

/-- A count of at most one word. -/
def count? (cs : List Char) : Option Nat :=
  let body := match cs with
    | '+' :: r => r
    | r => r
  (digits? body).filter (· ≤ wordMax)

/-- A whole number with an optional sign. -/
def signed? : List Char → Option Int
  | '-' :: r => (digits? r).map fun n => -(n : Int)
  | '+' :: r => (digits? r).map Int.ofNat
  | r => (digits? r).map Int.ofNat

/-- A signed integer of 64 bits. -/
def int64? (cs : List Char) : Option Int64 :=
  ((signed? cs).filter fun i =>
    Int64.minValue.toInt ≤ i && i ≤ Int64.maxValue.toInt).map Int64.ofInt

/-- The digits of a number in a base, in at least `width` places. -/
def padded (base width n : Nat) : String :=
  let ds := Nat.toDigits base n
  String.ofList (List.replicate (width - ds.length) '0' ++ ds)

end ExternalSort.Text
