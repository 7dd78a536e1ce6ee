/-
The shortest decimal text of a floating-point number.

Of all decimals that read back as the number, the text has the fewest
digits and is nearest to it among those; of two equally near ones it is
the larger.  The digits are written out in full, without an exponent, and
a whole number has no point.
-/
import ExternalSort.Binary64.Basic
import ExternalSort.Binary64.Decimal

namespace ExternalSort.Binary64

/-- The reals that round to a number: all strictly between `lo / den` and
`hi / den`, and the two ends as well if `closed`.  The number itself is
`value / den`. -/
structure Basin where
  lo : Nat
  value : Nat
  hi : Nat
  den : Nat
  closed : Bool
deriving DecidableEq, Repr

/-- The basin of a positive finite number, in quarters of its unit.  Just
below a power of two the numbers are twice as dense. -/
def basin (x : Binary64) : Basin :=
  let m := x.units
  let below := if x.fraction = 0 && 1 < x.exponentBits then 1 else 2
  let e := x.scale - 2
  let up := if 0 ≤ e then 1 <<< e.toNat else 1
  let den := if 0 ≤ e then 1 else 1 <<< (-e).toNat
  ⟨(4 * m - below) * up, 4 * m * up, (4 * m + 2) * up, den, m % 2 == 0⟩

namespace Basin

/-- Whether a decimal reads back as the number. -/
def holds (b : Basin) (d : Decimal) : Bool :=
  let (n, k) := d.fraction
  if b.closed then b.lo * k ≤ n * b.den && n * b.den ≤ b.hi * k
  else b.lo * k < n * b.den && n * b.den < b.hi * k

/-- How far a decimal is from the number, in a unit that all decimals of
one exponent share. -/
def distance (b : Basin) (d : Decimal) : Nat :=
  let (n, k) := d.fraction
  (n * b.den - b.value * k) + (b.value * k - n * b.den)

/-- The exponent of the least power of ten above the number. -/
def order (b : Basin) : Int :=
  let whole := b.value / b.den
  if 0 < whole then (Nat.toDigits 10 whole).length
  else 1 - ((Nat.toDigits 10 ((b.den - 1) / b.value)).length : Int)

/-- The two decimals of one exponent on either side of the number. -/
def neighbours (b : Basin) (exponent : Int) : Decimal × Decimal :=
  let d := if 0 ≤ exponent then b.value / (b.den * Decimal.tenTo exponent.toNat)
    else b.value * Decimal.tenTo (-exponent).toNat / b.den
  (⟨d, exponent⟩, ⟨d + 1, exponent⟩)

/-- The nearer of the neighbours that read back as the number. -/
def best? (b : Basin) (exponent : Int) : Option Decimal :=
  let (l, r) := b.neighbours exponent
  match b.holds l, b.holds r with
  | true, true => some (if b.distance l < b.distance r then l else r)
  | true, false => some l
  | false, true => some r
  | false, false => none

/-- Tries `count` digits, and at most `more` times one digit more. -/
def search (b : Basin) (count : Nat) : Nat → Decimal
  | 0 => (b.neighbours (b.order - count)).1
  | more + 1 => (b.best? (b.order - count)).getD (b.search (count + 1) more)

end Basin

/-- The shortest decimal of a positive finite number.  Seventeen digits
are always enough.  The upper neighbour of a number just below a power of
ten may be that power, which is then written with fewer digits. -/
def shortest (x : Binary64) : Decimal := (x.basin.search 1 17).trimmed

/-- The text of a number without its sign. -/
def unsignedText (x : Binary64) : String :=
  if x.isInfinite then "inf"
  else if x.isZero then "0"
  else x.shortest.positional

/-- The text of a number. -/
def text (x : Binary64) : String :=
  if x.isNaN then "NaN"
  else if x.isNegative then "-" ++ x.unsignedText
  else x.unsignedText

end ExternalSort.Binary64
