/-
Binary floating-point numbers of 64 bits.

A number is kept as its bits, so that the sign and the payload of a NaN
are part of it.  A finite number is a whole number of units times a power
of two; everything else here is said in terms of that.
-/
namespace ExternalSort

/-- A floating-point number of 64 bits: one of sign, eleven of exponent
and fifty-two of fraction. -/
structure Binary64 where
  bits : UInt64
deriving DecidableEq, Repr

namespace Binary64

/-- How many fractions there are: two to the power 52. -/
def fractions : Nat := 0x10000000000000

/-- How many magnitudes there are: two to the power 63. -/
def magnitudes : Nat := 0x8000000000000000

def isNegative (x : Binary64) : Bool := magnitudes ≤ x.bits.toNat

/-- The bits without the sign. -/
def magnitude (x : Binary64) : Nat := x.bits.toNat % magnitudes

def exponentBits (x : Binary64) : Nat := x.magnitude / fractions

def fraction (x : Binary64) : Nat := x.magnitude % fractions

def isNaN (x : Binary64) : Bool := x.exponentBits == 2047 && x.fraction != 0

def isInfinite (x : Binary64) : Bool := x.exponentBits == 2047 && x.fraction == 0

def isFinite (x : Binary64) : Bool := x.exponentBits != 2047

def isZero (x : Binary64) : Bool := x.magnitude == 0

/-- How many units of `2 ^ scale` a finite number is away from zero. -/
def units (x : Binary64) : Nat :=
  if x.exponentBits = 0 then x.fraction else fractions + x.fraction

/-- The exponent of the unit of a finite number. -/
def scale (x : Binary64) : Int :=
  if x.exponentBits = 0 then -1074 else (x.exponentBits : Int) - 1075

/-- The units of a finite number with its sign. -/
def signedUnits (x : Binary64) : Int := if x.isNegative then -(x.units : Int) else x.units

/-- The number with the given sign and the given bits besides. -/
def ofMagnitude (negative : Bool) (m : Nat) : Binary64 :=
  ⟨UInt64.ofNat (if negative then magnitudes + m else m)⟩

def infinity (negative : Bool) : Binary64 := ofMagnitude negative (2047 * fractions)

/-- Equality of numbers as such: the two zeros are equal, and a NaN equals
nothing. -/
def sameNumber (x y : Binary64) : Bool :=
  !x.isNaN && !y.isNaN && (x == y || (x.isZero && y.isZero))

/-! ## Order -/

/-- The place of a number in the total order: negative numbers by falling
magnitude, then the others by rising magnitude.  The two zeros have
different places, and NaNs stand outside the infinities. -/
def rank (x : Binary64) : Int :=
  if x.isNegative then -(x.magnitude : Int) - 1 else x.magnitude

/-- The total order of all floating-point numbers, NaNs included. -/
def totalCompare (x y : Binary64) : Ordering := compare x.rank y.rank

/-- The order of numbers as such: the two zeros are equal, and a NaN stands in
no order. -/
def numberCompare? (x y : Binary64) : Option Ordering :=
  if x.isNaN || y.isNaN then none
  else if x.isZero && y.isZero then some .eq
  else some (x.totalCompare y)

/-! ## Whole numbers of 64 bits -/

/-- Two to the power 63 with a sign: the least number of all, as a whole number of
64 bits, or the first one past the greatest. -/
def wordEnd (negative : Bool) : Binary64 := ofMagnitude negative (1086 * fractions)

/-- Whether a number is greater than all whole numbers of 64 bits. -/
def isAboveWords (x : Binary64) : Bool :=
  (x.numberCompare? (wordEnd false)).any (· != .lt)

/-- Whether a number is less than all whole numbers of 64 bits. -/
def isBelowWords (x : Binary64) : Bool := x.numberCompare? (wordEnd true) == some .lt

/-- A number without its part smaller than one.  A NaN stays as it is. -/
def truncate (x : Binary64) : Binary64 :=
  if x.exponentBits < 1023 then ofMagnitude x.isNegative 0
  else
    -- What the last bit before the point counts.  From 2 ^ 52 on there is none behind it.
    let one := 1 <<< (1075 - x.exponentBits)
    ofMagnitude x.isNegative (x.magnitude / one * one)

/-- The whole number of 64 bits that a number is converted to: it goes toward
zero, stops at the least and the greatest one, and is zero for a NaN. -/
def toInt64 (x : Binary64) : Int64 :=
  if x.isNaN then 0
  else
    let whole := if 0 ≤ x.scale then x.signedUnits * (1 <<< x.scale.toNat : Nat)
      else x.signedUnits.tdiv (1 <<< (-x.scale).toNat : Nat)
    Int64.ofInt (max Int64.minValue.toInt (min whole Int64.maxValue.toInt))

/-- Compares a whole number with a floating-point number, without rounding the
whole one.  A NaN stands outside all numbers, on the side of its sign. -/
def compareInt (i : Int64) (x : Binary64) : Ordering :=
  if x.isNaN then if x.isNegative then .gt else .lt
  else if x.isAboveWords then .lt
  else if x.isBelowWords then .gt
  else
    -- In this range the conversion is exact.
    let whole := x.truncate
    (compare i.toInt whole.toInt64.toInt).then ((whole.numberCompare? x).getD .eq)

/-! ## Rounding -/

/-- A quotient rounded to a whole number; a half goes to the even
neighbour. -/
def roundHalfEven (num den : Nat) : Nat :=
  let q := num / den
  let r := num % den
  if 2 * r < den then q
  else if 2 * r = den then q + q % 2
  else q + 1

/-- The exponent of the unit in which a positive quotient has 53 binary
digits, or the least exponent there is. -/
def unitExponent (num den : Nat) : Int :=
  let l : Int := (num.log2 : Int) - den.log2
  let below := if 0 ≤ l then num < den <<< l.toNat else num <<< (-l).toNat < den
  max (if below then l - 53 else l - 52) (-1074)

/-- The number nearest to a quotient; a half goes to the even neighbour,
and what lies past the largest number goes to infinity. -/
def ofQuotient (negative : Bool) (num den : Nat) : Binary64 :=
  if num = 0 then ofMagnitude negative 0
  else
    let e := unitExponent num den
    let m := if 0 ≤ e then roundHalfEven num (den <<< e.toNat)
      else roundHalfEven (num <<< (-e).toNat) den
    -- A carry out of the fraction moves into the exponent by itself.
    let bits := if m < fractions then m else (e + 1075).toNat * fractions + (m - fractions)
    if bits < 2047 * fractions then ofMagnitude negative bits else infinity negative

end Binary64

end ExternalSort
