/-
Decimals: whole numbers of units that are powers of ten.
-/
namespace ExternalSort

/-- The decimal `digits` times ten to the power `exponent`. -/
structure Decimal where
  digits : Nat
  exponent : Int
deriving DecidableEq, Repr

namespace Decimal

/-- How many digits a decimal has. -/
def count (d : Decimal) : Nat := (Nat.toDigits 10 d.digits).length

/-- A power of ten. -/
def tenTo (n : Nat) : Nat := Nat.pow 10 n

/-- Numerator and denominator of a decimal. -/
def fraction (d : Decimal) : Nat × Nat :=
  if 0 ≤ d.exponent then (d.digits * tenTo d.exponent.toNat, 1)
  else (d.digits, tenTo (-d.exponent).toNat)

/-- The same decimal without the zeros that its digits end in. -/
def trimmed (d : Decimal) : Decimal :=
  let zeros := ((Nat.toDigits 10 d.digits).reverse.takeWhile (· == '0')).length
  ⟨d.digits / tenTo zeros, d.exponent + zeros⟩

/-- A decimal written out in full, without an exponent.  A point stands
only before a part smaller than one. -/
def positional (d : Decimal) : String :=
  let ds := Nat.toDigits 10 d.digits
  if 0 ≤ d.exponent then String.ofList (ds ++ List.replicate d.exponent.toNat '0')
  else
    let places := (-d.exponent).toNat
    let ds := List.replicate (places + 1 - ds.length) '0' ++ ds
    let (whole, part) := ds.splitAt (ds.length - places)
    String.ofList (whole ++ '.' :: part)

end Decimal

end ExternalSort
