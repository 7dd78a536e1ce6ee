/-
Reading a floating-point number from decimal text.

The text is an optional sign, digits with at most one point among them or
beside them, and an optional exponent, or one of the words `inf`,
`infinity` and `nan` in any case.  The number read is the one nearest to
the decimal value.
-/
import ExternalSort.Binary64.Basic
import ExternalSort.Binary64.Decimal
import ExternalSort.Text.Number

namespace ExternalSort.Binary64

/-- The exponent after the digits: nothing, or `e` and a whole number. -/
def readExponent : List Char → Option Int
  | [] => some 0
  | c :: cs => if c == 'e' || c == 'E' then Text.signed? cs else none

/-- Reads a decimal without its sign.  There is a digit before the point
or after it. -/
def readDecimal (cs : List Char) : Option Decimal :=
  let whole := cs.takeWhile Char.isDigit
  let rest := cs.dropWhile Char.isDigit
  let (part, rest) := match rest with
    | '.' :: r => (r.takeWhile Char.isDigit, r.dropWhile Char.isDigit)
    | r => ([], r)
  if whole.isEmpty && part.isEmpty then none
  else (readExponent rest).map fun e => ⟨Text.digitsValue (whole ++ part), e - part.length⟩

/-- The number nearest to a decimal.  Values far outside the range are
settled by their order of magnitude alone. -/
def ofDecimal (negative : Bool) (d : Decimal) : Binary64 :=
  let order : Int := d.exponent + d.count
  if d.digits = 0 then ofMagnitude negative 0
  else if order > 310 then infinity negative
  else if order < -330 then ofMagnitude negative 0
  else ofQuotient negative d.fraction.1 d.fraction.2

/-- The numbers that are spelled as words. -/
def ofWord? (negative : Bool) (cs : List Char) : Option Binary64 :=
  let word := String.ofList (cs.map Char.toLower)
  if word == "inf" || word == "infinity" then some (infinity negative)
  else if word == "nan" then some (ofMagnitude negative (2047 * fractions + fractions / 2))
  else none

/-- Reads a number without its sign. -/
def readUnsigned (negative : Bool) (cs : List Char) : Option Binary64 :=
  match readDecimal cs with
  | some d => some (ofDecimal negative d)
  | none => ofWord? negative cs

/-- Reads a number. -/
def read? : List Char → Option Binary64
  | '-' :: cs => readUnsigned true cs
  | '+' :: cs => readUnsigned false cs
  | cs => readUnsigned false cs

end ExternalSort.Binary64
