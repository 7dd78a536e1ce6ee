/-
Quoted texts, as they stand in messages.

A quoted text stands between double quotes.  Quotes, backslashes and the
common control characters get a backslash before a letter; every other
character that shows nothing by itself, or that joins the one before it,
is given by its code point.
-/
import ExternalSort.Text.Hidden
import ExternalSort.Text.Extender

namespace ExternalSort.Text

/-- A character given by its code point. -/
def codePoint (c : Char) : List Char :=
  ['\\', 'u', '\x7b'] ++ Nat.toDigits 16 c.toNat ++ ['\x7d']

/-- One character inside a quoted text. -/
def quotedChar (c : Char) : List Char :=
  match c with
  | '\"' => ['\\', '\"']
  | '\\' => ['\\', '\\']
  | '\n' => ['\\', 'n']
  | '\r' => ['\\', 'r']
  | '\t' => ['\\', 't']
  | '\x00' => ['\\', '0']
  | c => if isHidden c || isExtender c then codePoint c else [c]

/-- A text between double quotes. -/
def quoted (s : String) : String :=
  String.ofList ('\"' :: s.toList.flatMap quotedChar ++ ['\"'])

end ExternalSort.Text
