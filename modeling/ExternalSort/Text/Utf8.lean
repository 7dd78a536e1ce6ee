/-
UTF-8: the bytes of a text, and the text of some bytes.

Reading goes from left to right, one character at a time.  Where no
character can be read the fault tells how many bytes were read before it
and how long the broken part is: the longest beginning of some character,
at least one byte, unless the input ends inside it.
-/
namespace ExternalSort.Text

/-- The bytes of a text. -/
def utf8 (s : String) : List UInt8 := s.toList.flatMap String.utf8EncodeChar

/-- Why bytes are no UTF-8 text. -/
inductive Utf8Error where
  /-- A part of `length` bytes that begins no character. -/
  | invalid (offset length : Nat)
  /-- The input ends inside the character that begins at `offset`. -/
  | incomplete (offset : Nat)
deriving DecidableEq, Repr

namespace Utf8Error

def message : Utf8Error → String
  | .invalid i n => s!"invalid utf-8 sequence of {n} bytes from index {i}"
  | .incomplete i => s!"incomplete utf-8 byte sequence from index {i}"

end Utf8Error

/-- What stands at the beginning of some bytes. -/
inductive Utf8Head where
  /-- A character of `length` bytes. -/
  | char (c : Char) (length : Nat)
  /-- A part of `length` bytes that begins no character. -/
  | broken (length : Nat)
  /-- The beginning of a character, and nothing after it. -/
  | cut
deriving DecidableEq, Repr

/-- What the first byte of a character tells: how many bytes follow, the
range of the next one, and its own part of the code point. -/
structure Utf8Lead where
  follow : Nat
  lo : UInt8
  hi : UInt8
  value : Nat
deriving DecidableEq, Repr

/-- The range of the second byte leaves out long spellings, surrogates and
what lies past the last character. -/
def utf8Lead? (b : UInt8) : Option Utf8Lead :=
  let n := b.toNat
  if n < 0x80 then some ⟨0, 0x80, 0xBF, n⟩
  else if n < 0xC2 then none
  else if n < 0xE0 then some ⟨1, 0x80, 0xBF, n - 0xC0⟩
  else if n = 0xE0 then some ⟨2, 0xA0, 0xBF, 0⟩
  else if n = 0xED then some ⟨2, 0x80, 0x9F, 0xD⟩
  else if n < 0xF0 then some ⟨2, 0x80, 0xBF, n - 0xE0⟩
  else if n = 0xF0 then some ⟨3, 0x90, 0xBF, 0⟩
  else if n < 0xF4 then some ⟨3, 0x80, 0xBF, n - 0xF0⟩
  else if n = 0xF4 then some ⟨3, 0x80, 0x8F, 4⟩
  else none

/-- Reads the bytes that follow a first byte: `taken` bytes have been read
and give `value`, and the next one must lie between `lo` and `hi`. -/
def utf8Follow (taken value : Nat) : Nat → UInt8 → UInt8 → List UInt8 → Utf8Head
  | 0, _, _, _ => .char (Char.ofNat value) taken
  | _ + 1, _, _, [] => .cut
  | n + 1, lo, hi, b :: r =>
    if lo ≤ b && b ≤ hi then
      utf8Follow (taken + 1) (value * 64 + b.toNat % 64) n 0x80 0xBF r
    else .broken taken

/-- Reads one character, of a first byte and what comes after it. -/
def utf8Head (b : UInt8) (r : List UInt8) : Utf8Head :=
  match utf8Lead? b with
  | none => .broken 1
  | some l => utf8Follow 1 l.value l.follow l.lo l.hi r

/-- Reads the characters of some bytes that stand at `offset`. -/
def utf8Chars (offset : Nat) : List UInt8 → Except Utf8Error (List Char)
  | [] => .ok []
  | b :: r =>
    match utf8Head b r with
    | .char c n => (utf8Chars (offset + n) (r.drop (n - 1))).map (c :: ·)
    | .broken n => .error (.invalid offset n)
    | .cut => .error (.incomplete offset)
termination_by bs => bs.length
decreasing_by simp only [List.length_drop, List.length_cons]; omega

/-- The text of some bytes. -/
def ofUtf8 (bs : List UInt8) : Except Utf8Error String :=
  (utf8Chars 0 bs).map String.ofList

theorem ofUtf8_nil : ofUtf8 [] = .ok "" := by
  rw [ofUtf8, utf8Chars]
  rfl

end ExternalSort.Text
