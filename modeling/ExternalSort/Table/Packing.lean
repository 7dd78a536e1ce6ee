/-
Rows as bytes.

The rows of one table share their columns, so only values are stored, in
the order of the columns.  Each value is one byte for its kind and a
payload; a byte with its highest bit set stands for null.
-/
import ExternalSort.Frame.Basic
import ExternalSort.Row

namespace ExternalSort.Table

/-! ## Writing -/

/-- The byte of a value that is null. -/
def nullTag : UInt8 := 0x80

/-- The text is too long for its length to be stored. -/
def longText : Cause := .text "out of range integral type conversion attempted"

/-- The payload of a value. -/
def packPayload : Value → Except Cause (List UInt8)
  | .null => .ok []
  | .bool b => .ok [if b then 1 else 0]
  | .int i => .ok (bigEndian 8 i.toUInt64.toNat)
  | .float x => .ok (bigEndian 8 x.bits.toNat)
  | .text s =>
    let bs := Text.utf8 s
    if 0x100000000 ≤ bs.length then .error longText else .ok (bigEndian 4 bs.length ++ bs)
  | .date d => .ok (bigEndian 4 d.toUInt32.toNat)
  | .dateTime t => .ok (bigEndian 8 t.toUInt64.toNat)
  | .time t => .ok (bigEndian 8 t.toUInt64.toNat)

def packValue (v : Value) : Except Cause (List UInt8) :=
  if v.isNull then .ok [nullTag] else (packPayload v).map (v.kind.tag :: ·)

/-- Puts the bytes of a row behind what a buffer holds, one value after the
other.  A column that the row lacks is null. -/
def packRow (columns : List String) (row : Row) (buffer : List UInt8) :
    Except Cause (List UInt8) :=
  columns.foldlM
    (fun buffer name => (packValue ((row.get? name).getD .null)).map (buffer ++ ·)) buffer

/-! ## Reading -/

/-- Why bytes are no row. -/
inductive RowError where
  /-- The bytes end inside a value. -/
  | tooShort
  | unknownTag (tag : UInt8)
  /-- A text is said to be longer than the bytes that are left. -/
  | overrun (length left : Nat)
  | badText (error : Text.Utf8Error)
  /-- Bytes are left after the last column. -/
  | trailing (count : Nat)
deriving DecidableEq, Repr

namespace RowError

def message : RowError → String
  | tooShort => "failed to fill whole buffer"
  | unknownTag t => s!"unknown value tag {t.toNat}"
  | overrun n left => s!"string of {n} bytes overruns row ({left} bytes left)"
  | badText e => e.message
  | trailing n => s!"{n} trailing bytes after row"

end RowError

/-- Takes a number of bytes off the front. -/
def takeBytes (n : Nat) (bs : List UInt8) : Except RowError (List UInt8 × List UInt8) :=
  if bs.length < n then .error .tooShort else .ok (bs.splitAt n)

/-- Takes a whole number of so many bytes off the front. -/
def takeNat (width : Nat) (bs : List UInt8) : Except RowError (Nat × List UInt8) :=
  (takeBytes width bs).map fun (n, rest) => (ofBigEndian n, rest)

/-- Takes a text behind its length off the front. -/
def takeText (bs : List UInt8) : Except RowError (String × List UInt8) := do
  let (length, rest) ← takeNat 4 bs
  if rest.length < length then .error (.overrun length rest.length)
  else
    let (text, rest) := rest.splitAt length
    let s ← (Text.ofUtf8 text).mapError .badText
    .ok (s, rest)

/-- Takes the payload of a value of some kind off the front. -/
def unpackPayload (k : Kind) (bs : List UInt8) : Except RowError (Value × List UInt8) :=
  match k with
  | .null => .ok (.null, bs)
  | .bool => (takeNat 1 bs).map fun (n, r) => (.bool (n != 0), r)
  | .int => (takeNat 8 bs).map fun (n, r) => (.int (UInt64.ofNat n).toInt64, r)
  | .float => (takeNat 8 bs).map fun (n, r) => (.float ⟨UInt64.ofNat n⟩, r)
  | .text => (takeText bs).map fun (s, r) => (.text s, r)
  | .date => (takeNat 4 bs).map fun (n, r) => (.date (UInt32.ofNat n).toInt32, r)
  | .dateTime => (takeNat 8 bs).map fun (n, r) => (.dateTime (UInt64.ofNat n).toInt64, r)
  | .time => (takeNat 8 bs).map fun (n, r) => (.time (UInt64.ofNat n).toInt64, r)

/-- Takes a value off the front. -/
def unpackValue : List UInt8 → Except RowError (Value × List UInt8)
  | [] => .error .tooShort
  | t :: bs =>
    if nullTag ≤ t then .ok (.null, bs)
    else match Kind.ofTag? t with
      | none => .error (.unknownTag t)
      | some k => unpackPayload k bs

/-- Takes a value for each column off the front. -/
def unpackFields : List String → List UInt8 → Except RowError (List (String × Value) × List UInt8)
  | [], bs => .ok ([], bs)
  | name :: names, bs => do
    let (v, bs) ← unpackValue bs
    let (fs, bs) ← unpackFields names bs
    .ok ((name, v) :: fs, bs)

/-- The row of some bytes, which must hold nothing else. -/
def unpackRow (columns : List String) (bs : List UInt8) : Except RowError Row := do
  let (fs, rest) ← unpackFields columns bs
  if rest.isEmpty then .ok (Row.ofList fs) else .error (.trailing rest.length)

/-- How the rows of a table are stored. -/
def packing (columns : List String) : Codec Row where
  encode row := packRow columns row []
  decode bs := (unpackRow columns bs).mapError fun e => .text e.message
  size := Row.size

end ExternalSort.Table
