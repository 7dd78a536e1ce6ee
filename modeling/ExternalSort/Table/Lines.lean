/-
Lines of a table.

A line is read from a source up to its line feed, or to the end.  It is
split into cells at its tabs; line feeds and carriage returns at its end
belong to no cell.
-/
import ExternalSort.Bytes.Source
import ExternalSort.Text.Blank
import ExternalSort.Text.Utf8

namespace ExternalSort.Table

/-- The byte that ends a line. -/
def lineFeed : UInt8 := 10

/-- Splits bytes behind the first line feed, if there is one. -/
def cutLine : List UInt8 → Option (List UInt8 × List UInt8)
  | [] => none
  | b :: bs =>
    if b = lineFeed then some ([b], bs)
    else (cutLine bs).map fun (line, rest) => (b :: line, rest)

/-- What reading a line gave: some bytes, and the fault that stopped it, if
one did. -/
structure LineRead where
  bytes : List UInt8 := []
  fault : Option Fault := none
deriving DecidableEq, Repr

/-- Reads up to the end of a line, to a fault, or to the end. -/
def readLine : Source → LineRead × Source
  | [] => ({}, [])
  | .interrupt :: s => readLine s
  | .fault f :: s => ({ fault := some f }, s)
  | .data bs :: s =>
    match cutLine bs with
    | some (line, rest) => ({ bytes := line }, .data rest :: s)
    | none =>
      let (r, s) := readLine s
      ({ r with bytes := bs ++ r.bytes }, s)

theorem cutLine_eq {bs line rest : List UInt8} (h : cutLine bs = some (line, rest)) :
    bs = line ++ rest := by
  induction bs generalizing line with
  | nil => simp [cutLine] at h
  | cons b bs ih =>
    unfold cutLine at h
    split at h
    · grind
    · simp only [Option.map_eq_some_iff] at h
      obtain ⟨⟨l, r⟩, hl, he⟩ := h
      simp only [Prod.mk.injEq] at he
      have := ih (he.2 ▸ hl)
      simp [← he.1, this]

/-- What reading a line returns is what it takes off the source. -/
theorem readLine_bytes (s : Source) :
    Source.bytes s = (readLine s).1.bytes ++ Source.bytes (readLine s).2 := by
  fun_induction readLine s with
  | case1 => rfl
  | case2 s ih => simpa [ReadEvent.bytes] using ih
  | case3 f s => simp [ReadEvent.bytes]
  | case4 bs s line rest h => simp [ReadEvent.bytes, cutLine_eq h]
  | case5 bs s h r s' hr ih => simp_all [ReadEvent.bytes]

/-! ## Cells -/

def isLineEnd (c : Char) : Bool := c == '\n' || c == '\r'

/-- A line without what ends it. -/
def lineText (line : List Char) : List Char := Text.dropRightWhile isLineEnd line

/-- The cells of a line. -/
def cells (line : String) : List String :=
  (Text.pieces (· == '\t') (lineText line.toList)).map String.ofList

/-- Reads the first line of a table, which names its columns.  There is
none if the table is empty. -/
def takeHeader (s : Source) : Except Fault (Option (List String)) × Source :=
  let (r, s) := readLine s
  match r.fault, Text.ofUtf8 r.bytes with
  | some f, _ => (.error f, s)
  | none, .error _ => (.error Fault.notText, s)
  | none, .ok line => (.ok (if r.bytes.isEmpty then none else some (cells line)), s)

end ExternalSort.Table
