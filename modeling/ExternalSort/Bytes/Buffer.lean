/-
Buffers that a source is read into.

A buffer is made longer by zeros, a read puts its bytes over the first of them,
and those that are left are cut off again.  A buffer that would become longer
than `maxBuffer` is not made at all: the program is aborted.
-/
import ExternalSort.Bytes.Source

namespace ExternalSort

/-- The most bytes that a buffer can hold. -/
def maxBuffer : Nat := 0x7FFFFFFFFFFFFFFF

namespace Buffer

/-- Puts bytes over those that stand in a buffer from a place on. -/
def overwrite (buffer : List UInt8) (start : Nat) (bs : List UInt8) : List UInt8 :=
  buffer.take start ++ bs ++ buffer.drop (start + bs.length)

/-- Reads once, `n` bytes at most, to the end of a buffer.  The result tells how
many bytes came, and what the buffer holds then. -/
def readMore (buffer : List UInt8) (n : Nat) (source : Source) :
    Except Fault Nat × List UInt8 × Source :=
  let start := buffer.length
  let longer := buffer ++ List.replicate n 0
  match source.read n with
  | (.ok bs, source) =>
    (.ok bs.length, (overwrite longer start bs).take (start + bs.length), source)
  | (.error f, source) => (.error f, longer.take start, source)

/-- What was read stands behind what was there. -/
theorem readMore_ok {buffer bs : List UInt8} {n : Nat} {source source' : Source}
    (h : source.read n = (.ok bs, source')) :
    readMore buffer n source = (.ok bs.length, buffer ++ bs, source') := by
  have hlength : buffer.length + bs.length = (buffer ++ bs).length := List.length_append.symm
  simp only [readMore, h, overwrite, List.take_left, hlength]

/-- A read that fails leaves the buffer as it was. -/
theorem readMore_error {buffer : List UInt8} {n : Nat} {source source' : Source} {f : Fault}
    (h : source.read n = (.error f, source')) :
    readMore buffer n source = (.error f, buffer, source') := by
  simp [readMore, h]

end Buffer

end ExternalSort
