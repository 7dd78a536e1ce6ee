/-
Frames: how items stand in a file of bytes.

Each item is turned into a payload of bytes and stands behind the length
of its payload, four bytes with the most significant one first.  Frames
follow each other without anything between them, and the end of the bytes
is the end of the items.
-/
import ExternalSort.Bytes.BigEndian
import ExternalSort.Failure

namespace ExternalSort

/-- How items of one type are stored, and how much memory one of them is
estimated to take. -/
structure Codec (α : Type) where
  encode : α → Except Cause (List UInt8)
  decode : List UInt8 → Except Cause α
  size : α → Nat

namespace Frame

/-- The size of the length in front of a payload. -/
def headerSize : Nat := 4

/-- The size of the largest payload. -/
def maxPayload : Nat := 64 * 1024 * 1024

/-- The bytes of a frame. -/
def encode (payload : List UInt8) : List UInt8 := bigEndian headerSize payload.length ++ payload

/-- What stands at the beginning of some bytes. -/
inductive Head where
  /-- A whole frame, and the bytes after it. -/
  | frame (payload rest : List UInt8)
  /-- The beginning of something of `expected` bytes. -/
  | short (expected : Nat)
  | tooLarge (length : Nat)
deriving DecidableEq, Repr

/-- Whether there is only the beginning of something. -/
def Head.isShort : Head → Bool
  | .short _ => true
  | .frame .. | .tooLarge _ => false

/-- Looks for a frame at the beginning of some bytes. -/
def head : List UInt8 → Head
  | a :: b :: c :: d :: rest =>
    let length := ofBigEndian [a, b, c, d]
    if maxPayload < length then .tooLarge length
    else
      let payload := rest.take length
      if payload.length < length then .short (headerSize + length)
      else .frame payload (rest.drop length)
  | _ => .short headerSize

/-- A frame is its header, its payload and nothing else. -/
theorem drop_of_head_frame {bs payload rest : List UInt8} (h : head bs = .frame payload rest) :
    headerSize + payload.length ≤ bs.length ∧ bs.drop (headerSize + payload.length) = rest := by
  match bs, h with
  | a :: b :: c :: d :: tail, h =>
    simp only [head] at h
    split at h
    · exact absurd h (by simp)
    split at h
    · exact absurd h (by simp)
    next hl =>
      obtain ⟨rfl, rfl⟩ := Head.frame.inj h
      have hlength : (tail.take (ofBigEndian [a, b, c, d])).length = ofBigEndian [a, b, c, d] := by
        have := List.length_take_le (ofBigEndian [a, b, c, d]) tail
        omega
      rw [hlength, headerSize, Nat.add_comm]
      refine ⟨?_, rfl⟩
      rw [← hlength, List.length_take]
      simp only [List.length_cons]
      omega

theorem length_of_head_frame {bs payload rest : List UInt8} (h : head bs = .frame payload rest) :
    rest.length + 4 ≤ bs.length := by
  obtain ⟨hle, rfl⟩ := drop_of_head_frame h
  rw [headerSize] at *
  rw [List.length_drop]
  omega

end Frame

end ExternalSort
