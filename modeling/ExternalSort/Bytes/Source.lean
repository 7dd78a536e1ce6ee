/-
Sources of bytes.

A source is the list of what will happen when it is read: bytes arrive, a
read is interrupted, or a read fails, which is also how a source says that
it has nothing to give right now.  After the last of these every read
returns no bytes, the sign of the end.  An interrupted read is made again
at once, so no reader sees it.
-/
import ExternalSort.Fault
import ExternalSort.Total

namespace ExternalSort

/-- What happens when a source is read. -/
inductive ReadEvent where
  | data (bytes : List UInt8)
  | interrupt
  | fault (f : Fault)
deriving DecidableEq, Repr

/-- A source of bytes. -/
abbrev Source := List ReadEvent

namespace ReadEvent

/-- How much reading an event takes at most. -/
def size : ReadEvent → Nat
  | data bs => bs.length + 1
  | interrupt => 1
  | fault _ => 1

def bytes : ReadEvent → List UInt8
  | data bs => bs
  | interrupt => []
  | fault _ => []

end ReadEvent

namespace Source

/-- A source that hands out some bytes at once. -/
def ofBytes (bs : List UInt8) : Source := [.data bs]

/-- Pieces of `n` bytes at most, `n` being positive. -/
def pieces (n : Nat) (bs : List UInt8) : List (List UInt8) :=
  if _h : bs.isEmpty ∨ n = 0 then [] else bs.take n :: pieces n (bs.drop n)
termination_by bs.length
decreasing_by
  simp only [List.isEmpty_iff, not_or] at _h
  have := List.length_pos_iff.2 _h.1
  simp only [List.length_drop]
  omega

/-- A source that hands out some bytes in pieces of `n` at most.  Before
each piece and before the end the events `pause` happen. -/
def inPieces (n : Nat) (pause : Source) (bs : List UInt8) : Source :=
  (pieces n bs).flatMap (fun p => pause ++ [.data p]) ++ pause

/-- What a buffer lets through of a source.  A buffer without room takes no
byte, and a reader that gets no byte is at the end, so only what happens
before the first byte comes through. -/
def throughBuffer (capacity : Nat) (s : Source) : Source :=
  if capacity = 0 then s.takeWhile (·.bytes.isEmpty) else s

/-- All bytes of a source up to its end, or its first fault. -/
def readAll (s : Source) : Except Fault (List UInt8) :=
  s.foldlM (fun bs e => match e with
    | .data cs => .ok (bs ++ cs)
    | .interrupt => .ok bs
    | .fault f => .error f) []

/-- All bytes that come from a source if reading goes on after faults. -/
def bytes (s : Source) : List UInt8 := s.flatMap ReadEvent.bytes

/-- How much reading a source takes at most. -/
def size (s : Source) : Nat := total ReadEvent.size s

@[simp] theorem bytes_nil : bytes [] = [] := rfl

@[simp] theorem bytes_cons (e : ReadEvent) (s : Source) : bytes (e :: s) = e.bytes ++ bytes s :=
  List.flatMap_cons ..

@[simp] theorem size_nil : size [] = 0 := rfl

@[simp] theorem size_cons (e : ReadEvent) (s : Source) : size (e :: s) = e.size + size s := rfl

@[simp] theorem bytes_throughBuffer_zero (s : Source) : bytes (throughBuffer 0 s) = [] := by
  induction s with
  | nil => rfl
  | cons e s ih =>
    simp only [throughBuffer, ↓reduceIte, List.takeWhile_cons] at ih ⊢
    split
    next h => rw [bytes_cons, ih, List.isEmpty_iff.1 h, List.append_nil]
    next => rfl

/-- Reads once, `n` bytes at most.  No bytes mean the end. -/
def read (n : Nat) : Source → Except Fault (List UInt8) × Source
  | [] => (.ok [], [])
  | .interrupt :: s => read n s
  | .fault f :: s => (.error f, s)
  | .data [] :: s => read n s
  | .data (b :: bs) :: s =>
    match (b :: bs).drop n with
    | [] => (.ok (b :: bs), s)
    | rest => (.ok ((b :: bs).take n), .data rest :: s)

/-- What one read takes off the source it also returns. -/
theorem read_bytes (n : Nat) (s : Source) {bs : List UInt8} (h : (read n s).1 = .ok bs) :
    bytes s = bs ++ bytes (read n s).2 := by
  fun_induction read n s <;> simp_all [ReadEvent.bytes]
  all_goals subst h
  all_goals simp [← List.append_assoc]

theorem read_bytes_le (n : Nat) (s : Source) :
    (bytes (read n s).2).length ≤ (bytes s).length := by
  fun_induction read n s <;> simp_all [ReadEvent.bytes]
  all_goals omega

/-- Every byte that a read returns makes the source smaller. -/
theorem read_size (n : Nat) (s : Source) {bs : List UInt8} (h : (read n s).1 = .ok bs) :
    bs.length + size (read n s).2 ≤ size s := by
  fun_induction read n s <;> simp_all [ReadEvent.size]
  all_goals first | omega | (subst h; simp; omega)

end Source

end ExternalSort
