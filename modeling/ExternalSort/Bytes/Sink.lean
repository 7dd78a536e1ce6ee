/-
Sinks of bytes.

A sink answers each write by taking some of the bytes offered to it, or by
a fault.  How it answers is up to its plan, which sees how many writes came
before, how many of them were refused and how many bytes were taken.  A write
that is interrupted is made again at once, so no writer sees it.
-/
import ExternalSort.Fault

namespace ExternalSort

/-- What a sink has seen so far. -/
structure SinkHistory where
  /-- Writes that were answered. -/
  writes : Nat := 0
  /-- Writes among them that were refused. -/
  refused : Nat := 0
  /-- Bytes taken. -/
  taken : Nat := 0
deriving DecidableEq, Repr

/-- How a sink answers. -/
structure SinkPlan where
  /-- How many bytes of a write to take, or why none. -/
  write : SinkHistory → Nat → Except Fault Nat := fun _ n => .ok n
  flush : SinkHistory → Except Fault Unit := fun _ => .ok ()

namespace SinkPlan

/-- There is no room for another byte. -/
def full : Fault := ⟨.other, "disk full"⟩

/-- A sink that takes `most` bytes at a time at most, and `limit` in all if
there is a limit.  A write that finds no room is refused.  If the sink
`recovers`, the limit is lifted by the first refusal. -/
def limited (limit : Option Nat) (most : Nat) (recovers : Bool) : SinkPlan where
  write h n :=
    let room := match limit with
      | some l => if recovers && 0 < h.refused then n else l - h.taken
      | none => n
    let k := min n (min most room)
    if k = 0 && 0 < n then .error full else .ok k

end SinkPlan

/-- A sink of bytes. -/
structure Sink where
  plan : SinkPlan := {}
  accepted : ByteArray := .empty
  history : SinkHistory := {}

namespace Sink

/-- The bytes a sink has taken. -/
def bytes (s : Sink) : List UInt8 := s.accepted.data.toList

/-- Offers some bytes once.  The result is how many were taken, never more
than offered. -/
def write (s : Sink) (bs : List UInt8) : Except Fault Nat × Sink :=
  match s.plan.write s.history bs.length with
  | .error f =>
    (.error f,
      { s with history := { s.history with
          writes := s.history.writes + 1
          refused := s.history.refused + 1 } })
  | .ok n =>
    let part := if bs.length ≤ n then bs else bs.take n
    (.ok part.length,
      { s with
          accepted := part.foldl ByteArray.push s.accepted
          history := { s.history with
            writes := s.history.writes + 1
            taken := s.history.taken + part.length } })

def flush (s : Sink) : Except Fault Unit := s.plan.flush s.history

/-- What is reported of a sink that takes nothing at all of a write. -/
def stuck : Fault := ⟨.writeZero, "failed to write whole buffer"⟩

/-- Offers some bytes again and again until all are taken or a write is
refused.  A write of which nothing at all is taken is refused by `ifStuck`.  The
result also tells what was not taken. -/
def writeAll (s : Sink) (bs : List UInt8) (ifStuck : Fault := stuck) :
    Except Fault Unit × List UInt8 × Sink :=
  if bs.isEmpty then (.ok (), [], s)
  else
    match s.write bs with
    | (.error f, s) => (.error f, bs, s)
    | (.ok n, s) => if n = 0 then (.error ifStuck, bs, s) else writeAll s (bs.drop n) ifStuck
termination_by bs.length
decreasing_by
  have : bs ≠ [] := by simpa using ‹¬bs.isEmpty = true›
  have := List.length_pos_iff.2 this
  simp only [List.length_drop]; omega

end Sink

end ExternalSort
