/-
Writing frames into a sink.

An item is turned into its payload before anything is written, so an item
that cannot be turned into bytes, or into too many, leaves no trace.
-/
import ExternalSort.Bytes.BufferedSink
import ExternalSort.Frame.Basic

namespace ExternalSort

/-- A sink of frames, with what it has written so far. -/
structure FrameSink where
  out : BufferedSink
  /-- Frames written. -/
  frames : Nat := 0
  /-- Bytes written, the lengths included. -/
  bytes : Nat := 0

namespace FrameSink

variable {α : Type}

def ofSink (s : Sink) : FrameSink := { out := { sink := s } }

/-- Writes a payload behind its length. -/
def writePayload (w : FrameSink) (payload : List UInt8) :
    Except Failure Unit × FrameSink :=
  let length := payload.length
  if Frame.maxPayload < length then (.error (.frameTooLarge length), w)
  else
    match w.out.write (bigEndian Frame.headerSize length) with
    | (.error f, out) => (.error (.io f), { w with out })
    | (.ok (), out) =>
      match out.write payload with
      | (.error f, out) => (.error (.io f), { w with out })
      | (.ok (), out) =>
        (.ok (), { out, frames := w.frames + 1, bytes := w.bytes + (Frame.headerSize + length) })

/-- Writes one item. -/
def write (encode : α → Except Cause (List UInt8)) (w : FrameSink) (a : α) :
    Except Failure Unit × FrameSink :=
  match encode a with
  | .error c => (.error (.encoding c), w)
  | .ok payload => w.writePayload payload

/-- Writes items in order, up to the first one that fails. -/
def writeAll (encode : α → Except Cause (List UInt8)) (w : FrameSink) :
    List α → Except Failure Unit × FrameSink
  | [] => (.ok (), w)
  | a :: rest =>
    match write encode w a with
    | (.error e, w) => (.error e, w)
    | (.ok (), w) => writeAll encode w rest

/-- Gives the writing up; what was held back still goes to the sink, as far
as the sink takes it. -/
def abandon (w : FrameSink) : Sink := w.out.abandon

/-- Ends the writing: everything held back goes to the sink, which is then
flushed. -/
def close (w : FrameSink) : Except Failure Unit × Sink :=
  let (r, s) := w.out.close
  (r.mapError .io, s)

end FrameSink

end ExternalSort
