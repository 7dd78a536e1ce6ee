/-
Sinks behind a buffer.

Small writes are kept in a buffer of fixed size.  A write that would not
fit empties the buffer into the sink first, and a write as large as the
buffer goes to the sink directly.  What a failed write leaves in the
buffer stays there, so the next attempt goes on where this one stopped.
-/
import ExternalSort.Bytes.Sink

namespace ExternalSort

/-- A sink behind a buffer. -/
structure BufferedSink where
  sink : Sink
  buffer : Array UInt8 := #[]

namespace BufferedSink

/-- The size of the buffer. -/
def capacity : Nat := 8192

/-- What is reported of a sink that takes nothing at all of the buffer. -/
def stuck : Fault := ⟨.writeZero, "failed to write the buffered data"⟩

/-- Empties the buffer into the sink, as far as the sink takes it. -/
def drain (s : BufferedSink) : Except Fault Unit × BufferedSink :=
  let (r, left, sink) := s.sink.writeAll s.buffer.toList stuck
  (r, { sink, buffer := left.toArray })

/-- Writes some bytes behind what is in the buffer already, which leaves
room for them unless they are as many as the buffer holds. -/
def put (s : BufferedSink) (bs : List UInt8) : Except Fault Unit × BufferedSink :=
  if bs.length < capacity then (.ok (), { s with buffer := s.buffer ++ bs })
  else
    let (r, _, sink) := s.sink.writeAll bs
    (r, { s with sink })

/-- Writes some bytes. -/
def write (s : BufferedSink) (bs : List UInt8) : Except Fault Unit × BufferedSink :=
  if s.buffer.size + bs.length ≤ capacity then
    put s bs
  else
    match s.drain with
    | (.error f, s) => (.error f, s)
    | (.ok (), s) => put s bs

/-- Gives the writer up: what is in the buffer still goes to the sink, as
far as the sink takes it. -/
def abandon (s : BufferedSink) : Sink := s.drain.2.sink

/-- Empties the buffer and flushes the sink. -/
def close (s : BufferedSink) : Except Fault Unit × Sink :=
  match s.drain with
  | (.error f, s) => (.error f, s.abandon)
  | (.ok (), s) => (s.sink.flush, s.sink)

end BufferedSink

end ExternalSort
