/-
Reading frames from a source, on demand.

Bytes are read in chunks to the end of a buffer until they make up a frame,
whose item is handed over against one unit of demand.  The source is read only
while an item is asked for and no frame is at hand; the bytes of frames that
were handed over are cut off the buffer before it is.  Bytes that end inside a
frame are an error: files of frames are never cut short rightfully.
-/
import ExternalSort.Bytes.Buffer
import ExternalSort.Frame.Basic
import ExternalSort.Stream.Basic
import ExternalSort.Stream.Turn

namespace ExternalSort

/-- A stream of the items in a source of frames. -/
structure FrameStream (α : Type) where
  source : Source
  decode : List UInt8 → Except Cause α
  /-- Bytes read. -/
  pending : List UInt8 := []
  /-- How many of them belong to frames that were handed over. -/
  pos : Nat := 0
  pos_le : pos ≤ pending.length := by decide
  /-- How many bytes to ask of the source at a time. -/
  chunk : Nat := 8192
  chunk_pos : 0 < chunk := by decide
  /-- Whether the source has come to its end. -/
  atEnd : Bool := false
  supply : Supply α := {}

namespace FrameStream

variable {α : Type}

/-- A stream that asks for at least one byte at a time. -/
def ofSource (source : Source) (decode : List UInt8 → Except Cause α) (chunk : Nat) :
    FrameStream α :=
  { source, decode, chunk := max chunk 1, chunk_pos := by omega }

/-- Bytes read that have not been handed over. -/
def atHand (r : FrameStream α) : List UInt8 := r.pending.drop r.pos

/-- Whether the buffer can hold one more chunk.  Where it cannot, reading more
aborts the program, and what follows is nobody's behaviour. -/
def hasRoom (r : FrameStream α) : Bool := r.atHand.length + r.chunk ≤ maxBuffer

/-- Whether the next turn reads the source. -/
def reads (r : FrameStream α) : Bool :=
  r.supply.canSend && !r.atEnd && (Frame.head r.atHand).isShort

/-- Ends a stream by an error. -/
def fail (r : FrameStream α) (e : Failure) : Turn (FrameStream α) (Event α) :=
  let (o, es) := r.supply.fail e
  { state := { r with supply := o }, events := es }

/-- Reads one chunk behind the bytes that are at hand.  A source that is not
ready lets the stream rest. -/
def readMore (r : FrameStream α) : Turn (FrameStream α) (Event α) :=
  match Buffer.readMore r.atHand r.chunk r.source with
  | (.ok n, pending, source) =>
    { state :=
        { r with source, pending, pos := 0, pos_le := Nat.zero_le _, atEnd := r.atEnd || n == 0 }
      again := true }
  | (.error f, pending, source) =>
    let r := { r with source, pending, pos := 0, pos_le := Nat.zero_le _ }
    if f.kind = .wouldBlock then .rest r else fail r (.io f)

/-- The end of the source, with some bytes of something longer at hand. -/
def conclude (r : FrameStream α) (expected : Nat) : Turn (FrameStream α) (Event α) :=
  if r.atHand.isEmpty then
    let (o, es) := r.supply.finish .ended
    { state := { r with supply := o }, events := es }
  else r.fail (.truncatedFrame expected r.atHand.length)

/-- Goes on behind the frame that comes first. -/
def pass (r : FrameStream α) {payload rest : List UInt8}
    (h : Frame.head r.atHand = .frame payload rest) : FrameStream α :=
  { r with
    pos := r.pos + (Frame.headerSize + payload.length)
    pos_le := by
      have hle := (Frame.drop_of_head_frame h).1
      rw [atHand, List.length_drop] at hle
      have := r.pos_le
      omega }

/-- Hands over the item of the frame that comes first, or fails. -/
def deliver (r : FrameStream α) {payload rest : List UInt8}
    (h : Frame.head r.atHand = .frame payload rest) : Turn (FrameStream α) (Event α) :=
  match r.decode payload with
  | .error c => fail (r.pass h) (.decoding c)
  | .ok a =>
    let (o, es) := r.supply.send a
    { state := { r.pass h with supply := o }, events := es, again := true }

/-- Hands over one item, or reads one chunk, or ends. -/
def turn (r : FrameStream α) : Turn (FrameStream α) (Event α) :=
  if !r.supply.canSend then .rest r
  else match h : Frame.head r.atHand with
    | .frame _ _ => r.deliver h
    | .tooLarge length => r.fail (.frameTooLarge length)
    | .short expected => if r.atEnd then r.conclude expected else r.readMore

/-- What was not handed over stands behind the position. -/
@[simp] theorem atHand_pass (r : FrameStream α) {payload rest : List UInt8}
    (h : Frame.head r.atHand = .frame payload rest) : (r.pass h).atHand = rest := by
  refine Eq.trans ?_ (Frame.drop_of_head_frame h).2
  rw [atHand, atHand, List.drop_drop]
  rfl

/-- A stream whose source has brought some bytes. -/
def refilled (r : FrameStream α) (source : Source) (bs : List UInt8) : FrameStream α :=
  { r with source, pending := r.atHand ++ bs, pos := 0, pos_le := Nat.zero_le _ }

@[simp] theorem atHand_refilled (r : FrameStream α) (source : Source) (bs : List UInt8) :
    (r.refilled source bs).atHand = r.atHand ++ bs := rfl

/-- Whatever a read brings stands behind what was at hand. -/
theorem readMore_cases (r : FrameStream α) :
    (∃ bs source, r.source.read r.chunk = (.ok bs, source) ∧
      r.readMore =
        { state := { r.refilled source bs with atEnd := r.atEnd || bs.isEmpty }, again := true }) ∨
    ∃ f source, r.source.read r.chunk = (.error f, source) ∧
      r.readMore = if f.kind = .wouldBlock then .rest (r.refilled source [])
        else (r.refilled source []).fail (.io f) := by
  cases hr : r.source.read r.chunk with
  | mk result source =>
    cases result with
    | ok bs =>
        refine .inl ⟨bs, source, rfl, ?_⟩
        rw [readMore, Buffer.readMore_ok hr]
        cases bs <;> rfl
    | error f =>
        refine .inr ⟨f, source, rfl, ?_⟩
        rw [readMore, Buffer.readMore_error hr]
        simp only [refilled, List.append_nil]

/-- What a stream still has to work on. -/
def size (r : FrameStream α) : Nat :=
  2 * r.source.size + r.atHand.length + (if r.atEnd then 0 else 1)

/-- No more items than bytes are still to come. -/
def bound (r : FrameStream α) : Nat := r.atHand.length + r.source.bytes.length

theorem deliver_shrinks (r : FrameStream α) {payload rest : List UInt8}
    (hr : Frame.head r.atHand = .frame payload rest)
    (h : (r.deliver hr).again = true) : (r.deliver hr).state.size < r.size := by
  have hlength := Frame.length_of_head_frame hr
  revert h
  unfold deliver
  split
  · simp [fail]
  · intro _
    show 2 * r.source.size + (r.pass hr).atHand.length + (if r.atEnd then 0 else 1) < r.size
    rw [atHand_pass, size]
    omega

theorem readMore_shrinks (r : FrameStream α) (he : ¬r.atEnd = true) (h : r.readMore.again = true) :
    r.readMore.state.size < r.size := by
  obtain ⟨bs, source, hr, hm⟩ | ⟨f, source, hr, hm⟩ := r.readMore_cases
  · have hs := Source.read_size r.chunk r.source (by rw [hr])
    rw [hr] at hs
    rw [hm]
    cases bs <;> simp [size, refilled, atHand, he] at * <;> omega
  · rw [hm] at h
    split at h <;> exact absurd h (by simp [Turn.rest, fail])

theorem turn_shrinks (r : FrameStream α) (h : (turn r).again = true) :
    (turn r).state.size < r.size := by
  revert h
  unfold turn
  split
  · simp [Turn.rest]
  split
  · exact deliver_shrinks r ‹_›
  · simp [fail]
  · split
    · unfold conclude
      split <;> simp [fail]
    · exact readMore_shrinks r ‹_›

theorem fail_bound (r : FrameStream α) (e : Failure) :
    (Event.items (r.fail e).events).length + (r.fail e).state.bound = r.bound := by
  simp [fail, bound, atHand]

theorem deliver_bound (r : FrameStream α) {payload rest : List UInt8}
    (h : Frame.head r.atHand = .frame payload rest) :
    (Event.items (r.deliver h).events).length + (r.deliver h).state.bound ≤ r.bound := by
  have hlength := Frame.length_of_head_frame h
  have hpass : (r.pass h).bound + 4 ≤ r.bound := by
    rw [bound, bound, atHand_pass]
    show rest.length + r.source.bytes.length + 4 ≤ _
    omega
  unfold deliver
  split
  · have := fail_bound (r.pass h) (.decoding ‹_›)
    omega
  · next a _ =>
    have := Supply.items_send r.supply a
    show (Event.items (r.supply.send a).2).length + (r.pass h).bound ≤ _
    omega

theorem readMore_bound (r : FrameStream α) :
    (Event.items r.readMore.events).length + r.readMore.state.bound ≤ r.bound := by
  obtain ⟨bs, source, hr, hm⟩ | ⟨f, source, hr, hm⟩ := r.readMore_cases
  · have hbytes := Source.read_bytes r.chunk r.source (by rw [hr])
    rw [hr] at hbytes
    rw [hm]
    simp only [bound, refilled, atHand, hbytes, List.drop_zero, List.length_append,
      Event.items_nil, List.length_nil]
    omega
  · have hbytes := Source.read_bytes_le r.chunk r.source
    rw [hr] at hbytes
    have hrefilled : (r.refilled source []).bound ≤ r.bound := by
      rw [bound, bound, atHand_refilled, List.append_nil]
      exact Nat.add_le_add_left hbytes _
    rw [hm]
    split
    · simpa [Turn.rest] using hrefilled
    · rw [fail_bound]
      exact hrefilled

/-- Every item that a turn hands over takes bytes with it. -/
theorem turn_bound (r : FrameStream α) :
    (Event.items (turn r).events).length + (turn r).state.bound ≤ r.bound := by
  unfold turn
  split
  · simp [Turn.rest]
  split
  · exact deliver_bound r ‹_›
  · exact Nat.le_of_eq (fail_bound ..)
  · split
    · unfold conclude
      split
      · simp [bound, atHand]
      · exact Nat.le_of_eq (fail_bound ..)
    · exact readMore_bound r

def drive (r : FrameStream α) : FrameStream α × List (Event α) :=
  Turn.iterate turn size turn_shrinks r

theorem drive_bound (r : FrameStream α) :
    (Event.items (drive r).2).length + (drive r).1.bound ≤ r.bound := by
  refine Turn.iterate_induction
    (fun (t : FrameStream α) es => (Event.items es).length + t.bound ≤ r.bound) ?_ r (by simp)
  intro t es h
  have := turn_bound t
  simp only [Event.items_append, List.length_append]
  omega

instance : FiniteProducer (FrameStream α) α where
  supply := supply
  withSupply r o := { r with supply := o }
  drive := drive
  bound := bound
  bound_withSupply _ _ := rfl
  bound_drive := drive_bound

/-- A drive is aborted where it would read without room. -/
def returns (r : FrameStream α) : Bool :=
  Turn.all turn size turn_shrinks (fun u => !u.reads || u.hasRoom) r

instance : AbortableProducer (FrameStream α) α := ⟨returns⟩

end FrameStream

end ExternalSort
