/-
The intakes of a merge.

An intake is a stream with the items it has handed over and that have not
been taken yet.  It is filled up to a target: it asks its stream for what
is missing, once, and until the stream has met that demand, further
filling only drives the stream on.
-/
import ExternalSort.Stream.Basic

namespace ExternalSort

/-- One input of a merge. -/
structure Intake (S α : Type) where
  stream : S
  /-- Items that have not been taken. -/
  buffer : List α := []
  /-- How the stream has ended, if it has. -/
  heard : Option Ending := none
  /-- Whether the stream has not yet met the demand. -/
  waiting : Bool := false
  /-- How often demand was granted. -/
  grants : Nat := 0

namespace Intake

variable {S α : Type}

section Filling

variable [Producer S α]

/-- Takes in what the stream has let out. -/
def hear (s : Intake S α) (es : List (Event α)) : Intake S α :=
  { s with buffer := s.buffer ++ Event.items es, heard := s.heard <|> Event.endingOf es }

/-- An intake that listens to a stream. -/
def ofStream (stream : S) : Intake S α :=
  let (stream, es) := Producer.subscribe stream ({} : Subscriber α)
  hear { stream } es

/-- Whether the stream has ended well; only items that it has handed over
are still to come. -/
def endedWell (s : Intake S α) : Bool := s.heard == some .ended

/-- Whether everything has been taken. -/
def isSpent (s : Intake S α) : Bool := s.endedWell && s.buffer.isEmpty

/-- The error that the stream has ended by. -/
def failure? (s : Intake S α) : Option Failure :=
  match s.heard with
  | some (.failed e) => some e
  | some .ended | none => none

/-- Asks the stream for what is missing from the target, unless it has
been asked already or has ended. -/
def ask (s : Intake S α) (target : Nat) : Intake S α :=
  let want := target - s.buffer.length
  if !s.waiting && 0 < want && s.heard.isNone then
    { s with
      stream := Producer.request s.stream want
      waiting := true
      grants := s.grants + 1 }
  else s

/-- Lets the stream go on. -/
def advance (s : Intake S α) : Intake S α :=
  let (stream, es) := Producer.drive s.stream
  hear { s with stream } es

/-- A demand is met when nothing of it is left, or when the stream has
ended. -/
def updateWaiting (s : Intake S α) : Intake S α :=
  { s with
    waiting := s.waiting && s.heard.isNone && (Producer.demand s.stream).isPositive }

/-- Fills the intake up to a target, as far as the stream is ready. -/
def topUp (s : Intake S α) (target : Nat) : Intake S α :=
  let s := s.ask target
  if s.waiting then s.advance.updateWaiting else s.updateWaiting

/-- Whether filling the intake comes back. -/
def topUpReturns [AbortableProducer S α] (s : Intake S α) (target : Nat) : Bool :=
  !(s.ask target).waiting || AbortableProducer.returns (s.ask target).stream

/-- Whether there is an item to take, or the stream has ended. -/
def isReady (s : Intake S α) : Bool := s.heard.isSome || !s.buffer.isEmpty

/-- Takes the first item. -/
def takeFirst (s : Intake S α) : Option (α × Intake S α) :=
  match s.buffer with
  | [] => none
  | a :: rest => some (a, { s with buffer := rest })

end Filling

section Bound

variable [FiniteProducer S α]

/-- No more items than this can still be taken. -/
def bound (s : Intake S α) : Nat := s.buffer.length + FiniteProducer.bound s.stream

theorem bound_ask (s : Intake S α) (target : Nat) : (s.ask target).bound = s.bound := by
  unfold ask
  dsimp only
  split
  · simp [bound, Producer.request, Producer.changeDemand, FiniteProducer.bound_withSupply]
  · rfl

theorem bound_advance (s : Intake S α) : s.advance.bound ≤ s.bound := by
  have := FiniteProducer.bound_drive s.stream
  simp only [advance, hear, bound, List.length_append]
  omega

/-- Filling moves items from the stream into the buffer and makes no new
ones. -/
theorem bound_topUp (s : Intake S α) (target : Nat) : (s.topUp target).bound ≤ s.bound := by
  have h := bound_ask s target
  unfold topUp
  dsimp only
  split
  · exact h ▸ bound_advance (s.ask target)
  · exact Nat.le_of_eq h

theorem bound_takeFirst {s t : Intake S α} {a : α} (h : s.takeFirst = some (a, t)) :
    t.bound + 1 = s.bound := by
  unfold takeFirst at h
  split at h
  · simp at h
  · next rest hb =>
    simp only [Option.some.injEq, Prod.mk.injEq] at h
    simp [bound, ← h.2, hb]
    omega

end Bound

end Intake

end ExternalSort
