/-
Streams that hand over items on demand.

A stream has a supply and can be driven: it then hands over as many
items as the demand and its source allow, and returns.  Asking for items,
pausing and resuming are the same for all streams.  A finite stream can
tell how many items it will hand over at most.
-/
import ExternalSort.Stream.Supply

namespace ExternalSort

/-- A producer of items. -/
class Producer (S : Type) (α : outParam Type) where
  supply : S → Supply α
  withSupply : S → Supply α → S
  /-- Goes on as far as the demand and the source allow. -/
  drive : S → S × List (Event α)

/-- A producer of items that is known to come to an end. -/
class FiniteProducer (S : Type) (α : outParam Type) extends Producer S α where
  /-- No more items than this will be handed over. -/
  bound : S → Nat
  bound_withSupply : ∀ s o, bound (withSupply s o) = bound s
  bound_drive : ∀ s, (Event.items (drive s).2).length + bound (drive s).1 ≤ bound s

/-- A producer of items a drive of which may abort the program: what it reads may fit
no buffer, or what it sorts by may contradict itself. -/
class AbortableProducer (S : Type) (α : outParam Type) [Producer S α] where
  /-- Whether the next drive comes back. -/
  returns : S → Bool

namespace Producer

variable {S α : Type} [Producer S α]

def demand (s : S) : Demand := (supply s).demand

/-- Whether no event comes from the stream any more, an ending that nobody
has heard of apart. -/
def isOver (s : S) : Bool := !(supply s).isOpen

/-- Changes the demand without driving the stream. -/
def changeDemand (s : S) (c : Demand.Change) : S :=
  let o := supply s
  withSupply s { o with demand := o.demand.change c }

def subscribe (s : S) (h : Subscriber α) : S × List (Event α) :=
  let (o, es) := (supply s).subscribe h
  (withSupply s o, es)

/-- Grants more items without driving the stream. -/
def request (s : S) (n : Nat) : S := changeDemand s (.request n)

/-- Takes all demand back. -/
def pause (s : S) : S := changeDemand s .pause

/-- Asks for everything and drives the stream. -/
def resume (s : S) : S × List (Event α) := drive (changeDemand s .unlimit)

/-- Asks for more items and drives the stream.  Asking for none does
nothing at all. -/
def fetch (s : S) (n : Int) : Except RequestError (S × List (Event α)) :=
  (Demand.ofRequest n).map fun n => if n = 0 then (s, []) else drive (request s n)

/-- Drives the stream a number of times. -/
def driveTimes (s : S) : Nat → S × List (Event α)
  | 0 => (s, [])
  | n + 1 =>
    let (s, es) := drive s
    let (s, fs) := driveTimes s n
    (s, es ++ fs)

/-! ## Draining -/

/-- Goes on after some events until an ending is heard, with at most
`patience` further drives.  The result is all items that were heard, and
the ending if there was one. -/
def gatherFrom (patience : Nat) (s : S) (es : List (Event α)) (got : Array α) :
    S × List α × Option Ending :=
  let got := got ++ Event.items es
  match Event.endingOf es with
  | some e => (s, got.toList, some e)
  | none =>
    match patience with
    | 0 => (s, got.toList, none)
    | patience + 1 =>
      let (s, es) := drive s
      gatherFrom patience s es got

/-- Takes the stream over, asks for everything and drives it until it
ends.  A source that is not ready is asked again, `patience` times at
most. -/
def gather (patience : Nat) (s : S) : S × List α × Option Ending :=
  let (s, es) := subscribe s {}
  let (s, fs) := resume s
  gatherFrom patience s (es ++ fs) #[]

/-- All items that a stream gives until its end, or the error it ends by.
There is no result if the patience was not enough. -/
def drain (patience : Nat) (s : S) : S × Option (Except Failure (List α)) :=
  match gather patience s with
  | (s, items, some .ended) => (s, some (.ok items))
  | (s, _, some (.failed e)) => (s, some (.error e))
  | (s, _, none) => (s, none)

section Returning

variable [AbortableProducer S α]

open AbortableProducer (returns)

/-- Whether going on after some events comes back. -/
def gatherFromReturns (patience : Nat) (s : S) (es : List (Event α)) : Bool :=
  match Event.endingOf es with
  | some _ => true
  | none =>
    match patience with
    | 0 => true
    | patience + 1 => returns s && gatherFromReturns patience (drive s).1 (drive s).2

/-- Whether taking the stream over and driving it until it ends comes back. -/
def gatherReturns (patience : Nat) (s : S) : Bool :=
  let (s, es) := subscribe s {}
  returns (changeDemand s .unlimit) &&
    gatherFromReturns patience (resume s).1 (es ++ (resume s).2)

end Returning

end Producer

/-! ## Schedules -/

/-- What a consumer can do with a stream. -/
inductive Command (α : Type) where
  | subscribe (s : Subscriber α)
  | fetch (n : Int)
  | request (n : Int)
  | pause
  | resume
  | drive

namespace Command

variable {S α : Type} [Producer S α]

open Producer

/-- Does one thing with a stream.  A refused demand changes nothing. -/
def perform (s : S) : Command α → S × List (Event α)
  | .subscribe h => Producer.subscribe s h
  | .fetch n => (Producer.fetch s n).toOption.getD (s, [])
  | .request n => ((Demand.ofRequest n).toOption.elim s (Producer.request s), [])
  | .pause => (Producer.pause s, [])
  | .resume => Producer.resume s
  | .drive => Producer.drive s

/-- Does several things with a stream, in order. -/
def performAll (s : S) : List (Command α) → S × List (Event α)
  | [] => (s, [])
  | c :: cs =>
    let (s, es) := perform s c
    let (s, fs) := performAll s cs
    (s, es ++ fs)

end Command

end ExternalSort
