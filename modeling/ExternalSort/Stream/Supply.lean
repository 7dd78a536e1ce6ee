/-
The producing end of a stream: its consumer, the demand, and how it ends.

A consumer hears of items and of the one ending.  While an item is handed
over the consumer may change the demand, and what it does then is part of
it (`Subscriber.react`).  An ending that comes while nobody is subscribed
is parked, and the first subscriber hears of it at once.

Every operation returns the events that were heard.
-/
import ExternalSort.Demand
import ExternalSort.Failure

namespace ExternalSort

/-- How a stream ends by itself. -/
inductive Ending where
  | ended
  | failed (error : Failure)
deriving DecidableEq, Repr

/-- What a consumer hears. -/
inductive Event (α : Type) where
  | item (a : α)
  | ending (e : Ending)
deriving DecidableEq, Repr

namespace Event

variable {α : Type}

def item? : Event α → Option α
  | item a => some a
  | ending _ => none

def ending? : Event α → Option Ending
  | item _ => none
  | ending e => some e

/-- The items among some events. -/
def items (es : List (Event α)) : List α := es.filterMap item?

/-- The first ending among some events. -/
def endingOf (es : List (Event α)) : Option Ending := es.findSome? ending?

@[simp] theorem items_nil : items ([] : List (Event α)) = [] := rfl

@[simp] theorem items_append (es fs : List (Event α)) : items (es ++ fs) = items es ++ items fs :=
  List.filterMap_append

@[simp] theorem items_item (a : α) : items [item a] = [a] := rfl

@[simp] theorem items_ending (e : Ending) : items [(ending e : Event α)] = [] := rfl

end Event

/-- A consumer of items. -/
structure Subscriber (α : Type) where
  /-- What it does to the demand while the item of a given number, counted
  from zero since it subscribed, is handed to it. -/
  react : Nat → α → List Demand.Change := fun _ _ => []
  hearsEnd : Bool := true
  hearsFailure : Bool := true

namespace Subscriber

variable {α : Type}

def hears (s : Subscriber α) : Ending → Bool
  | .ended => s.hearsEnd
  | .failed _ => s.hearsFailure

end Subscriber

/-- How far a stream has come. -/
inductive Status where
  | open
  /-- It has ended, and nobody was there to hear of it. -/
  | parked (e : Ending)
  /-- It has ended, and its ending has been raised. -/
  | over (e : Ending)
  /-- It was torn down, and no event comes from it any more. -/
  | closed
deriving DecidableEq, Repr

/-- The producing end of a stream. -/
structure Supply (α : Type) where
  demand : Demand := .none
  subscriber : Option (Subscriber α) := none
  /-- Items handed to the present subscriber. -/
  received : Nat := 0
  status : Status := .open
  /-- Items handed over so far. -/
  sent : Nat := 0

namespace Supply

variable {α : Type}

/-- The supply of a stream that was torn down. -/
def closed (d : Demand) : Supply α := { demand := d, status := .closed }

def isOpen (o : Supply α) : Bool := o.status == .open

/-- How the stream has ended, whether or not anybody heard of it. -/
def ending? (o : Supply α) : Option Ending :=
  match o.status with
  | .parked e | .over e => some e
  | .open | .closed => none

/-- Whether an item may be handed over right now. -/
def canSend (o : Supply α) : Bool := o.isOpen && o.subscriber.isSome && o.demand.isPositive

/-- The events by which a subscriber hears of an ending. -/
def endingEvents (s : Subscriber α) (e : Ending) : List (Event α) :=
  if s.hears e then [.ending e] else []

/-- Puts a subscriber in the place of the one before, if any. -/
def subscribe (o : Supply α) (s : Subscriber α) : Supply α × List (Event α) :=
  match o.status with
  | .open => ({ o with subscriber := some s, received := 0 }, [])
  | .parked e =>
    ({ o with subscriber := some s, received := 0, status := .over e }, endingEvents s e)
  | .over _ => ({ o with subscriber := some s, received := 0 }, [])
  | .closed => (o, [])

/-- Hands an item over: one unit of demand is used up, and then the
subscriber may change the demand. -/
def send (o : Supply α) (a : α) : Supply α × List (Event α) :=
  match o.subscriber with
  | none => (o, [])
  | some s =>
    ({ o with
        demand := o.demand.consume.changes (s.react o.received a)
        received := o.received + 1
        sent := o.sent + 1 },
      [.item a])

/-- Ends the stream, unless it has ended before. -/
def finish (o : Supply α) (e : Ending) : Supply α × List (Event α) :=
  if o.isOpen then
    match o.subscriber with
    | none => ({ o with status := .parked e }, [])
    | some s => ({ o with status := .over e }, endingEvents s e)
  else (o, [])

/-- Ends the stream by an error, unless it has ended before. -/
def fail (o : Supply α) (e : Failure) : Supply α × List (Event α) := o.finish (.failed e)

@[simp] theorem items_endingEvents (s : Subscriber α) (e : Ending) :
    Event.items (endingEvents s e) = [] := by
  unfold endingEvents; split <;> rfl

theorem items_send (o : Supply α) (a : α) : (Event.items (o.send a).2).length ≤ 1 := by
  unfold send; split <;> simp

@[simp] theorem items_finish (o : Supply α) (e : Ending) : Event.items (o.finish e).2 = [] := by
  unfold finish
  split
  · split <;> simp
  · rfl

@[simp] theorem items_fail (o : Supply α) (e : Failure) : Event.items (o.fail e).2 = [] :=
  items_finish ..

@[simp] theorem items_subscribe (o : Supply α) (s : Subscriber α) :
    Event.items (o.subscribe s).2 = [] := by
  unfold subscribe; split <;> simp

end Supply

end ExternalSort
