/-
Events together with what stood in a store when they were heard.

A stream that works on a store changes it and lets events out in turn.
Which came first shows in the store that goes with an event: it holds what
was done before the event was heard, and nothing of what was done later.
-/
import ExternalSort.Stream.Supply

namespace ExternalSort

/-- An event, and the store when it was heard. -/
structure Heard (W α : Type) where
  store : W
  event : Event α

namespace Heard

variable {W α : Type}

/-- Events that are heard while the store is `w`. -/
def ofEvents (w : W) (es : List (Event α)) : List (Heard W α) := es.map (⟨w, ·⟩)

/-- The events alone. -/
def events (hs : List (Heard W α)) : List (Event α) := hs.map event

@[simp] theorem events_nil : events ([] : List (Heard W α)) = [] := rfl

@[simp] theorem events_append (hs ks : List (Heard W α)) :
    events (hs ++ ks) = events hs ++ events ks :=
  List.map_append

@[simp] theorem events_ofEvents (w : W) (es : List (Event α)) :
    events (ofEvents w es) = es := by
  induction es with
  | nil => rfl
  | cons e es ih => exact congrArg (e :: ·) ih

end Heard

end ExternalSort
