/-
A stream over a list of items.

It hands items over as soon as they are asked for, and it ends as soon as
its list is empty, whether or not more is asked for.
-/
import ExternalSort.Stream.Basic
import ExternalSort.Stream.Turn

namespace ExternalSort

/-- A stream over a list. -/
structure ListStream (α : Type) where
  items : List α
  supply : Supply α := {}

namespace ListStream

variable {α : Type}

def ofList (items : List α) : ListStream α := { items }

/-- Hands over one item, or ends. -/
def turn (s : ListStream α) : Turn (ListStream α) (Event α) :=
  if !s.supply.isOpen then .rest s
  else match s.items with
    | [] =>
      let (o, es) := s.supply.finish .ended
      { state := { s with supply := o }, events := es }
    | a :: rest =>
      if !s.supply.canSend then .rest s
      else
        let (o, es) := s.supply.send a
        { state := { items := rest, supply := o }, events := es, again := true }

theorem turn_shrinks (s : ListStream α) (h : (turn s).again = true) :
    (turn s).state.items.length < s.items.length := by
  unfold turn at h ⊢
  grind [Turn.rest]

/-- Every item that a turn hands over is taken off the list. -/
theorem turn_bound (s : ListStream α) :
    (Event.items (turn s).events).length + (turn s).state.items.length ≤ s.items.length := by
  unfold turn
  split
  · simp [Turn.rest]
  · split
    · simp
    · split
      · simp [Turn.rest]
      · next a _ _ _ =>
        have := Supply.items_send s.supply a
        simp only [*, List.length_cons]
        omega

def drive (s : ListStream α) : ListStream α × List (Event α) :=
  Turn.iterate turn (·.items.length) turn_shrinks s

theorem drive_bound (s : ListStream α) :
    (Event.items (drive s).2).length + (drive s).1.items.length ≤ s.items.length := by
  refine Turn.iterate_induction
    (fun t es => (Event.items es).length + t.items.length ≤ s.items.length) ?_ s (by simp)
  intro t es h
  have := turn_bound t
  simp only [Event.items_append, List.length_append]
  omega

instance : FiniteProducer (ListStream α) α where
  supply := supply
  withSupply s o := { s with supply := o }
  drive := drive
  bound s := s.items.length
  bound_withSupply _ _ := rfl
  bound_drive := drive_bound

/-- A list is handed over without any buffer. -/
instance : AbortableProducer (ListStream α) α := ⟨fun _ => true⟩

end ListStream

end ExternalSort
