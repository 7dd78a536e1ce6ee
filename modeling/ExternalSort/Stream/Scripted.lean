/-
A stream that plays a script.

The script says in which order items come, where the source has nothing to
give for now, and where it fails.  After the last cue the stream ends,
whether or not more is asked for.
-/
import ExternalSort.Stream.Basic
import ExternalSort.Stream.Turn

namespace ExternalSort

/-- One entry of a script. -/
inductive Cue (α : Type) where
  | item (a : α)
  /-- The source has nothing more to give in this drive. -/
  | rest
  | fail (e : Failure)
deriving DecidableEq, Repr

/-- A stream that plays a script. -/
structure ScriptStream (α : Type) where
  cues : List (Cue α)
  supply : Supply α := {}
  /-- How often the stream was driven. -/
  drives : Nat := 0

namespace ScriptStream

variable {α : Type}

def ofCues (cues : List (Cue α)) : ScriptStream α := { cues }

/-- Plays one cue. -/
def turn (s : ScriptStream α) : Turn (ScriptStream α) (Event α) :=
  if !s.supply.isOpen then .rest s
  else match s.cues with
    | [] =>
      let (o, es) := s.supply.finish .ended
      { state := { s with supply := o }, events := es }
    | .rest :: cues => .rest { s with cues }
    | .fail e :: cues =>
      let (o, es) := s.supply.fail e
      { state := { s with cues, supply := o }, events := es }
    | .item a :: cues =>
      if !s.supply.canSend then .rest s
      else
        let (o, es) := s.supply.send a
        { state := { s with cues, supply := o }, events := es, again := true }

theorem turn_shrinks (s : ScriptStream α) (h : (turn s).again = true) :
    (turn s).state.cues.length < s.cues.length := by
  unfold turn at h ⊢
  grind [Turn.rest]

/-- Every item that a turn hands over is a cue played. -/
theorem turn_bound (s : ScriptStream α) :
    (Event.items (turn s).events).length + (turn s).state.cues.length ≤ s.cues.length := by
  unfold turn
  split
  · simp [Turn.rest]
  · split
    · simp
    · simp [Turn.rest, *]
    · simp [*]
    · split
      · simp [Turn.rest, *]
      · next a _ _ _ =>
        have := Supply.items_send s.supply a
        simp only [*, List.length_cons]
        omega

def drive (s : ScriptStream α) : ScriptStream α × List (Event α) :=
  Turn.iterate turn (·.cues.length) turn_shrinks { s with drives := s.drives + 1 }

theorem drive_bound (s : ScriptStream α) :
    (Event.items (drive s).2).length + (drive s).1.cues.length ≤ s.cues.length := by
  refine Turn.iterate_induction
    (fun (t : ScriptStream α) es => (Event.items es).length + t.cues.length ≤ s.cues.length)
    ?_ _ (by simp)
  intro t es h
  have := turn_bound t
  simp only [Event.items_append, List.length_append]
  omega

instance : FiniteProducer (ScriptStream α) α where
  supply := supply
  withSupply s o := { s with supply := o }
  drive := drive
  bound s := s.cues.length
  bound_withSupply _ _ := rfl
  bound_drive := drive_bound

instance : AbortableProducer (ScriptStream α) α := ⟨fun _ => true⟩

end ScriptStream

end ExternalSort
