/-
Streams over runs: a list for a run in memory, a stream of frames for one
in a file.
-/
import ExternalSort.Frame.Stream
import ExternalSort.Stream.Listed

namespace ExternalSort

/-- The stream of the items of a run. -/
inductive RunStream (α : Type) where
  | memory (s : ListStream α)
  | file (r : FrameStream α)

namespace RunStream

variable {α : Type}

def supply : RunStream α → Supply α
  | memory s => s.supply
  | file r => r.supply

def withSupply (o : Supply α) : RunStream α → RunStream α
  | memory s => memory { s with supply := o }
  | file r => file { r with supply := o }

def drive : RunStream α → RunStream α × List (Event α)
  | memory s => (memory s.drive.1, s.drive.2)
  | file r => (file r.drive.1, r.drive.2)

/-- No more items than this are still to come. -/
def bound : RunStream α → Nat
  | memory s => s.items.length
  | file r => r.bound

instance : FiniteProducer (RunStream α) α where
  supply := supply
  withSupply s o := s.withSupply o
  drive := drive
  bound := bound
  bound_withSupply s _ := by cases s <;> rfl
  bound_drive s := by
    cases s with
    | memory s => exact s.drive_bound
    | file r => exact r.drive_bound

/-- Whether the next drive comes back. -/
def returns : RunStream α → Bool
  | memory s => AbortableProducer.returns s
  | file r => r.returns

instance : AbortableProducer (RunStream α) α := ⟨returns⟩

end RunStream

end ExternalSort
