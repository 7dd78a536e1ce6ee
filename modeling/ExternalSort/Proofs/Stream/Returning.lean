/-
Drives that come back.

What keeps a stream from being aborted (`Fits`) is kept by all that its
consumers do, so every drive of it comes back (`alwaysReturns`).
-/
import ExternalSort.Proofs.Stream.Delivery
import ExternalSort.Stream.Listed
import ExternalSort.Table.Rows

namespace ExternalSort

open AbortableProducer (returns)

section Always

variable {S α : Type} [Producer S α] [AbortableProducer S α] {s : S}

/-- Whatever its consumers have done, the next drive of a stream comes back, also if
the demand is changed before. -/
def Command.AlwaysReturns (s : S) : Prop :=
  ∀ cs : List (Command α), let u := (Command.performAll s cs).1
    returns u = true ∧
      ∀ demand, returns (Producer.withSupply u { Producer.supply u with demand }) = true

theorem Command.AlwaysReturns.performAll (h : Command.AlwaysReturns s) (cs : List (Command α)) :
    Command.AlwaysReturns (Command.performAll s cs).1 := by
  intro ds
  have := h (cs ++ ds)
  rwa [Command.performAll_append] at this

theorem Command.AlwaysReturns.gatherReturns (h : Command.AlwaysReturns s) (patience : Nat) :
    Producer.gatherReturns patience s = true := by
  have hfrom : ∀ {s : S} {es : List (Event α)}, Command.AlwaysReturns s →
      Producer.gatherFromReturns patience s es = true := by
    induction patience with
    | zero =>
        intro s es _
        rw [Producer.gatherFromReturns]
        split <;> rfl
    | succ patience ih =>
        intro s es h
        rw [Producer.gatherFromReturns]
        split
        · rfl
        · have hs : returns s = true := (h []).1
          rw [hs, Bool.true_and]
          exact ih (h.performAll [.drive])
  have hresume : returns (Producer.changeDemand (Producer.subscribe s {}).1 .unlimit) = true :=
    (h [.subscribe {}]).2 _
  rw [Producer.gatherReturns, Bool.and_eq_true]
  exact ⟨hresume, hfrom (h.performAll [.subscribe {}, .resume])⟩

end Always

/-- A stream of which it can be told that no drive is going to be aborted. -/
class ReturningProducer (S : Type) (α : outParam Type) [Producer S α] [AbortableProducer S α] where
  Fits : S → Prop
  returns_of_fits : ∀ {s : S}, Fits s → returns s = true
  fits_subscribe : ∀ {s : S} (k : Subscriber α), Fits s → Fits (Producer.subscribe s k).1
  fits_withDemand : ∀ {s : S} (demand : Demand), Fits s →
    Fits (Producer.withSupply s { Producer.supply s with demand })
  fits_drive : ∀ {s : S}, Fits s → Fits (Producer.drive s).1

namespace ReturningProducer

variable {S α : Type} [Producer S α] [AbortableProducer S α] [ReturningProducer S α] {s : S}

theorem performAll_fits (h : Fits s) (cs : List (Command α)) :
    Fits (Command.performAll s cs).1 :=
  Command.performAll_induction (P := fun t _ => Fits t) (fun _ k _ h => fits_subscribe k h)
    (fun _ _ _ h => fits_withDemand _ h) (fun _ _ h => fits_drive h) h cs

theorem alwaysReturns (h : Fits s) : Command.AlwaysReturns s := fun cs =>
  have hfits := performAll_fits h cs
  ⟨returns_of_fits hfits, fun _ => returns_of_fits (fits_withDemand _ hfits)⟩

end ReturningProducer

instance {α : Type} : ReturningProducer (ListStream α) α where
  Fits _ := True
  returns_of_fits _ := rfl
  fits_subscribe _ := id
  fits_withDemand _ := id
  fits_drive := id

instance : ReturningProducer Table.RowStream Row where
  Fits _ := True
  returns_of_fits _ := rfl
  fits_subscribe _ := id
  fits_withDemand _ := id
  fits_drive := id

end ExternalSort
