/-
What the commands of a consumer can do.

A command subscribes to a stream, or it changes the demand at most once and
drives the stream at most once (`Command.perform_cases`).  So whatever
subscribing, changing the demand and driving keep, every schedule keeps.
-/
import ExternalSort.Proofs.Stream.Once
import ExternalSort.Stream.Turn

namespace ExternalSort

/-- A stream that speaks to its consumer through its supply alone. -/
class OrderlyProducer (S : Type) (α : outParam Type) [Producer S α] : Prop where
  supply_changeDemand : ∀ (s : S) (c : Demand.Change),
    Producer.supply (Producer.changeDemand s c) =
      { Producer.supply s with demand := (Producer.supply s).demand.change c }
  supply_subscribe : ∀ (s : S) (h : Subscriber α),
    Producer.supply (Producer.subscribe s h).1 = ((Producer.supply s).subscribe h).1
  drive_steps : ∀ s : S, Supply.Steps (Producer.supply s) (Producer.drive s).2
    (Producer.supply (Producer.drive s).1)

theorem Turn.iterate_steps {σ α : Type} {turn : σ → Turn σ (Event α)} {size : σ → Nat}
    {shrinks : ∀ s, (turn s).again = true → size (turn s).state < size s} {supply : σ → Supply α}
    (step : ∀ s, Supply.Steps (supply s) (turn s).events (supply (turn s).state)) (s : σ) :
    Supply.Steps (supply s) (iterate turn size shrinks s).2
      (supply (iterate turn size shrinks s).1) :=
  iterate_trace (R := fun s es t => Supply.Steps (supply s) es (supply t))
    (fun _ => .refl _) (fun h k => h.trans k) step s

/-- A process goes on only as long as its supply is open. -/
def Turn.StopsWhenOver {σ ε α : Type} (turn : σ → Turn σ ε) (supply : σ → Supply α) : Prop :=
  ∀ s, (turn s).again = true → (supply (turn s).state).isOpen = true

theorem Demand.grant_zero (d : Demand) : d.grant 0 = d := by
  obtain ⟨n, hn⟩ := d
  simp [grant, satAdd, hn]

namespace Command

variable {S α ρ : Type} [Producer S α]

open Producer

/-- How a command deals with a stream. -/
def move : Command α → Move α
  | .subscribe h => .subscribe h
  | .fetch _ | .request _ | .pause | .resume | .drive => .work

/-- What a command does to the demand. -/
def changes : Command α → List Demand.Change
  | .subscribe _ | .drive => []
  | .fetch n | .request n => ((Demand.ofRequest n).toOption.map .request).toList
  | .pause => [.pause]
  | .resume => [.unlimit]

/-- A command that does not subscribe changes the demand or not, and drives
the stream or not.  Where it leaves the demand alone, the change would have been
none. -/
theorem perform_cases (s : S) (c : Command α) :
    (∃ h, c = .subscribe h) ∨
      c.move = .work ∧ ∃ t,
        (t = s ∧ (∀ d : Demand, d.changes c.changes = d) ∨
          ∃ d, c.changes = [d] ∧ t = changeDemand s d) ∧
        (perform s c = (t, []) ∨ perform s c = Producer.drive t) := by
  cases c with
  | subscribe h => exact .inl ⟨h, rfl⟩
  | fetch n =>
      refine .inr ⟨rfl, ?_⟩
      simp only [perform, Producer.fetch, changes]
      cases Demand.ofRequest n with
      | error e => exact ⟨s, .inl ⟨rfl, fun _ => rfl⟩, .inl rfl⟩
      | ok n =>
          by_cases hn : n = 0
          · subst hn
            exact ⟨s, .inl ⟨rfl, Demand.grant_zero⟩, .inl rfl⟩
          · refine ⟨Producer.request s n, .inr ⟨_, rfl, rfl⟩, .inr ?_⟩
            simp [Except.map, Except.toOption, hn]
  | request n =>
      refine .inr ⟨rfl, ?_⟩
      simp only [perform, changes]
      cases Demand.ofRequest n with
      | error e => exact ⟨s, .inl ⟨rfl, fun _ => rfl⟩, .inl rfl⟩
      | ok n => exact ⟨Producer.request s n, .inr ⟨_, rfl, rfl⟩, .inl rfl⟩
  | pause => exact .inr ⟨rfl, Producer.pause s, .inr ⟨_, rfl, rfl⟩, .inl rfl⟩
  | resume => exact .inr ⟨rfl, changeDemand s .unlimit, .inr ⟨_, rfl, rfl⟩, .inr rfl⟩
  | drive => exact .inr ⟨rfl, s, .inl ⟨rfl, fun _ => rfl⟩, .inr rfl⟩

theorem perform_induction {P : S → List (Event α) → Prop}
    (subscribe : ∀ s h es, P s es → P (Producer.subscribe s h).1 (es ++ (Producer.subscribe s h).2))
    (change : ∀ s d es, P s es → P (changeDemand s d) es)
    (drive : ∀ s es, P s es → P (Producer.drive s).1 (es ++ (Producer.drive s).2))
    {s : S} (es : List (Event α)) (h : P s es) (c : Command α) :
    P (perform s c).1 (es ++ (perform s c).2) := by
  rcases perform_cases s c with ⟨k, rfl⟩ | ⟨-, t, ht, hp⟩
  · exact subscribe s k es h
  · have ht : P t es := by
      rcases ht with ⟨rfl, -⟩ | ⟨d, -, rfl⟩
      · exact h
      · exact change s d es h
    rcases hp with hp | hp <;> rw [hp]
    · rwa [List.append_nil]
    · exact drive t es ht

theorem performAll_eq (s : S) (cs : List (Command α)) : performAll s cs = actAll perform s cs := by
  induction cs generalizing s with
  | nil => rfl
  | cons c cs ih => simp only [performAll, actAll, ih]

theorem performAll_induction {P : S → List (Event α) → Prop}
    (subscribe : ∀ s h es, P s es → P (Producer.subscribe s h).1 (es ++ (Producer.subscribe s h).2))
    (change : ∀ s d es, P s es → P (changeDemand s d) es)
    (drive : ∀ s es, P s es → P (Producer.drive s).1 (es ++ (Producer.drive s).2))
    {s : S} (h : P s []) (cs : List (Command α)) : P (performAll s cs).1 (performAll s cs).2 := by
  have := actAll_induction (P := P)
    (fun s c es hs => perform_induction subscribe change drive es hs c) h cs
  rw [performAll_eq]
  simpa using this

/-- A stream under the commands of a consumer. -/
def conduct (work : S → ρ) : Conduct S (Command α) ρ α where
  act := perform
  move := move
  supply := Producer.supply
  work := work

theorem heard_conduct (work : S → ρ) (s : S) (cs : List (Command α)) :
    (conduct work).heard s cs = (performAll s cs).2 :=
  congrArg Prod.snd (performAll_eq s cs).symm

theorem after_conduct (work : S → ρ) (s : S) (cs : List (Command α)) :
    (conduct work).after s cs = (performAll s cs).1 :=
  congrArg Prod.fst (performAll_eq s cs).symm

section Lawful

variable [OrderlyProducer S α]

theorem moved (s : S) (c : Command α) :
    (supply s).Moved c.move (perform s c).2 (supply (perform s c).1) := by
  rcases perform_cases s c with ⟨h, rfl⟩ | ⟨hm, t, ht, hp⟩
  · exact Prod.ext (OrderlyProducer.supply_subscribe s h).symm rfl
  · have ht : ∃ d : Demand, supply t = { supply s with demand := d } := by
      rcases ht with ⟨rfl, -⟩ | ⟨d, -, rfl⟩
      · exact ⟨(supply t).demand, rfl⟩
      · exact ⟨_, OrderlyProducer.supply_changeDemand s d⟩
    obtain ⟨d, ht⟩ := ht
    rw [hm]
    refine ⟨d, ?_⟩
    rw [← ht]
    rcases hp with hp | hp <;> rw [hp]
    · exact .refl _
    · exact OrderlyProducer.drive_steps t

/-- A stream is lawful if what it works on is left alone by its consumer,
and by a drive when the stream is not open. -/
theorem lawful {I : S → Prop} {work : S → ρ}
    (consume : ∀ s o, I s → o.isOpen = (supply s).isOpen → I (withSupply s o))
    (keep : ∀ s, I s → I (Producer.drive s).1)
    (apart : ∀ s o, work (withSupply s o) = work s)
    (still : ∀ s, I s → (supply s).isOpen = false → work (Producer.drive s).1 = work s) :
    (conduct work).Lawful I where
  moved s c _ := moved s c
  keeps s c h := by
    refine perform_induction (P := fun s _ => I s) ?_ ?_ (fun s _ h => keep s h) [] h c
    · intro s k _ h
      exact consume s _ h (Supply.isOpen_subscribe (supply s) k)
    · intro s d _ h
      exact consume s _ h rfl
  frozen s c h ho := by
    rcases perform_cases s c with ⟨k, rfl⟩ | ⟨-, t, ht, hp⟩
    · exact apart s _
    · have ht : work t = work s ∧ I t ∧ (supply t).isOpen = false := by
        rcases ht with ⟨rfl, -⟩ | ⟨d, -, rfl⟩
        · exact ⟨rfl, h, ho⟩
        · refine ⟨apart s _, consume s _ h rfl, ?_⟩
          rw [OrderlyProducer.supply_changeDemand]
          exact ho
      obtain ⟨hw, hI, ho⟩ := ht
      refine Eq.trans (b := work t) ?_ hw
      show work (perform s c).1 = work t
      rcases hp with hp | hp <;> rw [hp]
      exact still t hI ho

end Lawful

end Command

end ExternalSort
