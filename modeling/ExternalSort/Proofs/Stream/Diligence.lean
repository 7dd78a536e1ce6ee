/-
A stream stops only for a reason.

A drive goes on until the stream has ended, or nothing more is asked for, or
its source says that it has nothing to give right now.  The last is seen from
outside: the source has one refusal less (`DiligentProducer`).  What a drive
that lets nothing out leaves as it was follows from that
(`OrderlyProducer.drive_silent`).
-/
import ExternalSort.Proofs.Merge.Intake
import ExternalSort.Proofs.Table.Lines
import ExternalSort.Proofs.Table.Rows

namespace ExternalSort

/-- A stream that stops short of the demand only where its source is not
ready. -/
class DiligentProducer (S : Type) (α : outParam Type) [Producer S α] extends
    OrderlyProducer S α where
  /-- How often the source is still to say that it is not ready. -/
  refusals : S → Nat
  refusals_withSupply : ∀ (s : S) (o : Supply α), refusals (Producer.withSupply s o) = refusals s
  refusals_drive : ∀ s : S, refusals (Producer.drive s).1 ≤ refusals s
  drive_stops : ∀ s : S, (Producer.supply (Producer.drive s).1).canSend = false ∨
    refusals (Producer.drive s).1 < refusals s

/-- A process whose last turn leaves nothing to be sent, or has met a
refusal. -/
structure Turn.Diligent {σ ε α : Type} (turn : σ → Turn σ ε) (supply : σ → Supply α)
    (refusals : σ → Nat) : Prop where
  falls : ∀ s, refusals (turn s).state ≤ refusals s
  stops : ∀ s, (turn s).again = false →
    (supply (turn s).state).canSend = false ∨ refusals (turn s).state < refusals s

section Turns

variable {σ ε α : Type} {turn : σ → Turn σ ε} {size : σ → Nat}
  {shrinks : ∀ s, (turn s).again = true → size (turn s).state < size s} {supply : σ → Supply α}
  {refusals : σ → Nat}

theorem Turn.Diligent.iterate (h : Turn.Diligent turn supply refusals) (s : σ) :
    refusals (Turn.iterate turn size shrinks s).1 ≤ refusals s ∧
      ((supply (Turn.iterate turn size shrinks s).1).canSend = false ∨
        refusals (Turn.iterate turn size shrinks s).1 < refusals s) := by
  obtain ⟨t, ht, hlast, he⟩ : ∃ t, Turn.Takes turn s t ∧ (turn t).again = false ∧
      (Turn.iterate turn size shrinks s).1 = (turn t).state := Turn.iterate_takes s
  have hle : refusals t ≤ refusals s :=
    ht.keeps (P := fun t => refusals t ≤ refusals s)
      (fun t hle _ => Nat.le_trans (h.falls t) hle) (Nat.le_refl _)
  rw [he]
  refine ⟨Nat.le_trans (h.falls t) hle, ?_⟩
  rcases h.stops t hlast with hc | hlt
  · exact .inl hc
  · exact .inr (Nat.lt_of_lt_of_le hlt hle)

end Turns

/-! ## Drives that let nothing out -/

namespace Supply

variable {α : Type} {o o' : Supply α} {es : List (Event α)}

theorem canSend_finish (o : Supply α) (e : Ending) : (o.finish e).1.canSend = false :=
  canSend_of_not_open (finish_isOpen o e)

theorem demand_finish (o : Supply α) (e : Ending) : (o.finish e).1.demand = o.demand := by
  rcases finish_fst o e with h | h <;> rw [h]

theorem Steps.demand_of_no_items (h : Steps o es o') (hi : Event.items es = []) :
    o'.demand = o.demand := by
  induction h with
  | refl => rfl
  | send a hc =>
      rw [send_events hc, Event.items_append] at hi
      exact absurd hi (by simp)
  | finish e _ ih =>
      rw [Event.items_append, items_finish, List.nil_append] at hi
      exact (ih hi).trans (demand_finish _ e)

/-- Where everything is heard, an open stream of which nothing was heard stays
as it was. -/
theorem Steps.open_of_silent (h : Steps o es o') (ho : o.status = .open)
    (hs : o.subscriber = some {}) (he : Event.endingOf es = none) : o'.status = .open := by
  rcases h.of_open ho with ⟨as, -, hst⟩ | ⟨as, e, rfl, -⟩
  · exact hst
  · rw [hs, Event.endingOf_eq_head?, Event.endings_append, Event.endings_items] at he
    cases e <;> exact absurd he (by simp [heardBy, endingEvents, Subscriber.hears, Event.endings,
      Event.ending?])

end Supply

/-- A drive of which nothing is heard, though something was asked for, has met
a refusal. -/
theorem DiligentProducer.drive_silent {S α : Type} [Producer S α] [DiligentProducer S α] {s : S}
    (ho : (Producer.supply s).status = .open) (hs : (Producer.supply s).subscriber = some {})
    (hd : (Producer.demand s).isPositive = true) (hi : Event.items (Producer.drive s).2 = [])
    (he : Event.endingOf (Producer.drive s).2 = none) :
    refusals (Producer.drive s).1 < refusals s := by
  have hsteps := OrderlyProducer.drive_steps s
  have hc : (Producer.supply (Producer.drive s).1).canSend = true := by
    rw [Supply.canSend_iff, hsteps.subscriber_eq, hs, hsteps.demand_of_no_items hi]
    exact ⟨hsteps.open_of_silent ho hs he, rfl, hd⟩
  rcases drive_stops s with hn | hlt
  · exact absurd (hc.symm.trans hn) (by simp)
  · exact hlt

/-! ## Lists -/

namespace ListStream

variable {α : Type}

theorem turn_diligent : Turn.Diligent turn (supply (α := α)) fun _ => 0 where
  falls _ := Nat.le_refl _
  stops s h := by
    refine .inl ?_
    revert h
    rw [turn]
    split
    · next ho =>
      intro _
      have ho : s.supply.isOpen = false := by simpa using ho
      exact Supply.canSend_of_not_open ho
    split
    · intro _
      exact Supply.canSend_finish _ _
    split
    · next hc =>
      intro _
      have hc : s.supply.canSend = false := by simpa using hc
      exact hc
    · exact fun h => absurd h (by simp)

instance : OrderlyProducer (ListStream α) α := ForetoldProducer.toOrderlyProducer

instance : DiligentProducer (ListStream α) α where
  refusals _ := 0
  refusals_withSupply _ _ := rfl
  refusals_drive _ := Nat.le_refl _
  drive_stops s := (turn_diligent.iterate s).2

end ListStream

/-! ## Frames -/

namespace FrameStream

variable {α : Type}

theorem readMore_refusals (r : FrameStream α) :
    r.readMore.state.source.refusals ≤ r.source.refusals ∧
      (r.readMore.again = false → r.readMore.state.supply.canSend = false ∨
        r.readMore.state.source.refusals < r.source.refusals) := by
  obtain ⟨bs, source, hr, hm⟩ | ⟨f, source, hr, hm⟩ := r.readMore_cases
  · rw [hm]
    refine ⟨Nat.le_of_eq (Source.refusals_read hr), ?_⟩
    exact fun h => absurd h (by simp)
  · have hs := Source.refusals_read_fault hr
    rw [hm]
    split
    · next hk =>
      rw [if_pos hk] at hs
      dsimp only [Turn.rest, refilled]
      exact ⟨by omega, fun _ => .inr (by omega)⟩
    · next hk =>
      rw [if_neg hk] at hs
      exact ⟨Nat.le_of_eq hs.symm, fun _ => .inl (Supply.canSend_finish _ _)⟩

theorem turn_diligent : Turn.Diligent turn (supply (α := α)) fun r => r.source.refusals where
  falls r := by
    rw [turn]
    split
    · exact Nat.le_refl _
    split
    · rw [deliver]
      split <;> exact Nat.le_refl _
    · exact Nat.le_refl _
    · split
      · rw [conclude]
        split <;> exact Nat.le_refl _
      · exact r.readMore_refusals.1
  stops r h := by
    revert h
    rw [turn]
    split
    · next hc =>
      have hc : r.supply.canSend = false := by simpa using hc
      exact fun _ => .inl hc
    split
    · rw [deliver]
      split
      · exact fun _ => .inl (Supply.canSend_finish _ _)
      · exact fun h => absurd h (by simp)
    · exact fun _ => .inl (Supply.canSend_finish _ _)
    · split
      · rw [conclude]
        split <;> exact fun _ => .inl (Supply.canSend_finish _ _)
      · exact r.readMore_refusals.2

instance : OrderlyProducer (FrameStream α) α := ForetoldProducer.toOrderlyProducer

instance : DiligentProducer (FrameStream α) α where
  refusals r := r.source.refusals
  refusals_withSupply _ _ := rfl
  refusals_drive r := (turn_diligent.iterate r).1
  drive_stops r := (turn_diligent.iterate r).2

end FrameStream

/-! ## Rows -/

namespace Table.RowStream

theorem turn_diligent : Turn.Diligent turn supply fun r => r.source.refusals where
  falls r := by
    rcases turn_cases r with ⟨-, ht⟩ | ⟨-, v, hv, hh⟩
    · rw [ht]
      exact Nat.le_refl _
    · have hs := readLine_refusals r.source
      generalize turn r = t at hh ⊢
      cases hh with
      | wait line => exact Nat.le.intro hs.symm
      | ending line n e => exact Nat.le.intro hs.symm
      | blank => exact Nat.le.intro hs.symm
      | row row => exact Nat.le.intro hs.symm
  stops r h := by
    rcases turn_cases r with ⟨hc, ht⟩ | ⟨-, v, hv, hh⟩
    · rw [ht]
      exact .inl hc
    · have hs := readLine_refusals r.source
      generalize turn r = t at h hh ⊢
      cases hh with
      | wait line =>
          obtain ⟨f, hf, hk⟩ := fault_of_wait hv
          rw [hf, Option.any_some, if_pos (by simpa using hk)] at hs
          exact .inr (Nat.lt_of_succ_le (Nat.le_of_eq hs.symm))
      | ending line n e => exact .inl (Supply.canSend_finish _ _)
      | blank => exact absurd h (by simp)
      | row row => exact absurd h (by simp)

instance : DiligentProducer RowStream Row where
  refusals r := r.source.refusals
  refusals_withSupply _ _ := rfl
  refusals_drive r := (turn_diligent.iterate r).1
  drive_stops r := (turn_diligent.iterate r).2

end Table.RowStream

/-! ## Runs -/

namespace RunStream

variable {α : Type}

def refusals : RunStream α → Nat
  | memory _ => 0
  | file r => r.source.refusals

instance : OrderlyProducer (RunStream α) α := ForetoldProducer.toOrderlyProducer

instance : DiligentProducer (RunStream α) α where
  refusals := refusals
  refusals_withSupply s _ := by cases s <;> rfl
  refusals_drive s := by
    cases s with
    | memory s => exact Nat.le_refl _
    | file r => exact DiligentProducer.refusals_drive r
  drive_stops s := by
    cases s with
    | memory s => exact DiligentProducer.drive_stops s
    | file r => exact DiligentProducer.drive_stops r

end RunStream

end ExternalSort
