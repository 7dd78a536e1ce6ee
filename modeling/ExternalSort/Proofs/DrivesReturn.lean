/-
Every drive comes back, and for a reason.

The loops of a drive take no more turns than what they work on allows.  Of an
order that does not contradict itself about the items, and by chunks that fit a
buffer, a sort is not aborted either (`Sorter.start_returns`), and what it comes
back for is its end, the demand, or a source that is not ready.
-/
import ExternalSort.Proofs.Order.Admission
import ExternalSort.Proofs.Sorter.Returning
import ExternalSort.Proofs.Table.Course
import ExternalSort.Store.Planned
import ExternalSort.Table.Sort

namespace ExternalSort

open AbortableProducer (returns)

namespace Sorter

/-- Every drive of a sort over such an input, whatever its consumers did before
and however much is asked of it, comes back with something to show: the sort has
ended, or nothing more is asked for, or some source was not ready in the
meantime.  In its merge a least item is always found, and each turn that is
followed by another hands one item over. -/
def NeverStalls (S : Type) {α : Type} [FiniteProducer S α] [ForetoldProducer S α]
    [DiligentProducer S α] [AbortableProducer S α] [ReturningProducer S α] : Prop :=
  ∀ (O W : Type) [ItemOrder O α] [SpillStore W] (w w' : W) (settings : Settings)
    (codec : Codec α) (order : O) (tag : UInt32) (input : S) (s : Sorter S O α),
    (Producer.supply input).status = .open → ReturningProducer.Fits input →
    FrameStream.ChunkFits settings.chunk →
    ItemOrder.IsConsistent order (ForetoldProducer.course input).items →
    start w settings codec order tag input = (.ok s, w') →
    ∀ (cs : List (Command α)) (demand : Demand),
      let u := (Command.performAll (s, w') cs).1
      let t := Producer.withSupply u { Producer.supply u with demand }
      AbortableProducer.returns t = true ∧
      (t.1.supply.subscriber.isSome = true →
        let o := (t.1.drive t.2).1.1.supply
        (∃ e, o.status = .over e) ∨ o.demand.isPositive = false ∨ IsRefused t) ∧
      ∀ v : Merge O α × W, TakesMergeTurn t v →
        ¬v.1.FindsNoWinner ∧
          ((Merge.turn v).again = true → ∃ a, Heard.events (Merge.turn v).events = [.item a])

theorem neverStalls (S : Type) {α : Type} [FiniteProducer S α] [ForetoldProducer S α]
    [DiligentProducer S α] [AbortableProducer S α] [ReturningProducer S α] : NeverStalls S := by
  intro O W _ _ w w' settings codec order tag input s ho hfits hchunk hc hs cs demand u t
  have hret : AbortableProducer.returns t = true := (start_returns hfits hchunk hs (.inl ho) hc cs).2 demand
  have hu : u.1.AtWork := performAll_atWork (t := (s, w')) (start_atWork ho hs) cs
  have ht : t.1.AtWork := hu.withSupply rfl hu.attended
  refine ⟨hret, ?_⟩
  generalize t = t at ht
  refine ⟨fun hsub => ?_, ?_⟩
  · have hsub' : (t.1.drive t.2).1.1.supply.subscriber.isSome = true := by
      rw [(drive_steps t.1 t.2).subscriber_eq]
      exact hsub
    rcases (drive_progress ht.attentive ht.inStep).2 with hc | hr
    · rcases (ht.drive t.2).attended hsub' with hopen | hover
      · refine .inr (.inl ?_)
        simpa [Supply.canSend, Supply.isOpen, hopen, hsub'] using hc
      · exact .inl hover
    · exact .inr (.inr hr)
  · rintro v ⟨m, w₁, hm, hv⟩
    exact ⟨((hm.attentive ht.attentive).takesTurn hv).finds_winner, Merge.turn_again_item⟩

end Sorter

end ExternalSort
