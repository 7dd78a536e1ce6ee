/-
What is left behind by items that are refused.

Nothing: a generator that was offered some items, whatever became of them, is as it would be
if those that its order refused had never been offered, and so is the store
(`refused_items_leave_no_trace`).  The items that remain meet the same fate, since each finds
the generator and the store as it found them before (`RunGenerator.offers_accepted`).
-/
import ExternalSort.Proofs.Order.Locks
import ExternalSort.Proofs.Run.Spilling

namespace ExternalSort

/-- An item that was offered, whether the order accepted it, and what came of the offer. -/
structure Offer (α : Type) where
  item : α
  accepted : Bool
  result : Except Failure Unit

namespace RunGenerator

variable {O α W : Type} [ItemOrder O α] [SpillStore W]

/-- Offers items one after the other, whether or not some of them fail. -/
def offers (b : RunGenerator O α) (w : W) : List α → List (Offer α) × RunGenerator O α × W
  | [] => ([], b, w)
  | a :: items =>
    let (result, b', w') := b.add w a
    let (log, end_) := b'.offers w' items
    (⟨a, (ItemOrder.accept b.order a).isOk, result⟩ :: log, end_)

theorem offers_refused {b : RunGenerator O α} {a : α} {e : OrderError}
    (h : ItemOrder.accept b.order a = .error e) (w : W) (items : List α) :
    b.offers w (a :: items) =
      (⟨a, false, .error (.ofCompare e)⟩ :: (b.offers w items).1, (b.offers w items).2) := by
  rw [offers, add_refused h, h]
  rfl

theorem offers_accepted {b : RunGenerator O α} {a : α} {o : O}
    (h : ItemOrder.accept b.order a = .ok o) (w : W) (items : List α) :
    b.offers w (a :: items) =
      let next := (b.add w a).2.1.offers (b.add w a).2.2 items
      (⟨a, true, (b.add w a).1⟩ :: next.1, next.2) := by
  rw [offers, h]
  rfl

/-- An item that is accepted is counted, and the order knows of it, whether or not a spill
that is due with it fails. -/
theorem add_accepted_keeps {b : RunGenerator O α} {a : α} {o : O}
    (h : ItemOrder.accept b.order a = .ok o) (w : W) :
    (b.add w a).2.1.order = o ∧ (b.add w a).2.1.added = b.added + 1 := by
  have hspill : ((b.hold o a).spill w).2.1.order = o ∧
      ((b.hold o a).spill w).2.1.added = b.added + 1 := by
    have hs := (b.hold o a).spilled w
    generalize (b.hold o a).spill w = s at hs
    cases hs <;> exact ⟨rfl, rfl⟩
  rw [add_accepted h]
  split
  · exact hspill
  · exact ⟨rfl, rfl⟩

/-! ## Offering only what is accepted -/

theorem offers_again (b : RunGenerator O α) (w : W) (items : List α) :
    let accepted := (b.offers w items).1.filter Offer.accepted
    b.offers w (accepted.map Offer.item) = (accepted, (b.offers w items).2) := by
  induction items generalizing b w with
  | nil => rfl
  | cons a items ih =>
      cases ha : ItemOrder.accept b.order a with
      | error e =>
          -- The generator and the store are still what they were.
          rw [offers_refused ha]
          exact ih b w
      | ok o =>
          rw [offers_accepted ha]
          dsimp only
          rw [List.filter_cons_of_pos rfl, List.map_cons, offers_accepted ha]
          dsimp only
          rw [ih]

theorem offers_items (b : RunGenerator O α) (w : W) (items : List α) :
    (b.offers w items).1.map Offer.item = items := by
  induction items generalizing b w with
  | nil => rfl
  | cons a items ih => exact congrArg (a :: ·) (ih _ _)

theorem offers_added (b : RunGenerator O α) (w : W) (items : List α) :
    (b.offers w items).2.1.added =
      b.added + ((b.offers w items).1.filter Offer.accepted).length := by
  induction items generalizing b w with
  | nil => rfl
  | cons a items ih =>
      cases ha : ItemOrder.accept b.order a with
      | error e =>
          rw [offers_refused ha]
          exact ih b w
      | ok o =>
          rw [offers_accepted ha]
          dsimp only
          rw [ih, (add_accepted_keeps ha w).2, List.filter_cons_of_pos rfl, List.length_cons]
          omega

theorem offers_screen (b : RunGenerator O α) (w : W) (items : List α) :
    ItemOrder.screen b.order items = ((b.offers w items).2.1.order,
      ((b.offers w items).1.filter Offer.accepted).map Offer.item) := by
  induction items generalizing b w with
  | nil => rfl
  | cons a items ih =>
      rw [ItemOrder.screen]
      cases ha : ItemOrder.accept b.order a with
      | error e =>
          rw [offers_refused ha]
          exact ih b w
      | ok o =>
          rw [offers_accepted ha]
          dsimp only
          rw [← (add_accepted_keeps ha w).1, ih (b.add w a).2.1 (b.add w a).2.2]
          rfl

variable {R : Type} [HasFields R]

theorem offers_refusals (b : RunGenerator (RecordOrder R) R) (w : W) (items : List R) :
    ∀ o ∈ (b.offers w items).1, o.accepted = false → ∃ e, o.result = .error (.ofCompare e) ∧
      FieldOrder.RefusedFor b.order.fields.keys o.item e := by
  induction items generalizing b w with
  | nil => exact fun _ h => absurd h List.not_mem_nil
  | cons a items ih =>
      cases ha : ItemOrder.accept b.order a with
      | error e =>
          rw [offers_refused ha, List.forall_mem_cons]
          exact ⟨fun _ => ⟨e, rfl, FieldOrder.accept_refused ha⟩, ih b w⟩
      | ok o =>
          rw [offers_accepted ha, List.forall_mem_cons]
          have hkeys : (b.add w a).2.1.order.fields.keys = b.order.fields.keys := by
            rw [(add_accepted_keeps ha w).1, FieldOrder.accept_keys ha]
          exact ⟨fun h => absurd h (by simp), hkeys ▸ ih _ _⟩

end RunGenerator

/-- **Items that are refused leave no trace**: whatever a generator of runs by fields is offered,
with whatever items in memory and whatever store it begins, if the items that are refused are
left out then the other offers have the same results, and the generator and the store end
alike, so that closing the generator hands over the same runs.  An item is refused as it lacks
a field or holds a value there that conflicts with a lock.  The items that are not refused are
those that are counted, and those that lock the keys: each key that was not locked before is
locked to the first kind of value in them, nulls apart. -/
theorem refused_items_leave_no_trace {R W : Type} [HasFields R] [SpillStore W]
    (b : RunGenerator (RecordOrder R) R) (w : W) (items : List R) :
    ∃ (log : List (Offer R)) (b' : RunGenerator (RecordOrder R) R) (w' : W),
      b.offers w items = (log, b', w') ∧ log.map Offer.item = items ∧
      (∀ o ∈ log, o.accepted = false → ∃ e, o.result = .error (.ofCompare e) ∧
        FieldOrder.RefusedFor b.order.fields.keys o.item e) ∧
      let accepted := log.filter Offer.accepted
      b.offers w (accepted.map Offer.item) = (accepted, b', w') ∧
        b'.added = b.added + accepted.length ∧
        b'.order.fields.entries =
          FieldOrder.lockedBy b.order.fields.entries (accepted.map Offer.item) := by
  refine ⟨_, _, _, rfl, b.offers_items w items, b.offers_refusals w items, b.offers_again w items,
    b.offers_added w items, ?_⟩
  have hlocks := FieldOrder.entries_screen b.order items
  rwa [b.offers_screen w items] at hlocks

end ExternalSort
