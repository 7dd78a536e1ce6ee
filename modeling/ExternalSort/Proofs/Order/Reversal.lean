/-
Reversing an order by fields.

There are two ways to reverse one: every key can be turned into the other direction, or
the records can be compared the other way round.  The first one reverses each answer, the
second one asks another question; both come to the same since values compare alike from
either side (`Value.compare?_swap`), and since a key that fails does so for both orders of
its records.  What a key locks does not depend on its direction.
-/
import ExternalSort.Proofs.Order.Screen
import ExternalSort.Order.Fields
import ExternalSort.Proofs.Order.Values

namespace ExternalSort

/-- The error of a comparison made the other way round. -/
def OrderError.swapped : OrderError → OrderError
  | incomparable field left right => incomparable field right left
  | unknownField field => unknownField field
  | custom text => custom text

theorem Direction.apply_flip (d : Direction) (o : Ordering) :
    d.flip.apply o = d.apply o.swap := by
  cases d with
  | ascending => rfl
  | descending => exact (Ordering.swap_swap).symm

namespace FieldOrder

/-- The order with every key in the opposite direction. -/
def flip (o : FieldOrder) : FieldOrder := ⟨o.entries.map fun e => (e.1.flip, e.2)⟩

theorem flip_ofKeys (keys : List SortKey) :
    (ofKeys keys).flip = ofKeys (keys.map SortKey.flip) := by
  rw [flip, ofKeys, ofKeys, List.map_map, List.map_map]
  rfl

theorem keys_flip (o : FieldOrder) : o.flip.keys = o.keys.map SortKey.flip := by
  rw [keys, keys, flip, List.map_map, List.map_map]
  rfl

theorem locks_flip (o : FieldOrder) : o.flip.locks = o.locks := by
  rw [locks, locks, flip, List.map_map]
  rfl

variable {R : Type} [HasFields R]

/-! ## Comparing -/

theorem compareKey_fields (s : SortKey) (a b : R) : compareKey s a b =
    match HasFields.field a s.name, HasFields.field b s.name with
    | some v, some w =>
      match v.compare? w with
      | some o => .ok (s.direction.apply o)
      | none => .error (.incomparable s.name v.kind w.kind)
    | _, _ => .error (.unknownField s.name) := by
  rw [compareKey, fieldOf, fieldOf]
  cases HasFields.field a s.name with
  | none => rfl
  | some v => cases HasFields.field b s.name <;> rfl

theorem compareKey_flip (s : SortKey) (a b : R) :
    compareKey s.flip a b = (compareKey s b a).mapError OrderError.swapped := by
  have hname : s.flip.name = s.name := rfl
  have hdirection : s.flip.direction = s.direction.flip := rfl
  rw [compareKey_fields, compareKey_fields, hname, hdirection]
  cases HasFields.field a s.name with
  | none => cases HasFields.field b s.name <;> rfl
  | some v =>
      cases HasFields.field b s.name with
      | none => rfl
      | some w =>
          dsimp only
          rw [Value.compare?_swap w v]
          cases w.compare? v with
          | none => rfl
          | some o =>
              refine congrArg Except.ok ?_
              rw [Direction.apply_flip, Ordering.swap_swap]

theorem compareBy_flip (keys : List SortKey) (a b : R) :
    compareBy (keys.map SortKey.flip) a b = (compareBy keys b a).mapError OrderError.swapped := by
  induction keys with
  | nil => rfl
  | cons s keys ih =>
      rw [List.map_cons, compareBy, compareBy, compareKey_flip, ih]
      -- Only where the key sees equals are the others asked.
      cases compareKey s b a with
      | error e => rfl
      | ok o => cases o <;> rfl

/-! ## Accepting -/

theorem newLocks_flip (r : R) (i : Nat) (ks : List (SortKey × Option Kind)) :
    newLocks r i (ks.map fun e => (e.1.flip, e.2)) = newLocks r i ks := by
  induction ks generalizing i with
  | nil => rfl
  | cons e ks ih =>
      obtain ⟨s, lock⟩ := e
      have hname : s.flip.name = s.name := rfl
      rw [List.map_cons, newLocks, newLocks, hname, ih]

theorem lockAt_flip (ks : List (SortKey × Option Kind)) (fresh : List (Nat × Kind)) :
    lockAt (ks.map fun e => (e.1.flip, e.2)) fresh =
      (lockAt ks fresh).map fun e => (e.1.flip, e.2) := by
  induction fresh generalizing ks with
  | nil => rfl
  | cons l fresh ih =>
      have hset : (ks.map fun e => (e.1.flip, e.2)).modify l.1 (fun e => (e.1, some l.2)) =
          (ks.modify l.1 fun e => (e.1, some l.2)).map fun e => (e.1.flip, e.2) := by
        refine List.ext_getElem? fun i => ?_
        rw [List.getElem?_modify, List.getElem?_map, List.getElem?_map, List.getElem?_modify]
        by_cases h : l.1 = i <;> cases ks[i]? <;> simp [h]
      rw [lockAt, List.foldl_cons, hset]
      exact ih _

theorem accept_flip (o : FieldOrder) (r : R) : o.flip.accept r = (o.accept r).map flip := by
  have hentries : o.flip.entries = o.entries.map fun e => (e.1.flip, e.2) := rfl
  rw [accept, accept, hentries, newLocks_flip]
  cases newLocks r 0 o.entries with
  | error e => rfl
  | ok fresh =>
      exact congrArg (fun ks => Except.ok (FieldOrder.mk ks)) (lockAt_flip o.entries fresh)

theorem screen_flip (o : FieldOrder) (shown : List R) :
    ItemOrder.screen (⟨o.flip⟩ : RecordOrder R) shown =
      (⟨(ItemOrder.screen (⟨o⟩ : RecordOrder R) shown).1.fields.flip⟩,
        (ItemOrder.screen (⟨o⟩ : RecordOrder R) shown).2) := by
  induction shown generalizing o with
  | nil => rfl
  | cons r shown ih =>
      have haccept : ∀ o : FieldOrder, ItemOrder.accept (⟨o⟩ : RecordOrder R) r =
          (o.accept r).map RecordOrder.mk := fun _ => rfl
      rw [ItemOrder.screen, ItemOrder.screen, haccept, haccept, accept_flip]
      cases o.accept r with
      | error e => exact ih o
      | ok o' =>
          simp only [Except.map]
          rw [ih o']

end FieldOrder

/-- **The order with all keys in the opposite direction is the reversed order**: whatever both
have been shown, they have accepted the same records and hold the same locks; they compare
records alike, or fail on the same field with the same error, the kinds exchanged; and they
refuse the next record with the same error, or accept it with the same locks. -/
theorem flipped_keys_reverse {R : Type} [HasFields R] (keys : List SortKey) (shown : List R) :
    let flipped := ItemOrder.screen
      (⟨FieldOrder.ofKeys (keys.map SortKey.flip)⟩ : RecordOrder R) shown
    let reversed := ItemOrder.screen
      (Reversed.mk (⟨FieldOrder.ofKeys keys⟩ : RecordOrder R)) shown
    flipped.2 = reversed.2 ∧ flipped.1.fields.locks = reversed.1.order.fields.locks ∧
      (∀ a b : R, ItemOrder.compare flipped.1 a b =
        (ItemOrder.compare reversed.1 a b).mapError OrderError.swapped) ∧
      ∀ a : R, (ItemOrder.accept flipped.1 a).map (·.fields.locks) =
        (ItemOrder.accept reversed.1 a).map (·.order.fields.locks) := by
  intro flipped reversed
  obtain ⟨o, hflipped, hreversed⟩ : ∃ o : FieldOrder,
      flipped = (⟨o.flip⟩, reversed.2) ∧ reversed.1 = ⟨⟨o⟩⟩ := by
    have hrev := ItemOrder.screen_reversed (⟨FieldOrder.ofKeys keys⟩ : RecordOrder R) shown
    have hflip := FieldOrder.screen_flip (FieldOrder.ofKeys keys) shown
    rw [FieldOrder.flip_ofKeys] at hflip
    exact ⟨_, hflip.trans (congrArg (Prod.mk _) (congrArg Prod.snd hrev).symm),
      congrArg Prod.fst hrev⟩
  rw [hflipped, hreversed]
  refine ⟨rfl, FieldOrder.locks_flip o, ?_, ?_⟩
  · intro a b
    show FieldOrder.compareBy o.flip.keys a b = _
    rw [FieldOrder.keys_flip]
    exact FieldOrder.compareBy_flip o.keys a b
  · intro a
    show ((o.flip.accept a).map RecordOrder.mk).map _ =
      (((o.accept a).map RecordOrder.mk).map Reversed.mk).map _
    rw [FieldOrder.accept_flip]
    cases o.accept a with
    | error e => rfl
    | ok o' => exact congrArg Except.ok (FieldOrder.locks_flip o')

end ExternalSort
