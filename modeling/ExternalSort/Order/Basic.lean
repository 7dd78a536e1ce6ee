/-
Orders of items that may fail.

An order compares two items, or fails to.  It also accepts items: each
item that enters a sort is shown to the order once, before any comparison
with it, and the order may refuse it or keep something in mind about it.
What it keeps in mind changes which items it accepts later, and no
comparison.
-/
import ExternalSort.SortKey
import ExternalSort.Value

namespace ExternalSort

/-- Why two items do not compare, or why an item is refused. -/
inductive OrderError where
  | incomparable (field : String) (left right : Kind)
  | unknownField (field : String)
  | custom (text : String)
deriving DecidableEq, Repr

namespace OrderError

def message : OrderError → String
  | incomparable f l r =>
    s!"field {Text.quoted f} holds incomparable values: {l.name} vs {r.name}"
  | unknownField f => s!"unknown sort field {Text.quoted f}"
  | custom t => t

end OrderError

/-- An order of items. -/
class ItemOrder (O : Type) (α : outParam Type) where
  compare : O → α → α → Except OrderError Ordering
  /-- The order once it has taken note of an item. -/
  accept : O → α → Except OrderError O

/-- The order of a comparison that never fails.  It accepts every item. -/
structure PlainOrder (α : Type) where
  compare : α → α → Ordering

namespace PlainOrder

/-- The order that a type has by itself. -/
def natural (α : Type) [Ord α] : PlainOrder α := ⟨Ord.compare⟩

instance {α : Type} : ItemOrder (PlainOrder α) α where
  compare o a b := .ok (o.compare a b)
  accept o _ := .ok o

end PlainOrder

/-- The full reversal of another order. -/
structure Reversed (O : Type) where
  order : O
deriving DecidableEq, Repr

instance {O α : Type} [ItemOrder O α] : ItemOrder (Reversed O) α where
  compare o a b := ItemOrder.compare o.order b a
  accept o a := (ItemOrder.accept o.order a).map Reversed.mk

/-- Shows items to an order one after the other.  The first one that it
refuses is told by its place, where `i` is that of the first item. -/
def ItemOrder.acceptFrom {O α : Type} [ItemOrder O α] (o : O) (i : Nat) :
    List α → Except (Nat × OrderError) O
  | [] => .ok o
  | a :: rest =>
    match ItemOrder.accept o a with
    | .error e => .error (i, e)
    | .ok o => acceptFrom o (i + 1) rest

end ExternalSort
