/-
The order of records by several fields.

The fields are compared in the order of the sort keys, and the first one
that differs decides.  Nulls come last in an ascending field, and first in
a descending one, which is the ascending order reversed as a whole.

Each key is locked to the kind of the first value, nulls apart, that was
accepted for it; a value of a kind that does not compare with the lock is
refused later.  A refused record locks nothing.
-/
import ExternalSort.Order.Basic
import ExternalSort.Row

namespace ExternalSort

/-- Sort keys, each with the kind it is locked to, if any. -/
structure FieldOrder where
  entries : List (SortKey × Option Kind)
deriving DecidableEq, Repr

namespace FieldOrder

/-- The order by some sort keys, with nothing locked. -/
def ofKeys (keys : List SortKey) : FieldOrder := ⟨keys.map fun s => (s, none)⟩

/-- The order that a list of sort keys describes. -/
def parse (s : String) : Except SortKeyError FieldOrder := (SortKey.parseAll s).map ofKeys

def keys (o : FieldOrder) : List SortKey := o.entries.map Prod.fst

def locks (o : FieldOrder) : List (Option Kind) := o.entries.map Prod.snd

variable {R : Type} [HasFields R]

/-- The value of a field that must be there. -/
def fieldOf (r : R) (name : String) : Except OrderError Value :=
  match HasFields.field r name with
  | some v => .ok v
  | none => .error (.unknownField name)

/-- Compares two records by one sort key. -/
def compareKey (s : SortKey) (a b : R) : Except OrderError Ordering := do
  let v ← fieldOf a s.name
  let w ← fieldOf b s.name
  match v.compare? w with
  | some o => .ok (s.direction.apply o)
  | none => .error (.incomparable s.name v.kind w.kind)

/-- Compares two records by some sort keys. -/
def compareBy : List SortKey → R → R → Except OrderError Ordering
  | [], _, _ => .ok .eq
  | s :: ss, a, b =>
    match compareKey s a b with
    | .ok .eq => compareBy ss a b
    | r => r

/-- What a record would lock: for each key that is not locked yet and finds a value, nulls
apart, its place and the kind of the value.  A locked key must compare with what it finds.
The first key stands at place `i`. -/
def newLocks (r : R) (i : Nat) : List (SortKey × Option Kind) →
    Except OrderError (List (Nat × Kind))
  | [] => .ok []
  | (s, lock) :: ks => do
    let v ← fieldOf r s.name
    if v.isNull then newLocks r (i + 1) ks
    else match lock with
      | none =>
        let fresh ← newLocks r (i + 1) ks
        .ok ((i, v.kind) :: fresh)
      | some k =>
        if k.comparesWith v.kind then newLocks r (i + 1) ks
        else .error (.incomparable s.name k v.kind)

/-- The keys once those at some places are locked to some kinds. -/
def lockAt (ks : List (SortKey × Option Kind)) (fresh : List (Nat × Kind)) :
    List (SortKey × Option Kind) :=
  fresh.foldl (fun ks l => ks.modify l.1 fun e => (e.1, some l.2)) ks

/-- The locks that a record takes are set only after every key has let it through. -/
def accept (o : FieldOrder) (r : R) : Except OrderError FieldOrder :=
  (newLocks r 0 o.entries).map fun fresh => ⟨lockAt o.entries fresh⟩

end FieldOrder

/-- The order by fields, as an order of one type of records. -/
structure RecordOrder (R : Type) where
  fields : FieldOrder
deriving DecidableEq, Repr

instance {R : Type} [HasFields R] : ItemOrder (RecordOrder R) R where
  compare o := FieldOrder.compareBy o.fields.keys
  accept o r := (o.fields.accept r).map RecordOrder.mk

end ExternalSort
