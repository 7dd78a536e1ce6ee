/-
Demand: how many items a consumer still wants.

A stream hands over an item only while its demand is positive, and each
item uses up one unit.  The largest word stands for demand without a
limit, which no item uses up.  A consumer changes the demand in three
ways (`Demand.Change`), also while an item is being handed to it.
-/
import ExternalSort.Word

namespace ExternalSort

/-- Outstanding demand of one stream: the number of items that may still
be handed over. -/
structure Demand where
  amount : Nat
  amount_le : amount ≤ wordMax
deriving DecidableEq, Repr

namespace Demand

/-- Nothing is wanted. -/
def none : Demand := ⟨0, Nat.zero_le _⟩

/-- Everything is wanted. -/
def unlimited : Demand := ⟨wordMax, Nat.le_refl _⟩

instance : Inhabited Demand := ⟨none⟩

def isUnlimited (d : Demand) : Bool := d.amount == wordMax

def isPositive (d : Demand) : Bool := 0 < d.amount

/-- Grants `n` more items.  Demand that reaches the largest word is
without limit from then on. -/
def grant (d : Demand) (n : Nat) : Demand := ⟨satAdd d.amount n, satAdd_le ..⟩

/-- Uses up one item.  Demand without limit stays so, and no demand is
never overdrawn. -/
def consume (d : Demand) : Demand :=
  if d.isUnlimited then d else ⟨d.amount - 1, Nat.le_trans (Nat.sub_le ..) d.amount_le⟩

/-- What a consumer can do to the demand of its stream. -/
inductive Change where
  | pause
  | unlimit
  | request (n : Nat)
deriving DecidableEq, Repr

/-- The demand after one change. -/
def change (d : Demand) : Change → Demand
  | .pause => none
  | .unlimit => unlimited
  | .request n => d.grant n

/-- The demand after several changes, made in order. -/
def changes (d : Demand) (cs : List Change) : Demand := cs.foldl change d

end Demand

/-- Why a demand is refused. -/
inductive RequestError where
  /-- A consumer asked for fewer than no items. -/
  | negative (n : Int)
deriving DecidableEq, Repr

namespace RequestError

def message : RequestError → String
  | .negative n => s!"demand must not be negative (got {n})"

end RequestError

namespace Demand

/-- The number of items a signed request asks for. -/
def ofRequest (n : Int) : Except RequestError Nat :=
  if n < 0 then .error (.negative n) else .ok n.toNat

/-- Grants a signed number of items. -/
def fetch (d : Demand) (n : Int) : Except RequestError Demand :=
  (ofRequest n).map d.grant

end Demand

end ExternalSort
