/-
Computations that compare items.

A sort learns about its items only by asking which of two is less.  A
computation that may ask so is a tree of questions, and what comes of it is
what stands where the answers lead.  It can also give itself up, where the
answers contradict each other.
-/
namespace ExternalSort

/-- A computation that asks which of two items is less, and goes on by the
answer. -/
inductive Comparing (α β : Type) where
  | done (b : β)
  /-- The computation is given up. -/
  | aborted
  | ask (a b : α) (next : Bool → Comparing α β)

/-- What comes of a computation whose comparisons may fail. -/
inductive Compared (ε β : Type) where
  | done (b : β)
  /-- A comparison has failed. -/
  | failed (e : ε)
  /-- The answers have contradicted each other, and the program is given up. -/
  | aborted
deriving DecidableEq, Repr

variable {α β γ ε : Type}

/-- What comes of a computation, in another form. -/
def Compared.map (f : β → γ) : Compared ε β → Compared ε γ
  | done b => done (f b)
  | failed e => failed e
  | aborted => aborted

/-- Whether a computation was given up. -/
def Compared.isAborted : Compared ε β → Bool
  | aborted => true
  | done _ | failed _ => false

namespace Comparing

def bind : Comparing α β → (β → Comparing α γ) → Comparing α γ
  | done b, f => f b
  | aborted, _ => aborted
  | ask a b next, f => ask a b fun answer => (next answer).bind f

instance : Monad (Comparing α) where
  pure := done
  bind := bind

/-- Asks whether one item is less than another. -/
def less (a b : α) : Comparing α Bool := ask a b done

/-- What comes of a computation under some answers, unless it is given up. -/
def run (lt : α → α → Bool) : Comparing α β → Option β
  | done b => some b
  | aborted => none
  | ask a b next => (next (lt a b)).run lt

/-- What comes of a computation under a comparison that may fail.  Two items
that do not compare pass for equal; the first failure is kept, and told in the
end. -/
def perform (cmp : α → α → Except ε Ordering) (failure : Option ε) :
    Comparing α β → Compared ε β
  | done b => failure.elim (.done b) .failed
  | aborted => .aborted
  | ask a b next =>
    match cmp a b with
    | .ok o => (next (o == .lt)).perform cmp failure
    | .error e => (next false).perform cmp (failure <|> some e)

end Comparing

end ExternalSort
