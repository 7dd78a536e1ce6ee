/-
Totals: the sum of a quantity over a list.
-/
namespace ExternalSort

/-- The sum of a quantity over a list.  Its zero is named because numbers have
another one where there is algebra. -/
def total {α : Type} (quantity : α → Nat) (as : List α) : Nat :=
  @List.sum Nat instAddNat ⟨0⟩ (as.map quantity)

end ExternalSort
