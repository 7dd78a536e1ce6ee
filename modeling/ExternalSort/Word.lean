/-
Quantities that fit a machine word.

Credits, size estimates and settings are natural numbers that never pass
the largest 64-bit word: their sums and products stop there instead of
wrapping around.
-/
namespace ExternalSort

/-- The largest 64-bit word, where every bounded quantity stops. -/
def wordMax : Nat := 0xFFFFFFFFFFFFFFFF

/-- The sum of two quantities, stopped at the largest word. -/
def satAdd (a b : Nat) : Nat := min (a + b) wordMax

/-- The product of two quantities, stopped at the largest word. -/
def satMul (a b : Nat) : Nat := min (a * b) wordMax

theorem satAdd_le (a b : Nat) : satAdd a b ≤ wordMax := Nat.min_le_right ..

end ExternalSort
