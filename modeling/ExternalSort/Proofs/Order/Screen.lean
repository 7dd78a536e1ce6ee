/-
Showing items to an order.

An order may refuse an item, and what it has accepted may change what it accepts
later.  `ItemOrder.screen` shows it items one after the other and tells which
of them it has accepted.
-/
import ExternalSort.Order.Basic

namespace ExternalSort

namespace ItemOrder

variable {O α : Type} [ItemOrder O α]

/-- Shows items to an order and passes over those it refuses.  The result is
the order then, and the items it has accepted. -/
def screen (o : O) : List α → O × List α
  | [] => (o, [])
  | a :: items =>
    match accept o a with
    | .error _ => screen o items
    | .ok o =>
      let (o, accepted) := screen o items
      (o, a :: accepted)

theorem screen_append (o : O) (xs ys : List α) :
    screen o (xs ++ ys) =
      ((screen (screen o xs).1 ys).1, (screen o xs).2 ++ (screen (screen o xs).1 ys).2) := by
  induction xs generalizing o with
  | nil => rfl
  | cons x xs ih =>
      rw [List.cons_append, screen, screen]
      cases accept o x with
      | error e => exact ih o
      | ok o' =>
          dsimp only
          rw [ih o']
          rfl

theorem screen_sublist (o : O) (shown : List α) : (screen o shown).2.Sublist shown := by
  induction shown generalizing o with
  | nil => exact .refl _
  | cons a shown ih =>
      rw [screen]
      split
      · exact (ih o).cons a
      · exact (ih _).cons_cons a

theorem screen_refused {o : O} {shown : List α} {a : α} {e : OrderError}
    (h : accept (screen o shown).1 a = .error e) : screen o (shown ++ [a]) = screen o shown := by
  rw [screen_append, screen, h]
  simp [screen]

theorem screen_accepted {o o' : O} {shown : List α} {a : α}
    (h : accept (screen o shown).1 a = .ok o') :
    screen o (shown ++ [a]) = (o', (screen o shown).2 ++ [a]) := by
  rw [screen_append, screen, h]
  rfl

theorem screen_induction {P : O → List α → Prop}
    (step : ∀ {o o' : O} {a : α} {as : List α}, P o as → accept o a = .ok o' → P o' (as ++ [a]))
    {o : O} {as : List α} (h : P o as) (shown : List α) :
    P (screen o shown).1 (as ++ (screen o shown).2) := by
  induction shown generalizing o as with
  | nil => simpa [screen] using h
  | cons a shown ih =>
      rw [screen]
      split
      · exact ih h
      · next o' ha => simpa using ih (step h ha)

theorem screen_reversed (o : O) (shown : List α) :
    screen (Reversed.mk o) shown = (⟨(screen o shown).1⟩, (screen o shown).2) := by
  induction shown generalizing o with
  | nil => rfl
  | cons a shown ih =>
      have hr : accept (Reversed.mk o) a = (accept o a).map Reversed.mk := rfl
      rw [screen, screen, hr]
      cases accept o a with
      | error e => exact ih o
      | ok o' =>
          simp only [Except.map]
          rw [ih o']

end ItemOrder

end ExternalSort
