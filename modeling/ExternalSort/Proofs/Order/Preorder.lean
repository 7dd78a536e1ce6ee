/-
Comparisons that put items into an order.

A comparison may fail, and nothing says that what it answers makes sense.
`IsPreorderOn` says that among some items it neither fails nor contradicts
itself: the items are in an order, in which several of them may be equal.
-/
import ExternalSort.Order.Basic

namespace ExternalSort

variable {α : Type}

/-- Among the items of `P` the comparison `cmp` never fails, and what it
answers, which is `rank`, is a total preorder. -/
structure IsPreorderOn (cmp : α → α → Except OrderError Ordering) (rank : α → α → Ordering)
    (P : α → Prop) : Prop where
  compare : ∀ {a b}, P a → P b → cmp a b = .ok (rank a b)
  swap : ∀ {a b}, P a → P b → rank b a = (rank a b).swap
  trans : ∀ {a b c}, P a → P b → P c → rank a b ≠ .gt → rank b c ≠ .gt → rank a c ≠ .gt

/-- No item is greater than a later one. -/
def NonDecreasing (rank : α → α → Ordering) (items : List α) : Prop :=
  items.Pairwise fun a b => rank a b ≠ .gt

variable {cmp : α → α → Except OrderError Ordering} {rank : α → α → Ordering} {P : α → Prop}
  {a b : α}

theorem NonDecreasing.left {xs ys : List α} (h : NonDecreasing rank (xs ++ ys)) :
    NonDecreasing rank xs :=
  (List.pairwise_append.mp h).1

theorem NonDecreasing.right {xs ys : List α} (h : NonDecreasing rank (xs ++ ys)) :
    NonDecreasing rank ys :=
  (List.pairwise_append.mp h).2.1

namespace IsPreorderOn

theorem refl (h : IsPreorderOn cmp rank P) (ha : P a) : rank a a ≠ .gt := by
  intro hgt
  have := h.swap ha ha
  rw [hgt] at this
  exact absurd this (by decide)

theorem not_gt_of_not_lt (h : IsPreorderOn cmp rank P) (ha : P a) (hb : P b)
    (hlt : rank a b ≠ .lt) : rank b a ≠ .gt := by
  rw [h.swap ha hb]
  cases hr : rank a b with
  | lt => exact absurd hr hlt
  | eq => decide
  | gt => decide

theorem not_gt_of_gt (h : IsPreorderOn cmp rank P) (ha : P a) (hb : P b)
    (hgt : rank a b = .gt) : rank b a ≠ .gt := by
  rw [h.swap ha hb, hgt]
  decide

theorem eq_of_eq (h : IsPreorderOn cmp rank P) {c : α} (ha : P a) (hb : P b) (hc : P c)
    (hab : rank a b ≠ .gt) (hbc : rank b c ≠ .gt) (hac : rank a c = .eq) :
    rank a b = .eq ∧ rank b c = .eq := by
  have hca : rank c a ≠ .gt := by
    rw [h.swap ha hc, hac]
    decide
  have hba : rank b a ≠ .gt := h.trans hb hc ha hbc hca
  have hcb : rank c b ≠ .gt := h.trans hc ha hb hca hab
  rw [h.swap ha hb] at hba
  rw [h.swap hb hc] at hcb
  constructor
  · cases hr : rank a b with
    | lt => exact absurd (congrArg Ordering.swap hr) hba
    | eq => rfl
    | gt => exact absurd hr hab
  · cases hr : rank b c with
    | lt => exact absurd (congrArg Ordering.swap hr) hcb
    | eq => rfl
    | gt => exact absurd hr hbc

theorem directed (h : IsPreorderOn cmp rank P) (d : Direction)
    {cmp' : α → α → Except OrderError Ordering}
    (hcmp : ∀ a b, P a → P b → cmp' a b = .ok (d.apply (rank a b))) :
    IsPreorderOn cmp' (fun a b => d.apply (rank a b)) P where
  compare := hcmp _ _
  swap ha hb := by
    rw [h.swap ha hb]
    cases d <;> rfl
  trans ha hb hc hab hbc := by
    cases d with
    | ascending => exact h.trans ha hb hc hab hbc
    | descending =>
        -- Read backwards, the way leads from the last item to the first.
        simp only [Direction.apply, ← h.swap, ha, hb, hc] at hab hbc ⊢
        exact h.trans hc hb ha hbc hab

theorem reversed (h : IsPreorderOn cmp rank P) :
    IsPreorderOn (fun a b => cmp b a) (fun a b => rank b a) P where
  compare ha hb := h.compare hb ha
  swap ha hb := h.swap hb ha
  trans ha hb hc hab hbc := h.trans hc hb ha hbc hab

theorem andThen (h : IsPreorderOn cmp rank P) {cmp₂ cmp' : α → α → Except OrderError Ordering}
    {rank₂ : α → α → Ordering} (h₂ : IsPreorderOn cmp₂ rank₂ P)
    (hcmp : ∀ a b, P a → P b → cmp' a b = .ok ((rank a b).then (rank₂ a b))) :
    IsPreorderOn cmp' (fun a b => (rank a b).then (rank₂ a b)) P where
  compare := hcmp _ _
  swap ha hb := by
    rw [h.swap ha hb, h₂.swap ha hb, Ordering.swap_then]
  trans ha hb hc hab hbc := by
    simp only [ne_eq, Ordering.then_eq_gt, not_or, not_and] at hab hbc ⊢
    refine ⟨h.trans ha hb hc hab.1 hbc.1, ?_⟩
    intro heq
    obtain ⟨heab, hebc⟩ := h.eq_of_eq ha hb hc hab.1 hbc.1 heq
    exact h₂.trans ha hb hc (hab.2 heab) (hbc.2 hebc)

theorem not_gt_of_head {bs : List α} (h : IsPreorderOn cmp rank P) (ha : P a)
    (hb : ∀ c ∈ b :: bs, P c) (hs : NonDecreasing rank (b :: bs)) (hab : rank a b ≠ .gt) :
    ∀ c ∈ b :: bs, rank a c ≠ .gt := by
  intro c hc
  rcases List.mem_cons.mp hc with rfl | hm
  · exact hab
  · have hbc := (List.pairwise_cons.mp hs).1 c hm
    exact h.trans ha (hb b List.mem_cons_self) (hb c hc) hab hbc

end IsPreorderOn

end ExternalSort
