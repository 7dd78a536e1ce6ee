/-
Sorting short lists.

What a sort asks says nothing about whether the answers make sense.  Whatever
they are, it gives the items again if it is not aborted (`Sorts.perm`); if
they come from an order, it is not aborted, and gives them in order
(`Sorts.rising`).

The point is the merge from both ends.  Each end takes half of the items and
knows nothing of the other.  They part the two lists in the same places,
because an item that both had taken, or neither, would have to be less than
another one and not less than it (`Merging.meets`).
-/
import ExternalSort.Order.Sorting
import Mathlib.Data.List.Chain

namespace ExternalSort

variable {α β γ : Type} {lt : α → α → Bool}

/-! ## Answers that come from an order -/

/-- Items are less than others as in an order in which several may be equal. -/
structure IsWeakOrder (lt : α → α → Bool) : Prop where
  asymm : ∀ {a b}, lt a b = true → lt b a = false
  trans : ∀ {a b c}, lt b a = false → lt c b = false → lt c a = false

theorem IsWeakOrder.lt_of_lt_of_le (h : IsWeakOrder lt) {a b c : α} (hab : lt a b = true)
    (hbc : lt c b = false) : lt a c = true := by
  by_contra hac
  have hac : lt a c = false := by simpa using hac
  exact absurd (hab.symm.trans (h.trans hbc hac)) (by simp)

theorem IsWeakOrder.flip (h : IsWeakOrder lt) : IsWeakOrder (flip lt) where
  asymm := h.asymm
  trans hab hbc := h.trans hbc hab

/-- No item is less than an earlier one. -/
def Rising (lt : α → α → Bool) (items : List α) : Prop :=
  items.Pairwise fun a b => lt b a = false

theorem rising_reverse {items : List α} : Rising lt items.reverse ↔ Rising (flip lt) items :=
  List.pairwise_reverse

theorem IsWeakOrder.rising_of_chain (h : IsWeakOrder lt) {items : List α}
    (hc : items.IsChain fun a b => lt b a = false) : Rising lt items :=
  haveI : Trans (fun a b => lt b a = false) (fun a b => lt b a = false)
      (fun a b => lt b a = false) := ⟨h.trans⟩
  List.isChain_iff_pairwise.mp hc

theorem IsWeakOrder.rising_four (h : IsWeakOrder lt) {a b c d : α} (hab : lt b a = false)
    (hbc : lt c b = false) (hcd : lt d c = false) : Rising lt [a, b, c, d] :=
  h.rising_of_chain (by simp [hab, hbc, hcd])

namespace Comparing

/-! ## What comes of a computation -/

@[simp] theorem run_pure (b : β) : (pure b : Comparing α β).run lt = some b := rfl

@[simp] theorem run_less (a b : α) : (less a b).run lt = some (lt a b) := rfl

@[simp] theorem run_aborted : (aborted : Comparing α β).run lt = none := rfl

@[simp] theorem run_bind (c : Comparing α β) (f : β → Comparing α γ) :
    (c >>= f).run lt = (c.run lt).bind fun b => (f b).run lt := by
  show (c.bind f).run lt = _
  induction c with
  | done b => rfl
  | aborted => rfl
  | ask a b next ih => exact ih (lt a b)

/-- A computation that sorts some items. -/
structure Sorts (lt : α → α → Bool) (items : List α) (c : Comparing α (List α)) : Prop where
  perm : ∀ {sorted}, c.run lt = some sorted → sorted.Perm items
  rising : IsWeakOrder lt → ∃ sorted, c.run lt = some sorted ∧ Rising lt sorted

theorem Sorts.of_run {items sorted : List α} {c : Comparing α (List α)}
    (h : c.run lt = some sorted) (hperm : sorted.Perm items)
    (hrising : IsWeakOrder lt → Rising lt sorted) : Sorts lt items c where
  perm hs := by
    obtain rfl := Option.some.inj (h.symm.trans hs)
    exact hperm
  rising hlt := ⟨sorted, h, hrising hlt⟩

theorem Sorts.congr {items : List α} {c c' : Comparing α (List α)} (h : Sorts lt items c)
    (hrun : c'.run lt = c.run lt) : Sorts lt items c' where
  perm hs := h.perm (hrun.symm.trans hs)
  rising hlt := by
    rw [hrun]
    exact h.rising hlt

/-! ## Insertion -/

theorem run_insertTail (lt : α → α → Bool) (x : α) (items : List α) :
    ∃ grown, (insertTail x items).run lt = some grown ∧ grown.Perm (x :: items) ∧
      (IsWeakOrder lt → Rising (flip lt) items → Rising (flip lt) grown) := by
  induction items with
  | nil => exact ⟨[x], rfl, .refl _, fun _ _ => List.pairwise_singleton ..⟩
  | cons y items ih =>
      obtain ⟨grown, hrun, hperm, hrising⟩ := ih
      cases hxy : lt x y with
      | true =>
          refine ⟨y :: grown, by simp [insertTail, hxy, hrun], (hperm.cons y).trans (.swap ..), ?_⟩
          intro hlt hi
          obtain ⟨hy, hi⟩ := List.pairwise_cons.mp hi
          refine List.pairwise_cons.mpr ⟨?_, hrising hlt hi⟩
          intro z hz
          rcases List.mem_cons.mp (hperm.subset hz) with rfl | hz
          · exact hlt.asymm hxy
          · exact hy z hz
      | false =>
          refine ⟨x :: y :: items, by simp [insertTail, hxy], .refl _, ?_⟩
          intro hlt hi
          refine List.pairwise_cons.mpr ⟨?_, hi⟩
          intro z hz
          rcases List.mem_cons.mp hz with rfl | hz
          · exact hxy
          · exact hlt.flip.trans hxy ((List.pairwise_cons.mp hi).1 z hz)

theorem run_insertAll (lt : α → α → Bool) (sorted items : List α) :
    ∃ grown, (insertAll sorted items).run lt = some grown ∧ grown.Perm (sorted ++ items) ∧
      (IsWeakOrder lt → Rising (flip lt) sorted → Rising (flip lt) grown) := by
  induction items generalizing sorted with
  | nil => exact ⟨sorted, rfl, by simp, fun _ h => h⟩
  | cons x items ih =>
      obtain ⟨sorted', hrun, hperm, hrising⟩ := run_insertTail lt x sorted
      obtain ⟨grown, hrun', hperm', hrising'⟩ := ih sorted'
      refine ⟨grown, by simp [insertAll, hrun, hrun'], ?_, fun hlt h => hrising' hlt (hrising hlt h)⟩
      exact hperm'.trans ((hperm.append_right items).trans List.perm_middle.symm)

theorem sorts_insertionSort (items : List α) : Sorts lt items (insertionSort items) := by
  obtain ⟨grown, hrun, hperm, hrising⟩ := run_insertAll lt [] items
  refine .of_run (show _ = some grown.reverse by simp [insertionSort, hrun])
    (grown.reverse_perm.trans hperm) ?_
  exact fun hlt => rising_reverse.mpr (hrising hlt .nil)

/-! ## Four items -/

theorem perm_swapped (swapped : Bool) (a b : α) :
    [if swapped then b else a, if swapped then a else b].Perm [a, b] := by
  cases swapped with
  | true => exact .swap ..
  | false => exact .refl _

theorem run_mergePairs (lt : α → α → Bool) (a b c d : α) :
    ∃ sorted, (mergePairs a b c d).run lt = some sorted ∧ sorted.Perm [a, b, c, d] ∧
      (IsWeakOrder lt → lt b a = false → lt d c = false → Rising lt sorted) := by
  have hright : [a, c, d, b].Perm [a, b, c, d] :=
    .cons a (show ([c, d] ++ [b]).Perm ([b] ++ [c, d]) from List.perm_append_comm)
  have hleft : [c, a, b, d].Perm [a, b, c, d] :=
    (show ([c] ++ [a, b]).Perm ([a, b] ++ [c]) from List.perm_append_comm).append_right [d]
  have hboth : [c, a, d, b].Perm [a, b, c, d] := (List.Perm.swap a c [d, b]).trans hright
  cases hca : lt c a <;> cases hdb : lt d b
  · cases hcb : lt c b with
    | true =>
        refine ⟨[a, c, b, d], by simp [mergePairs, hca, hdb, hcb], .cons a (.swap ..), ?_⟩
        exact fun h _ _ => h.rising_four hca (h.asymm hcb) hdb
    | false =>
        refine ⟨[a, b, c, d], by simp [mergePairs, hca, hdb, hcb], .refl _, ?_⟩
        exact fun h hab hcd => h.rising_four hab hcb hcd
  · cases hdc : lt d c with
    | true =>
        refine ⟨[a, d, c, b], by simp [mergePairs, hca, hdb, hdc], ?_, ?_⟩
        · exact (List.Perm.cons a (.swap ..)).trans hright
        · exact fun _ _ hcd => absurd hcd (by simp)
    | false =>
        refine ⟨[a, c, d, b], by simp [mergePairs, hca, hdb, hdc], hright, ?_⟩
        exact fun h _ _ => h.rising_four hca hdc (h.asymm hdb)
  · cases hba : lt b a with
    | true =>
        refine ⟨[c, b, a, d], by simp [mergePairs, hca, hdb, hba], ?_, ?_⟩
        · exact (List.Perm.cons c (.swap ..)).trans hleft
        · exact fun _ hab => absurd hab (by simp)
    | false =>
        refine ⟨[c, a, b, d], by simp [mergePairs, hca, hdb, hba], hleft, ?_⟩
        exact fun h _ _ => h.rising_four (h.asymm hca) hba hdb
  · cases hda : lt d a with
    | true =>
        refine ⟨[c, d, a, b], by simp [mergePairs, hca, hdb, hda], ?_, ?_⟩
        · exact (List.Perm.cons c (.swap ..)).trans hboth
        · exact fun h hab hcd => h.rising_four hcd (h.asymm hda) hab
    | false =>
        refine ⟨[c, a, d, b], by simp [mergePairs, hca, hdb, hda], hboth, ?_⟩
        exact fun h _ _ => h.rising_four (h.asymm hca) hda (h.asymm hdb)

theorem run_sortFour (lt : α → α → Bool) (a b c d : α) :
    ∃ sorted, (sortFour a b c d).run lt = some sorted ∧ sorted.Perm [a, b, c, d] ∧
      (IsWeakOrder lt → Rising lt sorted) := by
  obtain ⟨sorted, hrun, hperm, hrising⟩ := run_mergePairs lt
    (if lt b a then b else a) (if lt b a then a else b) (if lt d c then d else c)
    (if lt d c then c else d)
  have hpairs := (perm_swapped (lt b a) a b).append (perm_swapped (lt d c) c d)
  refine ⟨sorted, by simpa [sortFour] using hrun, hperm.trans hpairs, ?_⟩
  intro h
  have hpair : ∀ x y : α, lt (if lt y x then x else y) (if lt y x then y else x) = false := by
    intro x y
    cases hyx : lt y x with
    | true => exact h.asymm hyx
    | false => exact hyx
  exact hrising h (hpair a b) (hpair c d)

/-! ## Merging from one end -/

/-- `Merged lt left right out xs ys`: merging `left` and `right` has taken `out`, the last
item first, and left `xs` and `ys`. -/
inductive Merged (lt : α → α → Bool) (left right : List α) : List α → List α → List α → Prop
  | nil : Merged lt left right [] left right
  | fromLeft {out xs ys : List α} {x y : α} : Merged lt left right out (x :: xs) (y :: ys) →
      lt y x = false → Merged lt left right (x :: out) xs (y :: ys)
  | fromRight {out xs ys : List α} {x y : α} : Merged lt left right out (x :: xs) (y :: ys) →
      lt y x = true → Merged lt left right (y :: out) (x :: xs) ys

/-- What was taken are the first items of two lists. -/
def Parted (left right out xs ys : List α) : Prop :=
  ∃ ps qs, left = ps ++ xs ∧ right = qs ++ ys ∧ out.Perm (ps ++ qs)

variable {left right out xs ys : List α}

theorem Parted.fromLeft {x : α} (h : Parted left right out (x :: xs) ys) :
    Parted left right (x :: out) xs ys := by
  obtain ⟨ps, qs, hl, hr, hp⟩ := h
  refine ⟨ps ++ [x], qs, by simp [hl], hr, (hp.cons x).trans ?_⟩
  rw [List.append_assoc]
  exact List.perm_middle.symm

theorem Parted.fromRight {y : α} (h : Parted left right out xs (y :: ys)) :
    Parted left right (y :: out) xs ys := by
  obtain ⟨ps, qs, hl, hr, hp⟩ := h
  refine ⟨ps, qs ++ [y], hl, by simp [hr], (hp.cons y).trans ?_⟩
  rw [← List.append_assoc]
  exact (List.perm_append_singleton y _).symm

theorem Merged.parted (h : Merged lt left right out xs ys) : Parted left right out xs ys := by
  induction h with
  | nil => exact ⟨[], [], rfl, rfl, .refl _⟩
  | fromLeft _ _ ih => exact ih.fromLeft
  | fromRight _ _ ih => exact ih.fromRight

/-- In what order the items of sorted lists are taken. -/
structure Ordered (lt : α → α → Bool) (left right out xs ys : List α) : Prop where
  falling : Rising (flip lt) out
  rest : ∀ a ∈ out, ∀ b ∈ xs ++ ys, lt b a = false
  /-- An item of the right list goes before none that equals it of the left one. -/
  strict : ∀ qs, right = qs ++ ys → ∀ y ∈ qs, ∀ x ∈ xs, lt y x = true

theorem Ordered.fromLeft {x y : α} (hlt : IsWeakOrder lt)
    (h : Ordered lt left right out (x :: xs) (y :: ys)) (hx : ∀ b ∈ xs, lt b x = false)
    (hy : ∀ b ∈ ys, lt b y = false) (hyx : lt y x = false) :
    Ordered lt left right (x :: out) xs (y :: ys) where
  falling := List.pairwise_cons.mpr ⟨fun a ha => h.rest a ha x (by simp), h.falling⟩
  rest := by
    refine List.forall_mem_cons.mpr ⟨fun b hb => ?_, fun a ha b hb => h.rest a ha b ?_⟩
    · simp only [List.mem_append, List.mem_cons] at hb
      rcases hb with hb | rfl | hb
      · exact hx b hb
      · exact hyx
      · exact hlt.trans hyx (hy b hb)
    · simp only [List.mem_append, List.mem_cons] at hb ⊢
      tauto
  strict qs hq b hb a ha := h.strict qs hq b hb a (List.mem_cons_of_mem x ha)

theorem Ordered.fromRight {x y : α} (hlt : IsWeakOrder lt)
    (h : Ordered lt left right out (x :: xs) (y :: ys))
    (hp : Parted left right out (x :: xs) (y :: ys)) (hx : ∀ b ∈ xs, lt b x = false)
    (hy : ∀ b ∈ ys, lt b y = false) (hyx : lt y x = true) :
    Ordered lt left right (y :: out) (x :: xs) ys := by
  have hbelow : ∀ a ∈ x :: xs, lt y a = true :=
    List.forall_mem_cons.mpr ⟨hyx, fun a ha => hlt.lt_of_lt_of_le hyx (hx a ha)⟩
  refine ⟨List.pairwise_cons.mpr ⟨fun a ha => h.rest a ha y (by simp), h.falling⟩, ?_, ?_⟩
  · refine List.forall_mem_cons.mpr ⟨fun b hb => ?_, fun a ha b hb => h.rest a ha b ?_⟩
    · rcases List.mem_append.mp hb with hb | hb
      · exact hlt.asymm (hbelow b hb)
      · exact hy b hb
    · simp only [List.mem_append, List.mem_cons] at hb ⊢
      tauto
  · intro qs hq b hb a ha
    obtain ⟨ps, qs', -, hright, -⟩ := hp
    have hqs : qs = qs' ++ [y] := by
      have : qs ++ ys = (qs' ++ [y]) ++ ys := by simp [← hq, hright]
      exact List.append_cancel_right this
    rw [hqs] at hb
    rcases List.mem_append.mp hb with hb | hb
    · exact h.strict qs' hright b hb a ha
    · rw [List.mem_singleton.mp hb]
      exact hbelow a ha

theorem Merged.ordered (hlt : IsWeakOrder lt) (hl : Rising lt left) (hr : Rising lt right)
    (h : Merged lt left right out xs ys) : Ordered lt left right out xs ys := by
  have hrest : ∀ {out xs ys : List α} {x y : α}, Merged lt left right out (x :: xs) (y :: ys) →
      (∀ b ∈ xs, lt b x = false) ∧ ∀ b ∈ ys, lt b y = false := by
    intro out xs ys x y h
    obtain ⟨ps, qs, rfl, rfl, -⟩ := h.parted
    exact ⟨(List.pairwise_cons.mp (List.pairwise_append.mp hl).2.1).1,
      (List.pairwise_cons.mp (List.pairwise_append.mp hr).2.1).1⟩
  induction h with
  | nil =>
      refine ⟨.nil, fun _ h => absurd h List.not_mem_nil, ?_⟩
      intro qs hq
      obtain rfl : qs = [] := by simpa using hq
      exact fun _ h => absurd h List.not_mem_nil
  | fromLeft hm hyx ih => exact ih.fromLeft hlt (hrest hm).1 (hrest hm).2 hyx
  | fromRight hm hyx ih => exact ih.fromRight hlt hm.parted (hrest hm).1 (hrest hm).2 hyx

/-! ## Merging from both ends -/

/-- The front has merged `m` items, and the back `n`. -/
structure Merging (lt : α → α → Bool) (left right : List α) (m n : Nat) (e : Ends α) : Prop where
  front : Merged lt left right e.front e.left e.right
  /-- The back merges the lists in the other direction, and asks the same of
  two items as the front. -/
  back : Merged (flip lt) right.reverse left.reverse e.back e.rightBack e.leftBack
  front_length : e.front.length = m
  back_length : e.back.length = n

theorem Parted.length (h : Parted left right out xs ys) :
    out.length + xs.length + ys.length = left.length + right.length ∧
      left.length ≤ out.length + xs.length ∧ right.length ≤ out.length + ys.length := by
  obtain ⟨ps, qs, rfl, rfl, hp⟩ := h
  have := hp.length_eq
  simp only [List.length_append] at this ⊢
  omega

variable {m n : Nat} {e : Ends α}

theorem Merging.stepFront (h : Merging lt left right m n e) (hl : m < left.length)
    (hr : m < right.length) :
    ∃ e', e.stepFront.run lt = some e' ∧ Merging lt left right (m + 1) n e' := by
  obtain ⟨front, xs, ys, us, vs, back⟩ := e
  obtain ⟨hfront, hback, hm, hn⟩ := h
  have hlen := hfront.parted.length
  match xs, ys with
  | [], ys =>
      simp only [List.length_nil] at hlen hm
      omega
  | xs, [] =>
      simp only [List.length_nil] at hlen hm
      omega
  | x :: xs, y :: ys =>
      cases hyx : lt y x with
      | true =>
          refine ⟨⟨y :: front, x :: xs, ys, us, vs, back⟩, by simp [Ends.stepFront, hyx], ?_⟩
          exact ⟨hfront.fromRight hyx, hback, congrArg (· + 1) hm, hn⟩
      | false =>
          refine ⟨⟨x :: front, xs, y :: ys, us, vs, back⟩, by simp [Ends.stepFront, hyx], ?_⟩
          exact ⟨hfront.fromLeft hyx, hback, congrArg (· + 1) hm, hn⟩

theorem Merging.stepBack (h : Merging lt left right m n e) (hl : n < left.length)
    (hr : n < right.length) :
    ∃ e', e.stepBack.run lt = some e' ∧ Merging lt left right m (n + 1) e' := by
  obtain ⟨front, xs, ys, us, vs, back⟩ := e
  obtain ⟨hfront, hback, hm, hn⟩ := h
  have hlen := hback.parted.length
  simp only [List.length_reverse] at hlen
  match us, vs with
  | [], vs =>
      simp only [List.length_nil] at hlen hn
      omega
  | us, [] =>
      simp only [List.length_nil] at hlen hn
      omega
  | u :: us, v :: vs =>
      cases hvu : lt v u with
      | true =>
          refine ⟨⟨front, xs, ys, us, v :: vs, u :: back⟩, by simp [Ends.stepBack, hvu], ?_⟩
          exact ⟨hfront, hback.fromRight hvu, hm, congrArg (· + 1) hn⟩
      | false =>
          refine ⟨⟨front, xs, ys, u :: us, vs, v :: back⟩, by simp [Ends.stepBack, hvu], ?_⟩
          exact ⟨hfront, hback.fromLeft hvu, hm, congrArg (· + 1) hn⟩

theorem Merging.steps {k : Nat} (h : Merging lt left right n n e) (hl : n + k ≤ left.length)
    (hr : n + k ≤ right.length) :
    ∃ e', (Ends.steps k e).run lt = some e' ∧ Merging lt left right (n + k) (n + k) e' := by
  induction k generalizing n e with
  | zero => exact ⟨e, rfl, h⟩
  | succ k ih =>
      obtain ⟨e₁, hrun₁, h₁⟩ := h.stepFront (by omega) (by omega)
      obtain ⟨e₂, hrun₂, h₂⟩ := h₁.stepBack (by omega) (by omega)
      obtain ⟨e', hrun, h'⟩ := ih h₂ (by omega) (by omega)
      rw [Nat.add_right_comm, Nat.add_assoc] at h'
      exact ⟨e', by simp [Ends.steps, hrun₁, hrun₂, hrun], h'⟩

/-- What two ends have taken of two lists, from the one side and from the other. -/
theorem Parted.both {back us vs : List α} (h : Parted left right out xs ys)
    (h' : Parted right.reverse left.reverse back vs us) :
    ∃ ps qs ps' qs', (left = ps ++ xs ∧ right = qs ++ ys ∧ out.Perm (ps ++ qs)) ∧
      left = us.reverse ++ ps' ∧ right = vs.reverse ++ qs' ∧ back.Perm (ps' ++ qs') := by
  obtain ⟨ps, qs, hfront⟩ := h
  obtain ⟨qs', ps', hright, hleft, hback⟩ := h'
  refine ⟨ps, qs, ps'.reverse, qs'.reverse, hfront, ?_, ?_, ?_⟩
  · rw [← List.reverse_append, ← hleft, List.reverse_reverse]
  · rw [← List.reverse_append, ← hright, List.reverse_reverse]
  · exact (hback.trans List.perm_append_comm).trans
      ((List.reverse_perm ps').symm.append (List.reverse_perm qs').symm)

theorem mem_between {before behind before' behind' : List α}
    (h : before ++ behind = before' ++ behind') (hlen : before'.length < before.length) :
    ∃ x ∈ before, x ∈ behind' := by
  rcases List.append_eq_append_iff.mp h with ⟨cs, rfl, -⟩ | ⟨cs, rfl, rfl⟩
  · simp only [List.length_append] at hlen
    omega
  · match cs with
    | [] => simp at hlen
    | x :: cs => exact ⟨x, by simp, by simp⟩

/-- Neither end has taken more of a list than the other has left of it, once
both have merged as many items as the left list has. -/
theorem Merging.meets (hlt : IsWeakOrder lt) (hl : Rising lt left) (hr : Rising lt right)
    (hlen : left.length ≤ right.length) (h : Merging lt left right left.length left.length e) :
    left.length ≤ e.left.length + e.leftBack.length ∧
      right.length ≤ e.right.length + e.rightBack.length := by
  obtain ⟨ps, qs, ps', qs', ⟨hps, hqs, hfront⟩, hps', hqs', hback⟩ :=
    h.front.parted.both h.back.parted
  have hup := h.front.ordered hlt hl hr
  have hdown := h.back.ordered hlt.flip (rising_reverse.mp (by simpa using hr))
    (rising_reverse.mp (by simpa using hl))
  have hm := hfront.length_eq
  have hn := hback.length_eq
  rw [h.front_length, List.length_append] at hm
  rw [h.back_length, List.length_append] at hn
  have hpl := congrArg List.length hps
  have hql := congrArg List.length hqs
  have hpl' := congrArg List.length hps'
  have hql' := congrArg List.length hqs'
  simp only [List.length_append, List.length_reverse] at hpl hql hpl' hql'
  constructor
  · by_contra hno
    -- Both have taken `x`, and none has taken `y`.
    obtain ⟨x, hx, hx'⟩ := mem_between (hps.symm.trans hps') (by rw [List.length_reverse]; omega)
    obtain ⟨y, hy, hy'⟩ := mem_between (hqs'.symm.trans hqs) (by rw [List.length_reverse]; omega)
    have hnot := hup.rest x (hfront.symm.subset (List.mem_append_left _ hx)) y
      (List.mem_append_right _ hy')
    have hless := hdown.strict ps'.reverse (by rw [hps', List.reverse_append, List.reverse_reverse])
      x (List.mem_reverse.mpr hx') y (List.mem_reverse.mp hy)
    exact absurd (hless.symm.trans hnot) (by simp)
  · by_contra hno
    obtain ⟨y, hy, hy'⟩ := mem_between (hqs.symm.trans hqs') (by rw [List.length_reverse]; omega)
    obtain ⟨x, hx, hx'⟩ := mem_between (hps'.symm.trans hps) (by rw [List.length_reverse]; omega)
    have hless := hup.strict qs hqs y hy x hx'
    have hnot := hdown.rest y (hback.symm.subset (List.mem_append_right _ hy')) x
      (List.mem_append_right _ (List.mem_reverse.mp hx))
    exact absurd (hless.symm.trans hnot) (by simp)

/-! ## What is merged -/

/-- Where the two ends have met, each item was taken once. -/
theorem Parted.perm_of_meet {back us vs : List α} (h : Parted left right out xs ys)
    (h' : Parted right.reverse left.reverse back vs us) (hx : xs.length + us.length = left.length)
    (hy : ys.length + vs.length = right.length) :
    (out.reverse ++ back).Perm (left ++ right) ∧ ∀ a ∈ back, a ∈ xs ++ ys := by
  obtain ⟨ps, qs, ps', qs', ⟨hps, hqs, hout⟩, hps', hqs', hback⟩ := h.both h'
  have hpl := congrArg List.length hps
  have hql := congrArg List.length hqs
  simp only [List.length_append] at hpl hql
  obtain ⟨-, rfl⟩ := List.append_inj (hps.symm.trans hps') (by rw [List.length_reverse]; omega)
  obtain ⟨-, rfl⟩ := List.append_inj (hqs.symm.trans hqs') (by rw [List.length_reverse]; omega)
  refine ⟨?_, fun a ha => hback.subset ha⟩
  rw [hps, hqs]
  refine (((List.reverse_perm out).trans hout).append hback).trans ?_
  rw [List.append_assoc, List.append_assoc]
  exact (List.perm_append_comm_assoc qs xs ys).append_left ps

theorem Parted.middle {back : List α} (h : Parted left right e.front e.left e.right)
    (h' : Parted right.reverse left.reverse back e.rightBack e.leftBack)
    (hmeet : (e.middle left right).meet left right = true) :
    ((e.middle left right).front.reverse ++ back).Perm (left ++ right) := by
  have hleft : ∀ {out xs ys : List α}, Parted left right out xs ys →
      Parted left right (xs.take 1 ++ out) (xs.drop 1) ys
    | _, [], _, h => h
    | _, _ :: _, _, h => h.fromLeft
  have hright : ∀ {out xs ys : List α}, Parted left right out xs ys →
      Parted left right (ys.take 1 ++ out) xs (ys.drop 1)
    | _, _, [], h => h
    | _, _, _ :: _, h => h.fromRight
  revert hmeet
  rw [Ends.middle]
  simp only [Ends.meet]
  split
  · simp only [Bool.and_eq_true, beq_iff_eq]
    exact fun hm => (h.perm_of_meet h' hm.1 hm.2).1
  · split
    · simp only [Bool.and_eq_true, beq_iff_eq]
      exact fun hm => ((hleft h).perm_of_meet h' hm.1 hm.2).1
    · simp only [Bool.and_eq_true, beq_iff_eq]
      exact fun hm => ((hright h).perm_of_meet h' hm.1 hm.2).1

theorem head_mem {before rest before' rest' : List α} {x : α}
    (h : before ++ x :: rest = before' ++ rest') (hlen : before.length < before'.length) :
    x ∈ before' := by
  rcases List.append_eq_append_iff.mp h with ⟨cs, rfl, hcs⟩ | ⟨cs, rfl, -⟩
  · match cs with
    | [] => simp at hlen
    | c :: cs =>
        obtain ⟨rfl, -⟩ := List.cons.inj hcs
        simp
  · simp only [List.length_append] at hlen
    omega

/-- The front, what is between and the back are in order. -/
theorem Ordered.rising (mid : List α) {us vs back left' right' : List α}
    (hup : Ordered lt left right out xs ys)
    (hdown : Ordered (flip lt) left' right' back vs us) (hm : mid.length ≤ 1)
    (hmid : ∀ z ∈ mid, z ∈ xs ++ ys ∧ z ∈ vs ++ us) (hrest : ∀ b ∈ back, b ∈ xs ++ ys) :
    Rising lt ((mid ++ out).reverse ++ back) := by
  have hback : Rising lt back := hdown.falling
  have hfront : Rising lt (mid ++ out).reverse := by
    rw [rising_reverse]
    match mid with
    | [] => exact hup.falling
    | [z] =>
        refine List.pairwise_cons.mpr ⟨fun a ha => ?_, hup.falling⟩
        exact hup.rest a ha z (hmid z (by simp)).1
  refine List.pairwise_append.mpr ⟨hfront, hback, ?_⟩
  intro a ha b hb
  rcases List.mem_append.mp (List.mem_reverse.mp ha) with ha | ha
  · exact hdown.rest b hb a (hmid a ha).2
  · exact hup.rest a ha b (hrest b hb)

section Between

variable {us vs back : List α} {x y : α}

/-- One more item of the left list, which the back has not taken, comes between. -/
theorem Ordered.rising_left (hfront : Parted left right out (x :: xs) ys)
    (hback : Parted right.reverse left.reverse back vs us)
    (hup : Ordered lt left right out (x :: xs) ys)
    (hdown : Ordered (flip lt) right.reverse left.reverse back vs us)
    (hx : xs.length + us.length = left.length) (hy : ys.length + vs.length = right.length) :
    Rising lt ((x :: out).reverse ++ back) := by
  obtain ⟨ps, qs, ps', qs', ⟨hps, -, -⟩, hps', -, -⟩ := hfront.both hback
  have hpl := congrArg List.length hps
  simp only [List.length_append, List.length_cons] at hpl
  have hxu : x ∈ us := List.mem_reverse.mp
    (head_mem (hps.symm.trans hps') (by rw [List.length_reverse]; omega))
  refine hup.rising [x] hdown (Nat.le_refl 1) (by simp [hxu]) ?_
  intro b hb
  have := (hfront.fromLeft.perm_of_meet hback hx hy).2 b hb
  exact List.mem_cons_of_mem x this

/-- One more item of the right list, which the back has not taken, comes between. -/
theorem Ordered.rising_right (hfront : Parted left right out xs (y :: ys))
    (hback : Parted right.reverse left.reverse back vs us)
    (hup : Ordered lt left right out xs (y :: ys))
    (hdown : Ordered (flip lt) right.reverse left.reverse back vs us)
    (hx : xs.length + us.length = left.length) (hy : ys.length + vs.length = right.length) :
    Rising lt ((y :: out).reverse ++ back) := by
  obtain ⟨ps, qs, ps', qs', ⟨-, hqs, -⟩, -, hqs', -⟩ := hfront.both hback
  have hql := congrArg List.length hqs
  simp only [List.length_append, List.length_cons] at hql
  have hyv : y ∈ vs := List.mem_reverse.mp
    (head_mem (hqs.symm.trans hqs') (by rw [List.length_reverse]; omega))
  refine hup.rising [y] hdown (Nat.le_refl 1) (by simp [hyv]) ?_
  intro b hb
  have := (hfront.fromRight.perm_of_meet hback hx hy).2 b hb
  exact List.perm_middle.symm.subset (List.mem_cons_of_mem y this)

end Between

theorem Merging.middle (hlt : IsWeakOrder lt) (hl : Rising lt left) (hr : Rising lt right)
    (hlen : right.length = left.length ∨ right.length = left.length + 1)
    (h : Merging lt left right left.length left.length e) :
    (e.middle left right).meet left right = true ∧
      Rising lt ((e.middle left right).front.reverse ++ e.back) := by
  obtain ⟨hx, hy⟩ := h.meets hlt hl hr (by omega)
  have hup := h.front.ordered hlt hl hr
  have hdown := h.back.ordered hlt.flip (rising_reverse.mp (by simpa using hr))
    (rising_reverse.mp (by simpa using hl))
  have hfront := h.front.parted
  have hback := h.back.parted
  have hm := hfront.length
  have hn := hback.length
  rw [h.front_length] at hm
  rw [h.back_length] at hn
  obtain ⟨front, xs, ys, us, vs, back⟩ := e
  simp only [List.length_reverse] at hx hy hm hn
  rw [Ends.middle]
  split
  · have hmx : xs.length + us.length = left.length := by omega
    have hmy : ys.length + vs.length = right.length := by omega
    refine ⟨by simp [Ends.meet, hmx, hmy], ?_⟩
    exact hup.rising [] hdown (by simp) (by simp) (hfront.perm_of_meet hback hmx hmy).2
  · split
    · match xs with
      | [] =>
          simp only [List.length_nil] at *
          omega
      | x :: xs =>
          simp only [List.length_cons] at *
          have hmx : xs.length + us.length = left.length := by omega
          have hmy : ys.length + vs.length = right.length := by omega
          exact ⟨by simp [Ends.meet, hmx, hmy], hup.rising_left hfront hback hdown hmx hmy⟩
    · match ys with
      | [] =>
          simp only [List.length_nil] at *
          omega
      | y :: ys =>
          simp only [List.length_cons] at *
          have hmx : xs.length + us.length = left.length := by omega
          have hmy : ys.length + vs.length = right.length := by omega
          exact ⟨by simp [Ends.meet, hmx, hmy], hup.rising_right hfront hback hdown hmx hmy⟩

/-- Two lists are merged, unless the answers contradict each other. -/
theorem run_mergeEnds (lt : α → α → Bool)
    (hlen : right.length = left.length ∨ right.length = left.length + 1) :
    (∀ sorted, (mergeEnds left right).run lt = some sorted → sorted.Perm (left ++ right)) ∧
      (IsWeakOrder lt → Rising lt left → Rising lt right →
        ∃ sorted, (mergeEnds left right).run lt = some sorted ∧ Rising lt sorted) := by
  have hbegin : Merging lt left right 0 0
      { left, right, leftBack := left.reverse, rightBack := right.reverse } := ⟨.nil, .nil, rfl, rfl⟩
  have hstop : 0 + left.length ≤ left.length ∧ 0 + left.length ≤ right.length := by omega
  obtain ⟨e, hrun, h⟩ := hbegin.steps hstop.1 hstop.2
  rw [Nat.zero_add] at h
  have hback : (e.middle left right).back = e.back := by
    rw [Ends.middle]
    split
    · rfl
    · split <;> rfl
  have hmerge : (mergeEnds left right).run lt =
      if (e.middle left right).meet left right = true then
        some ((e.middle left right).front.reverse ++ e.back) else none := by
    simp only [mergeEnds, run_bind, hrun, Option.bind_some, hback]
    split <;> rfl
  rw [hmerge]
  constructor
  · intro sorted hs
    split at hs
    · next hmeet =>
      obtain rfl := Option.some.inj hs
      exact h.front.parted.middle h.back.parted hmeet
    · exact absurd hs (by simp)
  · intro hlt hl hr
    obtain ⟨hmeet, hrising⟩ := h.middle hlt hl hr hlen
    exact ⟨_, if_pos hmeet, hrising⟩

/-! ## Sorting by halves -/

theorem run_sortFirst (lt : α → α → Bool) (four : Bool) (items : List α) :
    ∃ sorted rest, (sortFirst four items).run lt = some (sorted, rest) ∧
      (sorted ++ rest).Perm items ∧ (IsWeakOrder lt → Rising (flip lt) sorted) := by
  have hone : ∀ (a : α) (rest : List α), ([a] ++ rest).Perm (a :: rest) ∧
      (IsWeakOrder lt → Rising (flip lt) [a]) :=
    fun a rest => ⟨.refl _, fun _ => List.pairwise_singleton ..⟩
  match four, items with
  | _, [] => exact ⟨[], [], rfl, .refl _, fun _ => .nil⟩
  | true, a :: b :: c :: d :: rest =>
      obtain ⟨sorted, hrun, hperm, hrising⟩ := run_sortFour lt a b c d
      refine ⟨sorted.reverse, rest, by simp [sortFirst, hrun], ?_, ?_⟩
      · exact ((List.reverse_perm sorted).trans hperm).append_right rest
      · exact fun hlt => rising_reverse.mp (by simpa using hrising hlt)
  | false, a :: rest => exact ⟨[a], rest, rfl, hone a rest⟩
  | true, [a] => exact ⟨[a], _, rfl, hone a _⟩
  | true, [a, b] => exact ⟨[a], _, rfl, hone a _⟩
  | true, [a, b, c] => exact ⟨[a], _, rfl, hone a _⟩

theorem sorts_smallSort (items : List α) : Sorts lt items (smallSort items) := by
  rw [smallSort]
  split
  · next hshort =>
    refine .of_run rfl (.refl _) fun _ => ?_
    match items with
    | [] => exact .nil
    | [a] => exact List.pairwise_singleton ..
    | a :: b :: rest =>
        simp only [List.length_cons] at hshort
        omega
  · have hhalf : ∀ part : List α, ∃ sorted rest grown,
        (sortFirst (8 ≤ items.length) part).run lt = some (sorted, rest) ∧
          (insertAll sorted rest).run lt = some grown ∧ grown.Perm part ∧
            (IsWeakOrder lt → Rising (flip lt) grown) := by
      intro part
      obtain ⟨sorted, rest, hfirst, hperm, hrising⟩ :=
        run_sortFirst lt (8 ≤ items.length) part
      obtain ⟨grown, hall, hperm', hrising'⟩ := run_insertAll lt sorted rest
      exact ⟨sorted, rest, grown, hfirst, hall, hperm'.trans hperm,
        fun hlt => hrising' hlt (hrising hlt)⟩
    obtain ⟨_, _, left, hl, hl', hleft, hrl⟩ := hhalf (items.take (items.length / 2))
    obtain ⟨_, _, right, hr, hr', hright, hrr⟩ := hhalf (items.drop (items.length / 2))
    have hlen : right.reverse.length = left.reverse.length ∨
        right.reverse.length = left.reverse.length + 1 := by
      have hl := hleft.length_eq
      have hr := hright.length_eq
      simp only [List.length_take, List.length_drop, List.length_reverse] at hl hr ⊢
      omega
    obtain ⟨hperm, hrising⟩ := run_mergeEnds lt hlen
    have hitems : (left.reverse ++ right.reverse).Perm items := by
      refine (((List.reverse_perm left).trans hleft).append
        ((List.reverse_perm right).trans hright)).trans ?_
      rw [List.take_append_drop]
    have hmerge : Sorts lt items (mergeEnds left.reverse right.reverse) :=
      { perm := fun hs => (hperm _ hs).trans hitems
        rising := fun hlt =>
          hrising hlt (rising_reverse.mpr (hrl hlt)) (rising_reverse.mpr (hrr hlt)) }
    exact hmerge.congr (by simp [hl, hl', hr, hr'])

end Comparing

end ExternalSort
