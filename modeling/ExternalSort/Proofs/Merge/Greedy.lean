/-
The greedy merge of lists.

Again and again the first items of the lists are looked at in the order of
the lists.  The first of them leads, a later one takes the lead only if it
is less, and who leads in the end is taken.  A comparison that fails ends
the merge.  Lists that are empty play no part (`greedy_filter`).  If no
comparison fails, the merge has all items of the lists (`greedy_perm`); if
the comparison is a total preorder and the lists are sorted, so is their
merge (`greedy_spec`).
-/
import ExternalSort.Proofs.Order.Preorder
import ExternalSort.Total

namespace ExternalSort

/-- What merging gave: some items, and the comparison that ended it, if one
failed. -/
@[ext]
structure Merged (α : Type) where
  items : List α
  error : Option OrderError
deriving DecidableEq, Repr

variable {α κ : Type}

/-- The first items of some lists, each with the place of its list.  The
places are counted from `i`. -/
def headsFrom (i : Nat) : List (List α) → List (Nat × α)
  | [] => []
  | [] :: ls => headsFrom (i + 1) ls
  | (a :: _) :: ls => (i, a) :: headsFrom (i + 1) ls

/-- Who leads after some challengers, given the leader before.  Only who is
less takes the lead. -/
def leader (cmp : α → α → Except OrderError Ordering) (best : κ × α) :
    List (κ × α) → Except OrderError (κ × α)
  | [] => .ok best
  | h :: hs =>
    match cmp h.2 best.2 with
    | .error e => .error e
    | .ok .lt => leader cmp h hs
    | .ok _ => leader cmp best hs

/-- Who leads in the end, if there is anybody. -/
def select (cmp : α → α → Except OrderError Ordering) :
    List (κ × α) → Except OrderError (Option (κ × α))
  | [] => .ok none
  | h :: hs => (leader cmp h hs).map some

/-! ## Places -/

section Places

variable {ls ms : List (List α)} {i : Nat} {a : α}

theorem headsFrom_append (i : Nat) (ls ms : List (List α)) :
    headsFrom i (ls ++ ms) = headsFrom i ls ++ headsFrom (i + ls.length) ms := by
  fun_induction headsFrom i ls with
  | case1 => rfl
  | case2 i ls ih => simpa [headsFrom, Nat.add_assoc, Nat.add_comm 1] using ih
  | case3 i a as ls ih => simpa [headsFrom, Nat.add_assoc, Nat.add_comm 1] using ih

theorem headsFrom_succ (i : Nat) (ls : List (List α)) :
    headsFrom (i + 1) ls = (headsFrom i ls).map fun h => (h.1 + 1, h.2) := by
  fun_induction headsFrom i ls with
  | case1 => rfl
  | case2 i ls ih => exact ih
  | case3 i a as ls ih => exact congrArg ((i + 1, a) :: ·) ih

theorem eq_append_of_mem_headsFrom {k : Nat} (h : (k, a) ∈ headsFrom i ls) :
    ∃ before as after, ls = before ++ (a :: as) :: after ∧ i + before.length = k := by
  fun_induction headsFrom i ls with
  | case1 => exact absurd h List.not_mem_nil
  | case2 i ls ih =>
      obtain ⟨before, as, after, rfl, hk⟩ := ih h
      exact ⟨[] :: before, as, after, rfl, by simp only [List.length_cons]; omega⟩
  | case3 i b bs ls ih =>
      rcases List.mem_cons.mp h with h | h
      · obtain ⟨rfl, rfl⟩ := Prod.mk.inj h
        exact ⟨[], bs, ls, rfl, rfl⟩
      · obtain ⟨before, as, after, rfl, hk⟩ := ih h
        exact ⟨(b :: bs) :: before, as, after, rfl, by simp only [List.length_cons]; omega⟩

theorem modify_append_left {before : List (List α)} (h : i < before.length)
    (after : List (List α)) (f : List α → List α) :
    (before ++ after).modify i f = before.modify i f ++ after := by
  induction before generalizing i with
  | nil => exact absurd h (Nat.not_lt_zero i)
  | cons b before ih =>
      cases i with
      | zero => rfl
      | succ i => exact congrArg (b :: ·) (ih (Nat.lt_of_succ_lt_succ h))

theorem modify_append_right (before after : List (List α)) (i : Nat) (f : List α → List α) :
    (before ++ after).modify (before.length + i) f = before ++ after.modify i f := by
  induction before with
  | nil => simp
  | cons b before ih => simpa [Nat.add_right_comm] using ih

theorem modify_append_cons (before : List (List α)) (l : List α) (after : List (List α))
    (f : List α → List α) :
    (before ++ l :: after).modify before.length f = before ++ f l :: after :=
  modify_append_right before (l :: after) 0 f

end Places

/-! ## Selection -/

section Selection

variable {cmp : α → α → Except OrderError Ordering}

theorem mem_of_leader {best h : κ × α} {hs : List (κ × α)} (hl : leader cmp best hs = .ok h) :
    h ∈ best :: hs := by
  fun_induction leader cmp best hs with
  | case1 best =>
      cases hl
      exact List.mem_cons_self
  | case2 best c hs e hc => exact absurd hl (by simp)
  | case3 best c hs hc ih => exact List.mem_cons_of_mem _ (ih hl)
  | case4 best c hs o hne hc ih =>
      rcases List.mem_cons.mp (ih hl) with rfl | h
      · exact List.mem_cons_self
      · exact List.mem_cons_of_mem _ (List.mem_cons_of_mem _ h)

theorem mem_of_select {h : κ × α} {hs : List (κ × α)} (hl : select cmp hs = .ok (some h)) :
    h ∈ hs := by
  cases hs with
  | nil => exact absurd hl (by simp [select])
  | cons c hs =>
      simp only [select] at hl
      cases hr : leader cmp c hs with
      | error e => exact absurd hl (by simp [hr, Except.map])
      | ok h' =>
          simp only [hr, Except.map, Except.ok.injEq, Option.some.injEq] at hl
          exact hl ▸ mem_of_leader hr

/-- Selection looks at the items only, and not at where they stand. -/
theorem leader_map {ι : Type} (f : κ → ι) (best : κ × α) (hs : List (κ × α)) :
    leader cmp (f best.1, best.2) (hs.map fun h => (f h.1, h.2)) =
      (leader cmp best hs).map fun h => (f h.1, h.2) := by
  fun_induction leader cmp best hs with
  | case1 best => rfl
  | case2 best c hs e hc => simp [leader, hc, Except.map]
  | case3 best c hs hc ih => simpa [leader, hc] using ih
  | case4 best c hs o hne hc ih =>
      cases o with
      | lt => exact absurd rfl hne
      | eq => simpa only [List.map_cons, leader, hc] using ih
      | gt => simpa only [List.map_cons, leader, hc] using ih

theorem select_map {ι : Type} (f : κ → ι) (hs : List (κ × α)) :
    select cmp (hs.map fun h => (f h.1, h.2)) =
      (select cmp hs).map (Option.map fun h => (f h.1, h.2)) := by
  cases hs with
  | nil => rfl
  | cons c hs =>
      simp only [select, List.map_cons]
      rw [leader_map]
      cases leader cmp c hs <;> rfl

end Selection

/-! ## The merge -/

theorem total_length_modify_tail {ls : List (List α)} {i : Nat} {a : α}
    (h : (i, a) ∈ headsFrom 0 ls) :
    total List.length (ls.modify i List.tail) + 1 = total List.length ls := by
  obtain ⟨before, as, after, rfl, rfl⟩ := eq_append_of_mem_headsFrom h
  rw [Nat.zero_add, modify_append_cons]
  simp only [total, List.map_append, List.map_cons, List.sum_append, List.sum_cons, List.tail_cons,
    List.length_cons]
  omega

/-- The greedy merge of some lists. -/
def greedy (cmp : α → α → Except OrderError Ordering) (ls : List (List α)) : Merged α :=
  match _h : select cmp (headsFrom 0 ls) with
  | .error e => ⟨[], some e⟩
  | .ok none => ⟨[], none⟩
  | .ok (some (i, a)) =>
    let rest := greedy cmp (ls.modify i List.tail)
    { rest with items := a :: rest.items }
termination_by total List.length ls
decreasing_by
  have := total_length_modify_tail (mem_of_select _h)
  omega

namespace Merged

/-- The merge that takes some items first. -/
def after (as : List α) (m : Merged α) : Merged α := { m with items := as ++ m.items }

@[simp] theorem items_after (as : List α) (m : Merged α) : (m.after as).items = as ++ m.items :=
  rfl

@[simp] theorem error_after (as : List α) (m : Merged α) : (m.after as).error = m.error := rfl

@[simp] theorem after_nil (m : Merged α) : m.after [] = m := rfl

theorem after_append (as bs : List α) (m : Merged α) :
    m.after (as ++ bs) = (m.after bs).after as := by
  ext1
  · simp
  · rfl

end Merged

section Greedy

variable {cmp : α → α → Except OrderError Ordering} {ls : List (List α)}

theorem greedy_of_error {e : OrderError} (h : select cmp (headsFrom 0 ls) = .error e) :
    greedy cmp ls = ⟨[], some e⟩ := by
  rw [greedy]
  split <;> simp_all

theorem greedy_of_none (h : select cmp (headsFrom 0 ls) = .ok none) :
    greedy cmp ls = ⟨[], none⟩ := by
  rw [greedy]
  split <;> simp_all

theorem greedy_of_some {i : Nat} {a : α} (h : select cmp (headsFrom 0 ls) = .ok (some (i, a))) :
    greedy cmp ls = (greedy cmp (ls.modify i List.tail)).after [a] := by
  rw [greedy]
  split
  · next h' => exact absurd (h ▸ h') (by simp)
  · next h' => exact absurd (h ▸ h') (by simp)
  · next h' =>
    obtain ⟨rfl, rfl⟩ := Prod.mk.inj (Option.some.inj (Except.ok.inj (h ▸ h')))
    rfl

theorem greedy_of_nil (h : ∀ l ∈ ls, l = []) : greedy cmp ls = ⟨[], none⟩ := by
  refine greedy_of_none ?_
  suffices hh : headsFrom 0 ls = [] by
    rw [hh]
    rfl
  rw [List.eq_nil_iff_forall_not_mem]
  rintro ⟨i, a⟩ hm
  obtain ⟨before, as, after, rfl, -⟩ := eq_append_of_mem_headsFrom hm
  have := h (a :: as) (by simp)
  exact absurd this (by simp)

/-- The place of a list among others, one of which is left out. -/
private def skip (n i : Nat) : Nat := if i < n then i else i + 1

private theorem headsFrom_skip (before after : List (List α)) :
    headsFrom 0 (before ++ [] :: after) =
      (headsFrom 0 (before ++ after)).map fun h => (skip before.length h.1, h.2) := by
  have hb : (headsFrom 0 before).map (fun h => (skip before.length h.1, h.2)) =
      headsFrom 0 before := by
    refine (List.map_congr_left ?_).trans (List.map_id _)
    rintro ⟨i, a⟩ hm
    obtain ⟨b, as, c, rfl, rfl⟩ := eq_append_of_mem_headsFrom hm
    simp [skip]
  have ha : (headsFrom before.length after).map (fun h => (skip before.length h.1, h.2)) =
      headsFrom (before.length + 1) after := by
    rw [headsFrom_succ]
    refine List.map_congr_left ?_
    rintro ⟨i, a⟩ hm
    obtain ⟨b, as, c, rfl, rfl⟩ := eq_append_of_mem_headsFrom hm
    simp [skip]
  rw [headsFrom_append, headsFrom_append, List.map_append, hb, Nat.zero_add, headsFrom, ha]

/-- An empty list plays no part. -/
theorem greedy_append_nil (before after : List (List α)) :
    greedy cmp (before ++ [] :: after) = greedy cmp (before ++ after) := by
  have hs : select cmp (headsFrom 0 (before ++ [] :: after)) =
      (select cmp (headsFrom 0 (before ++ after))).map
        (Option.map fun h => (skip before.length h.1, h.2)) := by
    rw [headsFrom_skip, select_map]
  cases h : select cmp (headsFrom 0 (before ++ after)) with
  | error e =>
      rw [greedy_of_error h, greedy_of_error (e := e) (by rw [hs, h]; rfl)]
  | ok place =>
      cases place with
      | none => rw [greedy_of_none h, greedy_of_none (by rw [hs, h]; rfl)]
      | some p =>
          obtain ⟨i, a⟩ := p
          rw [greedy_of_some h, greedy_of_some (i := skip before.length i) (a := a)
            (by rw [hs, h]; rfl)]
          have hlt := total_length_modify_tail (mem_of_select h)
          -- who was taken stands before the empty list or behind it
          by_cases hi : i < before.length
          · have hm := modify_append_left hi after List.tail
            rw [skip, if_pos hi, modify_append_left hi, hm, greedy_append_nil]
          · obtain ⟨k, rfl⟩ := Nat.exists_eq_add_of_le (Nat.le_of_not_lt hi)
            have hm := modify_append_right before after k List.tail
            rw [skip, if_neg hi, Nat.add_assoc, modify_append_right, List.modify_succ_cons, hm,
              greedy_append_nil]
termination_by total List.length (before ++ after)
decreasing_by
  all_goals
    rw [hm] at hlt
    omega

/-- Lists that are empty may be left out. -/
theorem greedy_filter {β : Type} (f : β → List α) (p : β → Bool) {bs : List β}
    (hp : ∀ b ∈ bs, p b = false → f b = []) :
    greedy cmp ((bs.filter p).map f) = greedy cmp (bs.map f) := by
  suffices h : ∀ before, greedy cmp (before ++ (bs.filter p).map f) =
      greedy cmp (before ++ bs.map f) from
    h []
  induction bs with
  | nil => intro before; rfl
  | cons b bs ih =>
      obtain ⟨hb, hp⟩ := List.forall_mem_cons.mp hp
      intro before
      cases h : p b with
      | true =>
          rw [List.filter_cons_of_pos h]
          simpa using ih hp (before ++ [f b])
      | false =>
          rw [List.filter_cons_of_neg (by simp [h]), ih hp, List.map_cons, hb h,
            greedy_append_nil]

end Greedy

/-! ## Merging lists of items that compare -/

section Comparable

variable {cmp : α → α → Except OrderError Ordering} {ls : List (List α)}

theorem eq_nil_of_headsFrom_nil {ls : List (List α)} {i : Nat} (h : headsFrom i ls = []) :
    ∀ l ∈ ls, l = [] := by
  fun_induction headsFrom i ls with
  | case1 => exact fun _ hl => absurd hl List.not_mem_nil
  | case2 i ls ih => exact List.forall_mem_cons.mpr ⟨rfl, ih h⟩
  | case3 i a as ls ih => exact absurd h (by simp)

theorem eq_nil_of_greedy_nil {ls : List (List α)} (h : greedy cmp ls = ⟨[], none⟩) : ∀ l ∈ ls, l = [] := by
  cases hs : select cmp (headsFrom 0 ls) with
  | error e => exact absurd ((greedy_of_error hs).symm.trans h) (by simp)
  | ok head =>
      cases head with
      | some head => exact absurd ((greedy_of_some hs).symm.trans h) (by simp [Merged.after])
      | none =>
          refine eq_nil_of_headsFrom_nil (i := 0) ?_
          cases hh : headsFrom 0 ls with
          | nil => rfl
          | cons c hs' =>
              rw [hh, select] at hs
              cases hl : leader cmp c hs' with
              | error e => exact absurd (hl ▸ hs) (by simp [Except.map])
              | ok head => exact absurd (hl ▸ hs) (by simp [Except.map])

theorem cons_flatten_perm (before : List (List α)) (a : α) (as : List α)
    (after : List (List α)) :
    (a :: (before ++ as :: after).flatten).Perm (before ++ (a :: as) :: after).flatten := by
  simp only [List.flatten_append, List.flatten_cons, List.cons_append]
  exact List.perm_middle.symm

theorem exists_sublist_of_mem (before : List (List α)) (a : α) (as : List α)
    (after : List (List α)) :
    ∀ l ∈ before ++ as :: after, ∃ m ∈ before ++ (a :: as) :: after, l.Sublist m := by
  intro l hl
  rcases List.mem_append.mp hl with hl | hl
  · exact ⟨l, List.mem_append_left _ hl, .refl l⟩
  rcases List.mem_cons.mp hl with rfl | hl
  · exact ⟨a :: l, by simp, List.sublist_cons_self a l⟩
  · exact ⟨l, List.mem_append_right _ (List.mem_cons_of_mem _ hl), .refl l⟩

theorem modify_tail_of_mem_headsFrom {i : Nat} {a : α} (h : (i, a) ∈ headsFrom 0 ls) :
    ∃ before as after, ls = before ++ (a :: as) :: after ∧
      ls.modify i List.tail = before ++ as :: after := by
  obtain ⟨before, as, after, rfl, hi⟩ := eq_append_of_mem_headsFrom h
  refine ⟨before, as, after, rfl, ?_⟩
  rw [← hi, Nat.zero_add, modify_append_cons, List.tail_cons]

/-- A merge that does not fail has all items of the lists, whatever the comparison. -/
theorem greedy_perm_of_done (h : (greedy cmp ls).error = none) :
    (greedy cmp ls).items.Perm ls.flatten := by
  fun_induction greedy cmp ls with
  | case1 ls e hsel => exact absurd h (by simp)
  | case2 ls hsel =>
      have hnil : headsFrom 0 ls = [] := by
        cases hh : headsFrom 0 ls with
        | nil => rfl
        | cons c hs =>
            rw [hh, select] at hsel
            cases hl : leader cmp c hs <;> simp [hl, Except.map] at hsel
      rw [List.flatten_eq_nil_iff.mpr (eq_nil_of_headsFrom_nil hnil)]
  | case3 ls i a hsel rest ih =>
      obtain ⟨before, as, after, hls, htail⟩ := modify_tail_of_mem_headsFrom (mem_of_select hsel)
      have hflat : (a :: (ls.modify i List.tail).flatten).Perm ls.flatten := by
        rw [htail, hls]
        exact cons_flatten_perm before a as after
      exact ((ih h).cons a).trans hflat

theorem leader_ok {best : κ × α} {hs : List (κ × α)}
    (h : ∀ c ∈ best :: hs, ∀ d ∈ best :: hs, ∃ o, cmp c.2 d.2 = .ok o) :
    ∃ c, leader cmp best hs = .ok c := by
  fun_induction leader cmp best hs with
  | case1 best => exact ⟨best, rfl⟩
  | case2 best c hs e hc =>
      obtain ⟨o, ho⟩ := h c (by simp) best (by simp)
      exact absurd (hc.symm.trans ho) (by simp)
  | case3 best c hs hc ih =>
      exact ih fun x hx y hy => h x (List.mem_cons_of_mem _ hx) y (List.mem_cons_of_mem _ hy)
  | case4 best c hs o hne hc ih =>
      have hsub : ∀ x ∈ best :: hs, x ∈ best :: c :: hs :=
        ((List.sublist_cons_self c hs).cons_cons best).subset
      exact ih fun x hx y hy => h x (hsub x hx) y (hsub y hy)

/-- The merge of lists whose items compare fails nowhere and has all their items,
whatever the comparison. -/
theorem greedy_perm (h : ∀ a ∈ ls.flatten, ∀ b ∈ ls.flatten, ∃ o, cmp a b = .ok o) :
    (greedy cmp ls).error = none ∧ (greedy cmp ls).items.Perm ls.flatten := by
  induction hn : total List.length ls using Nat.strongRecOn generalizing ls with
  | ind n ih =>
      have hheads : ∀ c ∈ headsFrom 0 ls, c.2 ∈ ls.flatten := by
        rintro ⟨i, a⟩ hm
        obtain ⟨before, as, after, rfl, -⟩ := eq_append_of_mem_headsFrom hm
        simp
      cases hh : headsFrom 0 ls with
      | nil =>
          have hnil := eq_nil_of_headsFrom_nil hh
          rw [greedy_of_nil hnil, List.flatten_eq_nil_iff.mpr hnil]
          exact ⟨rfl, .refl _⟩
      | cons c hs =>
          rw [hh] at hheads
          obtain ⟨⟨i, a⟩, hlead⟩ : ∃ c', leader cmp c hs = .ok c' :=
            leader_ok fun x hx y hy => h _ (hheads x hx) _ (hheads y hy)
          have hsel : select cmp (headsFrom 0 ls) = .ok (some (i, a)) := by
            rw [hh, select, hlead]
            rfl
          have hlt := Nat.lt_of_succ_le (Nat.le_of_eq (total_length_modify_tail (mem_of_select hsel)))
          obtain ⟨before, as, after, rfl, htail⟩ := modify_tail_of_mem_headsFrom (mem_of_select hsel)
          rw [htail, hn] at hlt
          have hflat := cons_flatten_perm before a as after
          have hsub : ∀ b ∈ (before ++ as :: after).flatten,
              b ∈ (before ++ (a :: as) :: after).flatten := fun b hb =>
            hflat.subset (List.mem_cons_of_mem a hb)
          obtain ⟨he, hp⟩ := ih _ hlt (fun x hx y hy => h x (hsub x hx) y (hsub y hy)) rfl
          rw [greedy_of_some hsel, htail]
          exact ⟨he, (hp.cons a).trans hflat⟩

end Comparable

/-! ## Merging sorted lists -/

section Sorted

variable {cmp : α → α → Except OrderError Ordering} {rank : α → α → Ordering} {P : α → Prop}
  (hord : IsPreorderOn cmp rank P)
include hord

theorem leader_cons {best c : κ × α} (hs : List (κ × α)) (hb : P best.2) (hc : P c.2) :
    ∃ w : κ × α, leader cmp best (c :: hs) = leader cmp w hs ∧ P w.2 ∧
      rank w.2 best.2 ≠ .gt ∧ rank w.2 c.2 ≠ .gt := by
  rw [leader, hord.compare hc hb]
  cases hr : rank c.2 best.2 with
  | lt => exact ⟨c, rfl, hc, by simp [hr], hord.refl hc⟩
  | eq => exact ⟨best, rfl, hb, hord.refl hb, hord.not_gt_of_not_lt hc hb (by simp [hr])⟩
  | gt => exact ⟨best, rfl, hb, hord.refl hb, hord.not_gt_of_gt hc hb hr⟩

theorem leader_least {best : κ × α} {hs : List (κ × α)} (hb : P best.2) (hhs : ∀ h ∈ hs, P h.2) :
    ∃ h, leader cmp best hs = .ok h ∧ P h.2 ∧ ∀ k ∈ best :: hs, rank h.2 k.2 ≠ .gt := by
  induction hs generalizing best with
  | nil =>
      refine ⟨best, rfl, hb, ?_⟩
      intro k hk
      rw [List.mem_singleton.mp hk]
      exact hord.refl hb
  | cons c hs ih =>
      obtain ⟨hc, hhs⟩ := List.forall_mem_cons.mp hhs
      obtain ⟨w, hw, hPw, hwb, hwc⟩ := leader_cons hord hs hb hc
      obtain ⟨h, hl, hPh, hmin⟩ := ih hPw hhs
      refine ⟨h, hw.trans hl, hPh, ?_⟩
      have hhw := hmin w List.mem_cons_self
      intro k hk
      rcases List.mem_cons.mp hk with rfl | hk
      · exact hord.trans hPh hPw hb hhw hwb
      rcases List.mem_cons.mp hk with rfl | hk
      · exact hord.trans hPh hPw hc hhw hwc
      · exact hmin k (List.mem_cons_of_mem _ hk)

theorem select_least {hs : List (κ × α)} (hhs : ∀ h ∈ hs, P h.2) :
    hs = [] ∨ ∃ h, select cmp hs = .ok (some h) ∧ ∀ k ∈ hs, rank h.2 k.2 ≠ .gt := by
  cases hs with
  | nil => exact .inl rfl
  | cons c hs =>
      obtain ⟨hc, hhs⟩ := List.forall_mem_cons.mp hhs
      obtain ⟨h, hl, -, hmin⟩ := leader_least hord hc hhs
      exact .inr ⟨h, by simp [select, hl, Except.map], hmin⟩

/-- What is not greater than the heads of sorted lists is not greater than
anything in them. -/
theorem not_gt_of_heads {ls : List (List α)} {i : Nat} {a : α} (ha : P a)
    (hP : ∀ l ∈ ls, ∀ b ∈ l, P b) (hs : ∀ l ∈ ls, NonDecreasing rank l)
    (hmin : ∀ h ∈ headsFrom i ls, rank a h.2 ≠ .gt) : ∀ b ∈ ls.flatten, rank a b ≠ .gt := by
  fun_induction headsFrom i ls with
  | case1 => exact fun _ hb => absurd hb List.not_mem_nil
  | case2 i ls ih =>
      exact ih (fun l hl => hP l (List.mem_cons_of_mem _ hl))
        (fun l hl => hs l (List.mem_cons_of_mem _ hl)) hmin
  | case3 i c cs ls ih =>
      obtain ⟨hPc, hP⟩ := List.forall_mem_cons.mp hP
      obtain ⟨hsc, hs⟩ := List.forall_mem_cons.mp hs
      obtain ⟨hac, hmin⟩ := List.forall_mem_cons.mp hmin
      intro b hb
      rw [List.flatten_cons] at hb
      rcases List.mem_append.mp hb with hb | hb
      · exact hord.not_gt_of_head ha hPc hsc hac b hb
      · exact ih hP hs hmin b hb

/-- The merge of sorted lists fails nowhere, has all items of the lists, and
is sorted. -/
theorem greedy_spec {ls : List (List α)} (hP : ∀ l ∈ ls, ∀ a ∈ l, P a)
    (hs : ∀ l ∈ ls, NonDecreasing rank l) :
    (greedy cmp ls).error = none ∧ (greedy cmp ls).items.Perm ls.flatten ∧
      NonDecreasing rank (greedy cmp ls).items := by
  have hcompare : ∀ {ls : List (List α)}, (∀ l ∈ ls, ∀ a ∈ l, P a) →
      ∀ a ∈ ls.flatten, ∀ b ∈ ls.flatten, ∃ o, cmp a b = .ok o := by
    intro ls hP a ha b hb
    obtain ⟨l, hl, ha⟩ := List.mem_flatten.mp ha
    obtain ⟨m, hm, hb⟩ := List.mem_flatten.mp hb
    exact ⟨_, hord.compare (hP l hl a ha) (hP m hm b hb)⟩
  obtain ⟨hnone, hperm⟩ := greedy_perm (hcompare hP)
  refine ⟨hnone, hperm, ?_⟩
  clear hnone hperm
  induction hn : total List.length ls using Nat.strongRecOn generalizing ls with
  | ind n ih =>
      have hheads : ∀ h ∈ headsFrom 0 ls, P h.2 := by
        rintro ⟨i, a⟩ hm
        obtain ⟨before, as, after, rfl, -⟩ := eq_append_of_mem_headsFrom hm
        exact hP (a :: as) (by simp) a List.mem_cons_self
      rcases select_least hord hheads with hnil | ⟨⟨i, a⟩, hsel, hmin⟩
      · rw [greedy_of_nil (eq_nil_of_headsFrom_nil hnil)]
        exact .nil
      · have hmem := mem_of_select hsel
        have hlt := Nat.lt_of_succ_le (Nat.le_of_eq (total_length_modify_tail hmem))
        have hall := not_gt_of_heads hord (hheads _ hmem) hP hs hmin
        obtain ⟨before, as, after, rfl, htail⟩ := modify_tail_of_mem_headsFrom hmem
        rw [htail, hn] at hlt
        have hpart := exists_sublist_of_mem before a as after
        have hrest : ∀ l ∈ before ++ as :: after, ∀ b ∈ l, P b := by
          intro l hl b hb
          obtain ⟨m, hm, hsub⟩ := hpart l hl
          exact hP m hm b (hsub.subset hb)
        rw [greedy_of_some hsel, htail]
        refine List.pairwise_cons.mpr ⟨?_, ih _ hlt hrest ?_ rfl⟩
        · intro b hb
          have hflat := cons_flatten_perm before a as after
          have hb := (greedy_perm (hcompare hrest)).2.subset hb
          exact hall b (hflat.subset (List.mem_cons_of_mem a hb))
        · intro l hl
          obtain ⟨m, hm, hsub⟩ := hpart l hl
          exact (hs m hm).sublist hsub

end Sorted

end ExternalSort
