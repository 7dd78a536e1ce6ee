/-
Sorting by a comparison sorts.

Sorting gives the same items again.  It fails only if a comparison does, and
is aborted only if the answers contradict each other.  If the comparison is a
total preorder on some items, neither happens, and their order never falls.

Only the items of the list are ever compared, so nothing is said of others:
the sort is one of the items that are known to be in the list.
-/
import ExternalSort.Proofs.Order.Preorder
import ExternalSort.Proofs.Order.SmallSort

namespace ExternalSort

namespace Comparing

variable {α : Type} {lt : α → α → Bool}

/-! ## Pivots -/

theorem run_itemAt {items : Array α} {i : Nat} (h : i < items.size) :
    (itemAt items i).run lt = some items[i] := by
  rw [itemAt, Array.getElem?_eq_getElem h]
  rfl

theorem run_medianOfThree {items : Array α} {i j k : Nat} (hi : i < items.size)
    (hj : j < items.size) (hk : k < items.size) :
    ∃ p, (medianOfThree items i j k).run lt = some p ∧ p < items.size := by
  simp only [medianOfThree, run_bind, run_itemAt hi, run_itemAt hj, run_itemAt hk, run_less,
    Option.bind_some]
  split
  · simp only [run_bind, run_less, Option.bind_some]
    split
    · exact ⟨j, rfl, hj⟩
    · exact ⟨k, rfl, hk⟩
  · exact ⟨i, rfl, hi⟩

theorem run_medianPlace (lt : α → α → Bool) (items : Array α) {n i j k : Nat} (hn : 0 < n)
    (hi : i + n ≤ items.size) (hj : j + n ≤ items.size) (hk : k + n ≤ items.size) :
    ∃ p, (medianPlace items n i j k).run lt = some p ∧ p < items.size := by
  induction n using Nat.strongRecOn generalizing i j k with
  | ind n ih =>
      rw [medianPlace]
      split
      · next hlong =>
        have hm : n / 8 < n ∧ 0 < n / 8 := by omega
        have hthree : ∀ {l}, l + n ≤ items.size → ∃ p, (medianPlace items (n / 8) l (l + n / 8 * 4)
            (l + n / 8 * 7)).run lt = some p ∧ p < items.size := fun hl =>
          ih (n / 8) hm.1 hm.2 (by omega) (by omega) (by omega)
        obtain ⟨i', hi, hi'⟩ := hthree hi
        obtain ⟨j', hj, hj'⟩ := hthree hj
        obtain ⟨k', hk, hk'⟩ := hthree hk
        simp only [run_bind, hi, hj, hk, Option.bind_some]
        exact run_medianOfThree hi' hj' hk'
      · exact run_medianOfThree (by omega) (by omega) (by omega)

theorem run_takePivot (lt : α → α → Bool) (items : List α) (h : 8 ≤ items.length) :
    ∃ pivot others, (takePivot items).run lt = some (pivot, others) ∧
      (pivot :: others).Perm items := by
  have hsize : items.toArray.size = items.length := List.size_toArray ..
  obtain ⟨p, hp, hlt⟩ := run_medianPlace lt items.toArray
    (show 0 < items.length / 8 by omega) (show 0 + items.length / 8 ≤ items.toArray.size by omega)
    (show items.length / 8 * 4 + items.length / 8 ≤ items.toArray.size by omega)
    (show items.length / 8 * 7 + items.length / 8 ≤ items.toArray.size by omega)
  rw [hsize] at hlt
  simp only [takePivot, run_bind, hp, Option.bind_some]
  have hsplit := List.take_append_drop p items
  have hdrop := congrArg List.length hsplit
  simp only [List.length_append, List.length_take] at hdrop
  split
  · next pivot after ht hd =>
    rw [ht, hd] at hsplit
    exact ⟨pivot, after, rfl, by rw [← hsplit]; exact .refl _⟩
  · next first before pivot after ht hd =>
    rw [ht, hd] at hsplit
    refine ⟨pivot, before ++ first :: after, rfl, ?_⟩
    rw [← hsplit]
    have hmiddle : (first :: before ++ pivot :: after).Perm (pivot :: (first :: before ++ after)) :=
      List.perm_middle
    exact (List.perm_middle.cons pivot).trans hmiddle.symm
  · next hd =>
    rw [hd] at hdrop
    simp only [List.length_nil] at hdrop
    omega

/-! ## Parts -/

theorem turned_perm (items : List α) : (turned items).Perm items := by
  cases items with
  | nil => exact .refl _
  | cons x items => exact List.perm_append_singleton x items

theorem firstApart_perm (items : List α) : (firstApart items).Perm items := by
  cases items with
  | nil => exact .refl _
  | cons x items => exact (List.reverse_perm items).cons x

theorem run_part (test : α → Comparing α Bool) (t : α → Bool)
    (ht : ∀ x, (test x).run lt = some (t x)) (passed failed items : List α) :
    ∃ passed' failed', (part test passed failed items).run lt = some (passed', failed') ∧
      (passed' ++ failed').Perm (passed ++ failed ++ items) ∧
      ((∀ x ∈ passed, t x = true) → ∀ x ∈ passed', t x = true) ∧
      ((∀ x ∈ failed, t x = false) → ∀ x ∈ failed', t x = false) := by
  induction items generalizing passed failed with
  | nil => exact ⟨passed, failed, rfl, by simp, fun h => h, fun h => h⟩
  | cons x items ih =>
      have hturned : ∀ {y}, y ∈ turned failed → y ∈ failed := fun h => (turned_perm failed).subset h
      cases htx : t x with
      | true =>
          obtain ⟨passed', failed', hrun, hperm, hpassed, hfailed⟩ := ih (x :: passed) (turned failed)
          refine ⟨passed', failed', by simp [part, ht, htx, hrun], ?_, ?_, ?_⟩
          · refine (hperm.trans ?_)
            have := ((turned_perm failed).append_left passed).append_right items
            exact (this.cons x).trans List.perm_middle.symm
          · exact fun h => hpassed (List.forall_mem_cons.mpr ⟨htx, h⟩)
          · exact fun h => hfailed fun y hy => h y (hturned hy)
      | false =>
          obtain ⟨passed', failed', hrun, hperm, hpassed, hfailed⟩ := ih passed (x :: turned failed)
          refine ⟨passed', failed', by simp [part, ht, htx, hrun], ?_, hpassed, ?_⟩
          · refine hperm.trans ?_
            have := ((turned_perm failed).append_left passed).append_right items
            refine (List.Perm.append_right items List.perm_middle).trans ?_
            exact (this.cons x).trans List.perm_middle.symm
          · exact fun h => hfailed (List.forall_mem_cons.mpr ⟨htx, fun y hy => h y (hturned hy)⟩)

theorem rising_around (hlt : IsWeakOrder lt) {below above : List α} {pivot : α}
    (hb : Rising lt below) (ha : Rising lt above) (hbelow : ∀ x ∈ below, lt pivot x = false)
    (habove : ∀ x ∈ above, lt x pivot = false) : Rising lt (below ++ pivot :: above) := by
  refine List.pairwise_append.mpr ⟨hb, List.pairwise_cons.mpr ⟨habove, ha⟩, ?_⟩
  intro x hx y hy
  rcases List.mem_cons.mp hy with rfl | hy
  · exact hbelow x hx
  · exact hlt.trans (hbelow x hx) (habove y hy)

theorem perm_around {items others passed failed xs ys : List α} {pivot : α}
    (hitems : (pivot :: others).Perm items) (hparted : (passed ++ failed).Perm others)
    (hx : xs.Perm passed) (hy : ys.Perm failed) : (xs ++ pivot :: ys).Perm items :=
  (List.perm_middle.trans (((hx.append hy).trans hparted).cons pivot)).trans hitems

/-! ## Splitting around pivots -/

/-- Sorting some items of which none is less than `bound`. -/
structure SortsAbove (lt : α → α → Bool) (bound : Option α) (items : List α)
    (c : Comparing α (List α)) : Prop where
  perm : ∀ {sorted}, c.run lt = some sorted → sorted.Perm items
  rising : IsWeakOrder lt → (∀ p ∈ bound, ∀ x ∈ items, lt x p = false) →
    ∃ sorted, c.run lt = some sorted ∧ Rising lt sorted

theorem Sorts.above {items : List α} {c : Comparing α (List α)} (h : Sorts lt items c)
    (bound : Option α) : SortsAbove lt bound items c where
  perm := h.perm
  rising hlt _ := h.rising hlt

theorem run_above (lt : α → α → Bool) (bound : Option α) (pivot : α) :
    (bound.elim (return true) (less · pivot) : Comparing α Bool).run lt =
      some (bound.elim true (lt · pivot)) := by
  cases bound <;> rfl

section Split

variable {limit : Nat} {bound : Option α} {items others : List α} {pivot : α}
  (ih : ∀ bound items, SortsAbove lt bound items (quicksort limit bound items))
  (hlong : ¬items.length ≤ 32) (htake : (takePivot items).run lt = some (pivot, others))
  (hperm : (pivot :: others).Perm items)
include ih hlong htake hperm

/-- Where the pivot is above the bound, what is below the pivot is sorted by itself. -/
theorem sortsAbove_below (hb : bound.elim true (lt · pivot) = true) :
    SortsAbove lt bound items (quicksort (limit + 1) bound items) := by
  obtain ⟨below, rest, hpart, hparted, hbelow, hrest⟩ := run_part (less · pivot) (lt · pivot)
    (fun _ => rfl) [] [] (turned others)
  have hothers := hparted.trans (turned_perm others)
  have hrun : ∀ {sorted}, (quicksort (limit + 1) bound items).run lt = some sorted ↔
      ∃ low, (quicksort limit bound (firstApart below)).run lt = some low ∧
        ∃ high, (quicksort limit (some pivot) rest).run lt = some high ∧
          low ++ pivot :: high = sorted := by
    intro sorted
    rw [quicksort]
    simp [hlong, htake, run_above, hb, hpart, Option.bind_eq_some_iff]
  refine ⟨fun hs => ?_, fun hlt hbound => ?_⟩
  · obtain ⟨low, hlow, high, hhigh, rfl⟩ := hrun.mp hs
    exact perm_around hperm hothers
      (((ih bound (firstApart below)).perm hlow).trans (firstApart_perm below))
      ((ih (some pivot) rest).perm hhigh)
  · have hitems : ∀ {x}, x ∈ below ++ rest → x ∈ items := fun hx =>
      hperm.subset (List.mem_cons_of_mem pivot (hothers.subset hx))
    have hlow' : ∀ x ∈ firstApart below, x ∈ below := fun x hx =>
      (firstApart_perm below).subset hx
    have hrest := hrest (by simp)
    have hbelow := hbelow (by simp)
    obtain ⟨low, hlow, hrl⟩ := (ih bound (firstApart below)).rising hlt fun p hp x hx =>
      hbound p hp x (hitems (List.mem_append_left rest (hlow' x hx)))
    obtain ⟨high, hhigh, hrh⟩ := (ih (some pivot) rest).rising hlt fun p hp x hx => by
      obtain rfl := Option.some.inj hp
      exact hrest x hx
    refine ⟨low ++ pivot :: high, hrun.mpr ⟨low, hlow, high, hhigh, rfl⟩, ?_⟩
    refine rising_around hlt hrl hrh (fun x hx => hlt.asymm (hbelow x ?_)) fun x hx => ?_
    · exact hlow' x (((ih bound _).perm hlow).subset hx)
    · exact hrest x (((ih (some pivot) rest).perm hhigh).subset hx)

/-- Where the pivot is not above the bound, what equals it is in order already. -/
theorem sortsAbove_equal (hb : bound.elim true (lt · pivot) = false) :
    SortsAbove lt bound items (quicksort (limit + 1) bound items) := by
  obtain ⟨equal, rest, hpart, hparted, hequal, hrest⟩ := run_part
    (fun x => return !(← less pivot x)) (fun x => !lt pivot x) (fun _ => rfl) [] [] (turned others)
  have hothers := hparted.trans (turned_perm others)
  have hrun : ∀ {sorted}, (quicksort (limit + 1) bound items).run lt = some sorted ↔
      ∃ high, (quicksort limit none rest).run lt = some high ∧
          firstApart equal ++ pivot :: high = sorted := by
    intro sorted
    rw [quicksort]
    simp [hlong, htake, run_above, hb, hpart, Option.bind_eq_some_iff]
  refine ⟨fun hs => ?_, fun hlt hbound => ?_⟩
  · obtain ⟨high, hhigh, rfl⟩ := hrun.mp hs
    exact perm_around hperm hothers (firstApart_perm equal) ((ih none rest).perm hhigh)
  · -- No item is less than the bound, which is not less than the pivot.
    obtain ⟨p, rfl, hp⟩ : ∃ p, bound = some p ∧ lt p pivot = false := by
      cases bound with
      | none => exact absurd hb (by simp)
      | some p => exact ⟨p, rfl, hb⟩
    have hitems : ∀ x ∈ equal ++ rest, lt x pivot = false := fun x hx =>
      hlt.trans hp (hbound p rfl x
        (hperm.subset (List.mem_cons_of_mem pivot (hothers.subset hx))))
    have hequal : ∀ x ∈ firstApart equal, lt pivot x = false ∧ lt x pivot = false := by
      intro x hx
      have hx := (firstApart_perm equal).subset hx
      exact ⟨by simpa using hequal (by simp) x hx, hitems x (List.mem_append_left rest hx)⟩
    obtain ⟨high, hhigh, hrh⟩ := (ih none rest).rising hlt (by simp)
    refine ⟨firstApart equal ++ pivot :: high, hrun.mpr ⟨high, hhigh, rfl⟩, ?_⟩
    refine rising_around hlt ?_ hrh (fun x hx => (hequal x hx).1) fun x hx => ?_
    · exact List.pairwise_of_forall_mem_list fun a ha b hb =>
        hlt.trans (hequal a ha).1 (hequal b hb).2
    · exact hitems x (List.mem_append_right equal (((ih none rest).perm hhigh).subset hx))

end Split

theorem sorts_quicksort (lt : α → α → Bool) (limit : Nat) (bound : Option α) (items : List α) :
    SortsAbove lt bound items (quicksort limit bound items) := by
  induction limit generalizing bound items with
  | zero =>
      rw [quicksort]
      split
      · exact (sorts_smallSort items).above bound
      · exact (sorts_insertionSort items).above bound
  | succ limit ih =>
      by_cases hlong : items.length ≤ 32
      · rw [quicksort, if_pos hlong]
        exact (sorts_smallSort items).above bound
      · obtain ⟨pivot, others, htake, hperm⟩ := run_takePivot lt items (by omega)
        cases hb : bound.elim true (lt · pivot) with
        | true => exact sortsAbove_below ih hlong htake hperm hb
        | false => exact sortsAbove_equal ih hlong htake hperm hb

/-! ## Runs -/

/-- A run goes all the way down, or never down. -/
theorem run_isRun (lt : α → α → Bool) (falling : Bool) (last : α) (items : List α) :
    ∃ whole, (isRun falling last items).run lt = some whole ∧
      (whole = true → (last :: items).IsChain fun a b => lt b a = falling) := by
  induction items generalizing last with
  | nil => exact ⟨true, rfl, fun _ => by simp⟩
  | cons x items ih =>
      obtain ⟨whole, hrun, hchain⟩ := ih x
      by_cases hx : lt x last = falling
      · refine ⟨whole, by simp [isRun, hx, hrun], ?_⟩
        exact fun hw => List.isChain_cons_cons.mpr ⟨hx, hchain hw⟩
      · refine ⟨false, by simp [isRun, hx], fun h => absurd h (by simp)⟩

theorem sorts_sorting (items : List α) : Sorts lt items (sorting items) := by
  match items with
  | [] => exact .of_run rfl (.refl _) fun _ => .nil
  | [a] => exact .of_run rfl (.refl _) fun _ => List.pairwise_singleton ..
  | a :: b :: rest =>
      rw [sorting]
      split
      · exact sorts_insertionSort _
      · obtain ⟨whole, hrun, hchain⟩ := run_isRun lt (lt b a) b rest
        cases whole with
        | false =>
            have hquick := sorts_quicksort lt (2 * ((a :: b :: rest).length ||| 1).log2) none
              (a :: b :: rest)
            have hsorts : Sorts lt (a :: b :: rest)
                (quicksort (2 * ((a :: b :: rest).length ||| 1).log2) none (a :: b :: rest)) :=
              ⟨hquick.perm, fun hlt => hquick.rising hlt (by simp)⟩
            exact hsorts.congr (by simp [hrun])
        | true =>
            have hchain : (a :: b :: rest).IsChain fun x y => lt y x = lt b a :=
              List.isChain_cons_cons.mpr ⟨rfl, hchain rfl⟩
            cases hba : lt b a with
            | true =>
                rw [hba] at hchain hrun
                refine .of_run (by simp [hrun, hba]) (List.reverse_perm _) ?_
                intro hlt
                rw [rising_reverse]
                exact hlt.flip.rising_of_chain (hchain.imp fun _ _ h => hlt.asymm h)
            | false =>
                rw [hba] at hchain hrun
                exact .of_run (by simp [hrun, hba]) (.refl _) fun hlt => hlt.rising_of_chain hchain

/-- At most twenty items are sorted by insertion, which is never aborted. -/
theorem run_sorting_short {items : List α} (h : items.length ≤ 20) :
    ∃ sorted, (sorting items).run lt = some sorted := by
  match items with
  | [] => exact ⟨[], rfl⟩
  | [a] => exact ⟨[a], rfl⟩
  | a :: b :: rest =>
      obtain ⟨grown, hrun, -⟩ := run_insertAll lt [] (a :: b :: rest)
      exact ⟨grown.reverse, by rw [sorting, if_pos h]; simp [insertionSort, hrun]⟩

/-! ## Comparisons that may fail -/

section Fallible

variable {β ε : Type}

/-- What a comparison that may fail answers to a sort: two items that do not
compare pass for equal. -/
def isLess (cmp : α → α → Except ε Ordering) (a b : α) : Bool :=
  match cmp a b with
  | .ok o => o == .lt
  | .error _ => false

theorem perform_spec (cmp : α → α → Except ε Ordering) (c : Comparing α β) (failure : Option ε) :
    match c.perform cmp failure with
    | .done b => c.run (isLess cmp) = some b
    | .failed e => failure = some e ∨ ∃ a b, cmp a b = .error e
    | .aborted => c.run (isLess cmp) = none := by
  induction c generalizing failure with
  | done b =>
      cases failure with
      | none => exact rfl
      | some e => exact .inl rfl
  | aborted => exact rfl
  | ask a b next ih =>
      rw [perform, run]
      cases hcmp : cmp a b with
      | ok o =>
          rw [isLess, hcmp]
          exact ih (o == .lt) failure
      | error e =>
          rw [isLess, hcmp]
          dsimp only
          have h := ih false (failure <|> some e)
          generalize (next false).perform cmp (failure <|> some e) = r at h ⊢
          cases r with
          | done b => exact h
          | failed e' =>
              rcases h with h | h
              · cases failure with
                | none =>
                    obtain rfl := Option.some.inj h
                    exact .inr ⟨a, b, hcmp⟩
                | some f => exact .inl h
              · exact .inr h
          | aborted => exact h

end Fallible

end Comparing

/-! ## Sorting by a comparison -/

open Comparing (isLess)

variable {α ε : Type} {cmp : α → α → Except ε Ordering} {items sorted : List α}

/-- What the comparison answers to a sort of some items. -/
def answers (cmp : α → α → Except ε Ordering) (items : List α) (a b : { a // a ∈ items }) : Bool :=
  isLess cmp a.1 b.1

/-- The answers to a sort of some items do not contradict each other. -/
def Consistent (cmp : α → α → Except ε Ordering) (items : List α) : Prop :=
  IsWeakOrder (answers cmp items)

theorem Consistent.subset {few : List α} (h : Consistent cmp items) (hf : ∀ a ∈ few, a ∈ items) :
    Consistent cmp few where
  asymm {a b} hab := h.asymm (a := ⟨a, hf a a.2⟩) (b := ⟨b, hf b b.2⟩) hab
  trans {a b c} hab hbc :=
    h.trans (a := ⟨a, hf a a.2⟩) (b := ⟨b, hf b b.2⟩) (c := ⟨c, hf c c.2⟩) hab hbc

theorem sortBy_spec (cmp : α → α → Except ε Ordering) (items : List α) :
    match sortBy cmp items with
    | .done sorted => sorted.Perm items ∧
        (Consistent cmp items → sorted.Pairwise fun a b => isLess cmp b a = false)
    | .failed e => ∃ a ∈ items, ∃ b ∈ items, cmp a b = .error e
    | .aborted => (Comparing.sorting items.attach).run (answers cmp items) = none := by
  have hsorts : Comparing.Sorts (answers cmp items) items.attach (Comparing.sorting items.attach) :=
    Comparing.sorts_sorting items.attach
  have hspec := Comparing.perform_spec (fun a b : { a // a ∈ items } => cmp a.1 b.1)
    (Comparing.sorting items.attach) none
  rw [sortBy]
  split at hspec
  · next sorted hp =>
    rw [hp]
    refine ⟨?_, fun hc => ?_⟩
    · have := (hsorts.perm hspec).map Subtype.val
      rwa [List.attach_map_subtype_val] at this
    · obtain ⟨sorted', hrun', hrising⟩ := hsorts.rising hc
      obtain rfl := Option.some.inj (hspec.symm.trans hrun')
      exact List.pairwise_map.mpr hrising
  · next e hp =>
    rw [hp]
    rcases hspec with h | ⟨a, b, h⟩
    · exact absurd h (by simp)
    · exact ⟨a.1, a.2, b.1, b.2, h⟩
  · next hp =>
    rw [hp]
    exact hspec

theorem sortBy_ne_aborted {sorted : List { a // a ∈ items }}
    (h : (Comparing.sorting items.attach).run (answers cmp items) = some sorted) :
    sortBy cmp items ≠ .aborted := by
  intro ha
  have hspec := sortBy_spec cmp items
  rw [ha] at hspec
  exact absurd (h.symm.trans hspec) (by simp)

theorem Consistent.sortBy_ne_aborted (h : Consistent cmp items) : sortBy cmp items ≠ .aborted := by
  obtain ⟨sorted, hrun, -⟩ := (Comparing.sorts_sorting items.attach).rising h
  exact ExternalSort.sortBy_ne_aborted hrun

theorem sortBy_ne_failed (h : ∀ x ∈ items, ∀ y ∈ items, ∃ o, cmp x y = .ok o) (e : ε) :
    sortBy cmp items ≠ .failed e := by
  intro hf
  have hspec := sortBy_spec cmp items
  rw [hf] at hspec
  obtain ⟨x, hx, y, hy, he⟩ := hspec
  obtain ⟨o, ho⟩ := h x hx y hy
  exact absurd (he.symm.trans ho) (by simp)

theorem sortBy_short (h : ∀ x ∈ items, ∀ y ∈ items, ∃ o, cmp x y = .ok o)
    (hshort : items.length ≤ 20) : ∃ sorted, sortBy cmp items = .done sorted ∧
      sorted.Perm items := by
  have hspec := sortBy_spec cmp items
  cases hs : sortBy cmp items with
  | done sorted =>
      rw [hs] at hspec
      exact ⟨sorted, rfl, hspec.1⟩
  | failed e => exact absurd hs (sortBy_ne_failed h e)
  | aborted =>
      obtain ⟨sorted, hrun⟩ : ∃ sorted,
          (Comparing.sorting items.attach).run (answers cmp items) = some sorted :=
        Comparing.run_sorting_short (by simpa using hshort)
      exact absurd hs (sortBy_ne_aborted hrun)

theorem sortWith_perm (h : sortWith cmp items = .ok sorted) : sorted.Perm items := by
  have hspec := sortBy_spec cmp items
  rw [sortWith] at h
  cases hs : sortBy cmp items with
  | done sorted' =>
      rw [hs] at h hspec
      obtain rfl := Except.ok.inj h
      exact hspec.1
  | failed e =>
      rw [hs] at h
      exact absurd h (by simp)
  | aborted =>
      rw [hs] at h
      obtain rfl := Except.ok.inj h
      exact .refl _

theorem sortWith_ok (h : ∀ x ∈ items, ∀ y ∈ items, ∃ o, cmp x y = .ok o) :
    ∃ sorted, sortWith cmp items = .ok sorted ∧ sorted.Perm items := by
  have hok : ∃ sorted, sortWith cmp items = .ok sorted := by
    rw [sortWith]
    cases hs : sortBy cmp items with
    | done sorted => exact ⟨sorted, rfl⟩
    | failed e => exact absurd hs (sortBy_ne_failed h e)
    | aborted => exact ⟨items, rfl⟩
  obtain ⟨sorted, hs⟩ := hok
  exact ⟨sorted, hs, sortWith_perm hs⟩

/-! ## Comparisons that are an order -/

section Preorder

variable {cmp : α → α → Except OrderError Ordering} {rank : α → α → Ordering} {P : α → Prop}
  (hord : IsPreorderOn cmp rank P) (hP : ∀ a ∈ items, P a)
include hord hP

theorem isLess_eq_false_iff {a b : α} (ha : a ∈ items) (hb : b ∈ items) :
    isLess cmp b a = false ↔ rank a b ≠ .gt := by
  rw [isLess, hord.compare (hP b hb) (hP a ha), hord.swap (hP a ha) (hP b hb)]
  cases rank a b <;> decide

theorem IsPreorderOn.consistent : Consistent cmp items where
  asymm {a b} h := by
    refine (isLess_eq_false_iff hord hP a.2 b.2).mpr ?_
    rw [answers, isLess, hord.compare (hP a a.2) (hP b b.2)] at h
    rw [beq_iff_eq.mp h]
    decide
  trans {a b c} hab hbc := by
    have hab := (isLess_eq_false_iff hord hP a.2 b.2).mp hab
    have hbc := (isLess_eq_false_iff hord hP b.2 c.2).mp hbc
    exact (isLess_eq_false_iff hord hP a.2 c.2).mpr
      (hord.trans (hP a a.2) (hP b b.2) (hP c c.2) hab hbc)

theorem sortBy_preorder : ∃ sorted, sortBy cmp items = .done sorted ∧ sorted.Perm items ∧
    NonDecreasing rank sorted := by
  have hcons := hord.consistent hP
  have hspec := sortBy_spec cmp items
  cases hs : sortBy cmp items with
  | done sorted =>
      rw [hs] at hspec
      have hmem : ∀ {a}, a ∈ sorted → a ∈ items := fun ha => hspec.1.subset ha
      refine ⟨sorted, rfl, hspec.1, (hspec.2 hcons).imp_of_mem fun ha hb hle => ?_⟩
      exact (isLess_eq_false_iff hord hP (hmem ha) (hmem hb)).mp hle
  | failed e =>
      exact absurd hs (sortBy_ne_failed (fun a ha b hb => ⟨_, hord.compare (hP a ha) (hP b hb)⟩) e)
  | aborted => exact absurd hs hcons.sortBy_ne_aborted

theorem sortWith_nonDecreasing (hs : sortWith cmp items = .ok sorted) :
    NonDecreasing rank sorted := by
  obtain ⟨sorted', hsort, -, hle⟩ := sortBy_preorder hord hP
  rw [sortWith, hsort] at hs
  exact Except.ok.inj hs ▸ hle

end Preorder

end ExternalSort
