/-
The runs that a generator makes, as lists.

Which items go into which run depends on the items and their sizes alone,
not on how they come in or what a store does.  `Batches` follows a generator
without a store: it keeps the items where the generator writes files.
-/
import ExternalSort.Order.Sorting
import ExternalSort.Proofs.Order.Sorting
import ExternalSort.Word
import Mathlib.Data.List.Induction

namespace ExternalSort

/-- Items sorted by an order, if they can be. -/
def ItemOrder.sort {O α : Type} [ItemOrder O α] (o : O) (items : List α) : List α :=
  (sortWith (ItemOrder.compare o) items).toOption.getD items

/-- Whatever it has taken note of among some items, an order refuses none of
them and is a total preorder on all of them. -/
def ItemOrder.Fits {O α : Type} [ItemOrder O α] (o : O) (rank : α → α → Ordering)
    (items : List α) : Prop :=
  ∀ taken, taken <+: items → ∃ o', ItemOrder.acceptFrom o 0 taken = .ok o' ∧
    IsPreorderOn (ItemOrder.compare o') rank (· ∈ items)

/-- Whatever it has taken note of among some items, an order refuses none of
them and compares all of them. -/
def ItemOrder.Handles {O α : Type} [ItemOrder O α] (o : O) (items : List α) : Prop :=
  ∀ taken, taken <+: items → ∃ o', ItemOrder.acceptFrom o 0 taken = .ok o' ∧
    ∀ a ∈ items, ∀ b ∈ items, ∃ r, ItemOrder.compare o' a b = .ok r

theorem ItemOrder.Fits.handles {O α : Type} [ItemOrder O α] {o : O} {rank : α → α → Ordering}
    {items : List α} (h : ItemOrder.Fits o rank items) : ItemOrder.Handles o items := by
  intro taken htaken
  obtain ⟨o', ho, hp⟩ := h taken htaken
  exact ⟨o', ho, fun a ha b hb => ⟨_, hp.compare ha hb⟩⟩

theorem PlainOrder.natural_fits {α : Type} [Ord α] [Std.TransOrd α] (items : List α) :
    ItemOrder.Fits (PlainOrder.natural α) Ord.compare items := by
  have haccept : ∀ (taken : List α) (i : Nat),
      ItemOrder.acceptFrom (natural α) i taken = .ok (natural α) := by
    intro taken
    induction taken with
    | nil =>
        intro i
        rfl
    | cons a taken ih =>
        intro i
        exact ih (i + 1)
  intro taken _
  refine ⟨natural α, haccept taken 0, ?_⟩
  exact
    { compare := fun _ _ => rfl
      swap := fun _ _ => Std.OrientedOrd.eq_swap
      trans := by
        intro a b c _ _ _ hab hbc
        have hab := Ordering.isLE_iff_ne_gt.mpr hab
        have hbc := Ordering.isLE_iff_ne_gt.mpr hbc
        exact Ordering.isLE_iff_ne_gt.mp (Std.TransOrd.isLE_trans hab hbc) }

/-! ## Sizes -/

/-- The sizes of some items, added up as far as a word goes. -/
def satTotal {α : Type} (size : α → Nat) (items : List α) : Nat :=
  items.foldl (fun n a => satAdd n (size a)) 0

section Sizes

variable {α : Type} (size : α → Nat)

theorem satTotal_concat (items : List α) (a : α) :
    satTotal size (items ++ [a]) = satAdd (satTotal size items) (size a) := by
  rw [satTotal, List.foldl_append]
  rfl

theorem satTotal_le_of_part {part items : List α} (h : part <:+: items) :
    satTotal size part ≤ satTotal size items := by
  obtain ⟨before, after, rfl⟩ := h
  induction after using List.reverseRecOn with
  | nil =>
      rw [List.append_nil]
      induction part using List.reverseRecOn with
      | nil => exact Nat.zero_le _
      | append_singleton part a ih =>
          rw [← List.append_assoc, satTotal_concat, satTotal_concat]
          unfold satAdd
          omega
  | append_singleton after a ih =>
      rw [← List.append_assoc, satTotal_concat]
      have hword : satTotal size part ≤ wordMax := by
        cases part using List.reverseRecOn with
        | nil => exact Nat.zero_le _
        | append_singleton part b =>
            rw [satTotal_concat]
            exact satAdd_le _ _
      unfold satAdd
      omega

end Sizes

/-- Whether an item of some may have to leave the memory: if they are too many
to be held together. -/
def MaySpill {α : Type} (threshold : Nat) (size : α → Nat) (items : List α) (a : α) : Prop :=
  a ∈ items ∧ threshold ≤ satTotal size items

/-! ## Batches -/

/-- Runs that were made of the first of some items, and what is held of them. -/
structure Batches (O α : Type) where
  order : O
  spilled : List (List α) := []
  held : List α := []
  size : Nat := 0

namespace Batches

variable {O α : Type} [ItemOrder O α]

/-- What is held becomes a run. -/
def spill (t : Batches O α) : Batches O α :=
  { t with spilled := t.spilled ++ [ItemOrder.sort t.order t.held], held := [], size := 0 }

/-- One more item; the runs grow when what is held reaches the threshold. -/
def add (threshold : Nat) (size : α → Nat) (t : Batches O α) (a : α) : Batches O α :=
  let t := { t with
    order := (ItemOrder.accept t.order a).toOption.getD t.order
    held := t.held ++ [a]
    size := satAdd t.size (size a) }
  if threshold ≤ t.size then t.spill else t

/-- One more item is held, which the order has accepted. -/
def hold (size : α → Nat) (t : Batches O α) (o : O) (a : α) : Batches O α :=
  { t with order := o, held := t.held ++ [a], size := satAdd t.size (size a) }

theorem add_accepted {t : Batches O α} {a : α} {o : O} (h : ItemOrder.accept t.order a = .ok o)
    (threshold : Nat) (size : α → Nat) :
    t.add threshold size a = if threshold ≤ (t.hold size o a).size then (t.hold size o a).spill
      else t.hold size o a := by
  rw [add, h]
  rfl

def addAll (threshold : Nat) (size : α → Nat) (t : Batches O α) (items : List α) :
    Batches O α :=
  items.foldl (add threshold size) t

/-- All runs. -/
def runs (t : Batches O α) : List (List α) :=
  if t.spilled = [] then [ItemOrder.sort t.order t.held]
  else if t.held = [] then t.spilled
  else t.spill.spilled

/-! ## Nothing is lost, and every run is sorted -/

section Good

variable {threshold : Nat} {size : α → Nat} {order : O} {items taken : List α} {t : Batches O α}

/-- The runs that were made of some first items. -/
structure Good (threshold : Nat) (size : α → Nat) (order : O) (items taken : List α)
    (t : Batches O α) : Prop where
  among : taken <+: items
  noted : ItemOrder.acceptFrom order 0 taken = .ok t.order
  conserved : (t.spilled.flatten ++ t.held).Perm taken
  sorted : ∀ rank, ItemOrder.Fits order rank items → ∀ l ∈ t.spilled, NonDecreasing rank l
  recent : t.held <:+ taken
  size_eq : t.size = satTotal size t.held
  reached : t.spilled ≠ [] → threshold ≤ satTotal size items

theorem good_nil (threshold : Nat) (size : α → Nat) (order : O) (items : List α) :
    Good threshold size order items [] { order } where
  among := List.nil_prefix
  noted := rfl
  conserved := .refl _
  sorted _ _ _ h := absurd h List.not_mem_nil
  recent := List.suffix_rfl
  size_eq := rfl
  reached h := absurd rfl h

theorem acceptFrom_append (o : O) (i : Nat) (xs ys : List α) :
    ItemOrder.acceptFrom o i (xs ++ ys) =
      (ItemOrder.acceptFrom o i xs).bind fun o' =>
        ItemOrder.acceptFrom o' (i + xs.length) ys := by
  induction xs generalizing o i with
  | nil => rfl
  | cons x xs ih =>
      simp only [List.cons_append, ItemOrder.acceptFrom]
      cases ItemOrder.accept o x with
      | error e => rfl
      | ok o' =>
          show ItemOrder.acceptFrom o' (i + 1) (xs ++ ys) = _
          rw [ih o' (i + 1)]
          simp only [List.length_cons, Nat.add_assoc, Nat.add_comm 1]

section Kept

variable (h : t.Good threshold size order items taken)
include h

theorem Good.subset {a : α} (ha : a ∈ t.spilled.flatten ++ t.held) : a ∈ items :=
  h.among.subset (h.conserved.subset ha)

theorem Good.held_subset {a : α} (ha : a ∈ t.held) : a ∈ items :=
  h.subset (List.mem_append_right _ ha)

theorem Good.spilled_maySpill : ∀ l ∈ t.spilled, ∀ a ∈ l, MaySpill threshold size items a :=
  fun _ hl _ ha => ⟨h.subset (List.mem_append_left _ (List.mem_flatten_of_mem hl ha)),
    h.reached (List.ne_nil_of_mem hl)⟩

theorem Good.reaches (hfull : threshold ≤ t.size) : threshold ≤ satTotal size items := by
  rw [h.size_eq] at hfull
  exact Nat.le_trans hfull (satTotal_le_of_part size (h.recent.isInfix.trans h.among.isInfix))

theorem Good.hold {a : α} (ha : taken ++ [a] <+: items) {o : O}
    (ho : ItemOrder.acceptFrom order 0 (taken ++ [a]) = .ok o) :
    Good threshold size order items (taken ++ [a]) (t.hold size o a) where
  among := ha
  noted := ho
  conserved := by
    have := h.conserved.append_right [a]
    rwa [List.append_assoc] at this
  sorted := h.sorted
  recent := by
    obtain ⟨before, hb⟩ := h.recent
    exact ⟨before, by rw [← hb, List.append_assoc]; rfl⟩
  size_eq := by
    rw [show (t.hold size o a).held = t.held ++ [a] from rfl, satTotal_concat, ← h.size_eq]
    rfl
  reached := h.reached

theorem Good.preorder {rank : α → α → Ordering} (hfits : ItemOrder.Fits order rank items) :
    IsPreorderOn (ItemOrder.compare t.order) rank (· ∈ items) := by
  obtain ⟨o, ho, hp⟩ := hfits taken h.among
  obtain rfl := Except.ok.inj (ho.symm.trans h.noted)
  exact hp

end Kept

variable (hhandles : ItemOrder.Handles order items)
include hhandles

theorem Good.compares (h : t.Good threshold size order items taken) :
    ∀ a ∈ items, ∀ b ∈ items, ∃ r, ItemOrder.compare t.order a b = .ok r := by
  obtain ⟨o, ho, hc⟩ := hhandles taken h.among
  obtain rfl := Except.ok.inj (ho.symm.trans h.noted)
  exact hc

theorem Good.sort_held (h : t.Good threshold size order items taken) :
    sortWith (ItemOrder.compare t.order) t.held = .ok (ItemOrder.sort t.order t.held) ∧
      (ItemOrder.sort t.order t.held).Perm t.held ∧
      ∀ rank, ItemOrder.Fits order rank items →
        NonDecreasing rank (ItemOrder.sort t.order t.held) := by
  obtain ⟨sorted, hs, hp⟩ := sortWith_ok fun a ha b hb =>
    h.compares hhandles a (h.held_subset ha) b (h.held_subset hb)
  have : ItemOrder.sort t.order t.held = sorted := by
    rw [ItemOrder.sort, hs]
    rfl
  rw [this]
  refine ⟨hs, hp, ?_⟩
  intro rank hfits
  exact sortWith_nonDecreasing (h.preorder hfits) (fun _ => h.held_subset) hs

theorem Good.spill (h : t.Good threshold size order items taken)
    (hreach : threshold ≤ satTotal size items) :
    Good threshold size order items taken t.spill := by
  obtain ⟨-, hp, hn⟩ := h.sort_held hhandles
  refine ⟨h.among, h.noted, ?_, ?_, List.nil_suffix, rfl, fun _ => hreach⟩
  · refine List.Perm.trans ?_ h.conserved
    simpa [Batches.spill] using List.Perm.append_left t.spilled.flatten hp
  · intro rank hfits l hl
    rcases List.mem_append.mp hl with hl | hl
    · exact h.sorted rank hfits l hl
    · rw [List.mem_singleton.mp hl]
      exact hn rank hfits

theorem Good.accept (h : t.Good threshold size order items taken) {a : α}
    (ha : taken ++ [a] <+: items) :
    ∃ o, ItemOrder.accept t.order a = .ok o ∧
      ItemOrder.acceptFrom order 0 (taken ++ [a]) = .ok o := by
  obtain ⟨o, ho, -⟩ := hhandles _ ha
  refine ⟨o, ?_, ho⟩
  rw [acceptFrom_append, h.noted] at ho
  simp only [Except.bind, ItemOrder.acceptFrom] at ho
  cases hacc : ItemOrder.accept t.order a with
  | error e => exact absurd ho (by simp [hacc])
  | ok o' => simpa [hacc] using ho

theorem Good.add (h : t.Good threshold size order items taken) {a : α}
    (ha : taken ++ [a] <+: items) :
    Good threshold size order items (taken ++ [a]) (t.add threshold size a) := by
  obtain ⟨o, hacc, hnoted⟩ := h.accept hhandles ha
  have hheld := h.hold ha hnoted
  rw [add_accepted hacc]
  split
  · next hfull => exact hheld.spill hhandles (hheld.reaches hfull)
  · exact hheld

theorem Good.addAll (h : t.Good threshold size order items taken) {as : List α}
    (ha : taken ++ as <+: items) :
    Good threshold size order items (taken ++ as) (t.addAll threshold size as) := by
  induction as generalizing taken t with
  | nil => simpa [Batches.addAll] using h
  | cons a as ih =>
      rw [← List.singleton_append, ← List.append_assoc] at ha ⊢
      have hone : taken ++ [a] <+: items := (List.prefix_append _ as).trans ha
      exact ih (h.add hhandles hone) ha

/-- The runs of all items have just these items, and by an order that fits all
of them are sorted. -/
theorem Good.runs (h : t.Good threshold size order items taken) :
    t.runs.flatten.Perm taken ∧ ∀ rank, ItemOrder.Fits order rank items →
      ∀ l ∈ t.runs, NonDecreasing rank l := by
  rw [Batches.runs]
  split
  · next hs =>
    obtain ⟨-, hp, hn⟩ := h.sort_held hhandles
    have hc := h.conserved
    rw [hs] at hc
    refine ⟨?_, ?_⟩
    · simpa using hp.trans hc
    · intro rank hfits l hl
      rw [List.mem_singleton.mp hl]
      exact hn rank hfits
  next hs =>
  split
  · next hh =>
    refine ⟨?_, h.sorted⟩
    have hc := h.conserved
    rwa [hh, List.append_nil] at hc
  · have hsp := h.spill hhandles (h.reached hs)
    refine ⟨?_, hsp.sorted⟩
    have hc := hsp.conserved
    rwa [show t.spill.held = [] from rfl, List.append_nil] at hc

end Good

end Batches

end ExternalSort
