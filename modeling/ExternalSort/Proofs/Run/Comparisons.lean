/-
What a generator sorts.

All that a generator holds was accepted by its order.  So if an order does not
contradict itself about what it has accepted (`ItemOrder.IsConsistent`), no sort
of a generator is aborted, neither while items are taken in
(`Accepted.addAllReturns`) nor at the end (`Accepted.closeReturns`).
-/
import ExternalSort.Proofs.Run.Batches
import ExternalSort.Proofs.Run.Offering

namespace ExternalSort

section Orders

variable {O α : Type} [ItemOrder O α] {o : O} {items : List α}

/-- Whatever an order has accepted of some items, from the first on, its answers about
that do not contradict each other. -/
def ItemOrder.IsConsistent (o : O) (items : List α) : Prop :=
  ∀ taken o', taken <+: items → ItemOrder.acceptFrom o 0 taken = .ok o' →
    Consistent (ItemOrder.compare o') taken

theorem ItemOrder.Fits.isConsistent {rank : α → α → Ordering} (h : ItemOrder.Fits o rank items) :
    ItemOrder.IsConsistent o items := by
  intro taken o' htaken ho
  obtain ⟨o'', ho', hp⟩ := h taken htaken
  obtain rfl := Except.ok.inj (ho.symm.trans ho')
  exact hp.consistent fun a ha => htaken.subset ha

end Orders

namespace RunGenerator

variable {O α W : Type} [ItemOrder O α] [SpillStore W]

variable {order o : O} {b b' : RunGenerator O α} {w w' : W} {taken items all : List α}

/-- A generator that has taken some items in, and holds no others. -/
structure Accepted (order : O) (taken : List α) (b : RunGenerator O α) : Prop where
  noted : ItemOrder.acceptFrom order 0 taken = .ok b.order
  held : ∀ a ∈ b.buffer.toList, a ∈ taken

theorem Accepted.hold (h : Accepted order taken b) {a : α}
    (ha : ItemOrder.accept b.order a = .ok o) : Accepted order (taken ++ [a]) (b.hold o a) where
  noted := by
    rw [Batches.acceptFrom_append, h.noted]
    simp only [Except.bind, ItemOrder.acceptFrom, ha]
    rfl
  held := by
    intro c hc
    have hc : c ∈ (b.buffer.push a).toList := hc
    rw [Array.toList_push] at hc
    rcases List.mem_append.mp hc with hc | hc
    · exact List.mem_append_left _ (h.held c hc)
    · exact List.mem_append_right _ hc

theorem Accepted.add (h : Accepted order taken b) {a : α} (hadd : b.add w a = (.ok (), b', w')) :
    Accepted order (taken ++ [a]) b' := by
  cases ha : ItemOrder.accept b.order a with
  | error e =>
      rw [add_refused ha] at hadd
      exact absurd (Prod.mk.inj hadd).1 (by simp)
  | ok o =>
      rw [add_accepted ha] at hadd
      split at hadd
      · have hs := (b.hold o a).spilled w
        rw [hadd] at hs
        cases hs with
        | written => exact ⟨(h.hold ha).noted, fun _ hc => absurd hc (by simp)⟩
      · obtain ⟨-, hrest⟩ := Prod.mk.inj hadd
        obtain ⟨rfl, rfl⟩ := Prod.mk.inj hrest
        exact h.hold ha

theorem Accepted.addAll (h : Accepted order taken b) (hadd : b.addAll w items = (.ok (), b', w')) :
    Accepted order (taken ++ items) b' := by
  induction items generalizing b w taken with
  | nil =>
      obtain ⟨-, hrest⟩ := Prod.mk.inj hadd
      obtain ⟨rfl, rfl⟩ := Prod.mk.inj hrest
      rwa [List.append_nil]
  | cons a items ih =>
      rw [RunGenerator.addAll] at hadd
      split at hadd
      · exact absurd (Prod.mk.inj hadd).1 (by simp)
      · next ha =>
        have := ih (h.add ha) hadd
        rwa [List.append_assoc] at this

section Returning

variable (hc : ItemOrder.IsConsistent order all)
include hc

theorem Accepted.sortReturns (h : Accepted order taken b) (ht : taken <+: all) :
    b.sortReturns = true := by
  have hne := ((hc taken b.order ht h.noted).subset h.held).sortBy_ne_aborted
  rw [RunGenerator.sortReturns, Bool.not_eq_true']
  cases hs : sortBy (ItemOrder.compare b.order) b.buffer.toList with
  | done sorted => rfl
  | failed e => rfl
  | aborted => exact absurd hs hne

theorem Accepted.closeReturns (h : Accepted order taken b) (ht : taken <+: all) :
    b.closeReturns = true := by
  rw [RunGenerator.closeReturns, h.sortReturns hc ht, ite_self]

theorem Accepted.addReturns (h : Accepted order taken b) {a : α} (ht : taken ++ [a] <+: all) :
    b.addReturns a = true := by
  rw [RunGenerator.addReturns]
  split
  · rfl
  · next o ha =>
    dsimp only
    rw [(h.hold ha).sortReturns hc ht, ite_self]

theorem Accepted.addAllReturns (h : Accepted order taken b) (ht : taken ++ items <+: all) :
    b.addAllReturns w items = true := by
  induction items generalizing b w taken with
  | nil => rfl
  | cons a items ih =>
      have hall : taken ++ [a] ++ items <+: all := by simpa using ht
      rw [RunGenerator.addAllReturns, h.addReturns hc ((List.prefix_append _ _).trans hall),
        Bool.true_and]
      split
      · rfl
      · next hadd => exact ih (h.add hadd) hall

end Returning

end RunGenerator

end ExternalSort
