/-
Generators that are not alone in their store.

What lies in the files of a generator does not mind what happens to any other
file, be it created, changed or removed (`Conserves.elsewhere`), and a generator
keeps every file that it has (`owned_add`).
-/
import ExternalSort.Proofs.Run.Conservation
import ExternalSort.Proofs.Run.Custody

namespace ExternalSort

variable {O α W : Type}

/-! ## Files and runs -/

theorem SpillFile.Holds.congr {files files' : Path → Option (List UInt8)}
    {decode : List UInt8 → Except Cause α} {f : SpillFile} {items : List α}
    (h : f.Holds files decode items) (hf : files' f.path = files f.path) :
    f.Holds files' decode items where
  content := by
    obtain ⟨bs, hbs, hrest⟩ := h.content
    exact ⟨bs, hf.trans hbs, hrest⟩
  items_eq := h.items_eq

/-- Runs hold what they held if none of their files has changed. -/
theorem Run.holds_congr {files files' : Path → Option (List UInt8)}
    {decode : List UInt8 → Except Cause α} {runs : List (Run α)} {lists : List (List α)}
    (h : List.Forall₂ (Run.Holds files decode) runs lists)
    (hf : ∀ p ∈ Run.paths runs, files' p = files p) :
    List.Forall₂ (Run.Holds files' decode) runs lists := by
  have hmem : ∀ run ∈ runs, ∀ p, run.path? = some p → files' p = files p :=
    fun run hrun p hp => hf p (List.mem_filterMap.mpr ⟨run, hrun, hp⟩)
  refine ((List.forall₂_and_left runs lists).mpr ⟨hmem, h⟩).imp ?_
  rintro run items ⟨hrun, hholds⟩
  cases run with
  | memory as => exact hholds
  | file f => exact hholds.congr (hrun f.path rfl)

namespace RunGenerator

variable [SpillStore W] {V : Honest W} {codec : Codec α} {b : RunGenerator O α} {w w' : W}
  {stored : List (List α)}

/-- The files of a generator hold what they held if none of them has changed. -/
theorem Stored.elsewhere (h : Stored V codec b w stored) (hw : V.ok w')
    (hfiles : ∀ p ∈ b.owned, V.files w' p = V.files w p) : Stored V codec b w' stored where
  ok := hw
  codec_eq := h.codec_eq
  holds := by
    have hmem : ∀ f ∈ b.files, V.files w' f.path = V.files w f.path :=
      fun f hf => hfiles f.path (List.mem_map_of_mem hf)
    refine ((List.forall₂_and_left b.files stored).mpr ⟨hmem, h.holds⟩).imp ?_
    rintro f items ⟨hf, hholds⟩
    exact hholds.congr hf
  rising := h.rising
  below := h.below

variable [ItemOrder O α] {order : O} {items items' shown : List α}

omit [SpillStore W] in
theorem ranks_of_first {rank : α → α → Ordering} (hr : ItemOrder.Ranks order rank items')
    (hp : items <+: items') : ItemOrder.Ranks order rank items := by
  intro shown hshown
  have hpre := hr shown (hshown.trans hp)
  exact
    { compare := fun ha hb => hpre.compare (accepted_subset hp ha) (accepted_subset hp hb)
      swap := fun ha hb => hpre.swap (accepted_subset hp ha) (accepted_subset hp hb)
      trans := fun ha hb hc =>
        hpre.trans (accepted_subset hp ha) (accepted_subset hp hb) (accepted_subset hp hc) }

theorem Conserves.widen (h : Conserves V codec order items shown b w stored)
    (hp : items <+: items') : Conserves V codec order items' shown b w stored where
  inFiles := h.inFiles
  order_eq := h.order_eq
  conserved := h.conserved
  sorted rank hrank := h.sorted rank (ranks_of_first hrank hp)

/-- What happens to other files loses nothing. -/
theorem Conserves.elsewhere (h : Conserves V codec order items shown b w stored) (hw : V.ok w')
    (hfiles : ∀ p ∈ b.owned, V.files w' p = V.files w p) :
    Conserves V codec order items shown b w' stored where
  inFiles := h.inFiles.elsewhere hw hfiles
  order_eq := h.order_eq
  conserved := h.conserved
  sorted := h.sorted

theorem owned_spill (b : RunGenerator O α) (w : W) : b.owned ⊆ (b.spill w).2.1.owned := by
  have hsp := b.spilled w
  generalize b.spill w = r at hsp
  cases hsp with
  | unsorted => exact List.Subset.refl _
  | uncreated => exact List.Subset.refl _
  | unwritten => exact List.Subset.refl _
  | written => exact List.map_subset _ (List.subset_append_left b.files _)

theorem owned_add (b : RunGenerator O α) (w : W) (a : α) : b.owned ⊆ (b.add w a).2.1.owned := by
  cases ha : ItemOrder.accept b.order a with
  | error e =>
      rw [add_refused ha]
      exact List.Subset.refl _
  | ok o =>
      rw [add_accepted ha]
      split
      · exact owned_spill (b.hold o a) w
      · exact List.Subset.refl _

end RunGenerator

end ExternalSort
