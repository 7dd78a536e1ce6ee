/-
A sort that comes to a good end has sorted its input.

Any call to the store may fail, and spills may fail and be tried again.  If the
ending that is heard is a good one, then nothing has failed that matters: the
input has ended well, all its items were accepted and are in the runs
(`RunGenerator.Conserves`), and the runs were read to their ends.  So what was
handed over is a sorted permutation of the input (`sorted_of_gather`).
-/
import ExternalSort.Proofs.Merge.Reading
import ExternalSort.Proofs.Sorter.Draining

namespace ExternalSort.Sorter

variable {S O α W : Type} [ItemOrder O α] [SpillStore W] {V : Honest W}
  {settings : Settings} {codec : Codec α} {order : O} {tag : UInt32} {w w₁ : W} {c : Course α}
  {out : List α}

/-- Of some items all are accepted, and `out` has the same ones, in order if the order is
one. -/
structure Sorted (order : O) (items out : List α) : Prop where
  accepted : (ItemOrder.screen order items).2 = items
  perm : out.Perm items
  nonDecreasing : ∀ rank, ItemOrder.Ranks order rank items → NonDecreasing rank out

/-- The merge of the runs of a whole input has sorted it, if it has come to a good end. -/
theorem Outcome.sorted (hopens : V.Opens) (hw : V.ok w) (hcodec : codec.RoundTrips (· ∈ c.items))
    (h : Outcome { settings, codec, order, tag } w c out .ended) :
    c.ending = .ended ∧ Sorted order c.items out := by
  generalize he : Ending.ended = e at h
  cases h with
  | unmerged => exact absurd he (by simp)
  | @merged b runs w' phase e hin hm =>
      subst he
      obtain ⟨hend, w₂, hadd, hclose⟩ := hin
      rw [Course.items_events] at hadd
      rw [Course.endingOf_events] at hend
      have hfresh := RunGenerator.Conserves.fresh hw settings codec order tag c.items
      obtain ⟨⟨stored, hall⟩, hacc⟩ := hfresh.addAll (List.prefix_refl c.items) hcodec hadd
      have hall : RunGenerator.Conserves V codec order c.items c.items b w₂ stored := hall
      have hacc : (ItemOrder.screen order c.items).2 = c.items := hacc
      obtain ⟨lists, hholds, hperm, hsorted⟩ := hall.close hcodec hclose
      generalize hf : Ending.ended = e at hm
      cases hm with
      | incomparable => exact absurd hf (by simp)
      | broken => exact absurd hf (by simp)
      | ended hout hnone hgood =>
          have hitems := Merge.courses_items hopens (hall.ok_close hcodec hclose) hholds hgood
          rw [Merge.reference, hitems] at hout
          rw [Merge.reference, hitems] at hnone
          subst hout
          refine ⟨Option.some.inj hend, hacc, ?_, ?_⟩
          · rw [hacc] at hperm
            exact (greedy_perm_of_done hnone).trans hperm
          · intro rank hrank
            have hpre := hrank c.items (List.prefix_refl _)
            rw [← hall.order_eq] at hpre
            have hin : ∀ l ∈ lists, ∀ a ∈ l, a ∈ (ItemOrder.screen order c.items).2 :=
              fun l hl a ha => hperm.subset (List.mem_flatten_of_mem hl ha)
            exact (greedy_spec hpre hin (hsorted rank hrank)).2.2

variable [FiniteProducer S α] [ForetoldProducer S α]

/-- **Whatever may fail in a sort, what is gathered of it up to a good ending is its input,
sorted.** -/
theorem sorted_of_gather (hopens : V.Opens) (hprepares : V.Prepares) (hw : V.ok w) {input : S}
    (hin : (Producer.supply input).Unheard)
    (hcodec : codec.RoundTrips (· ∈ (ForetoldProducer.course input).items)) {s : Sorter S O α}
    (hstart : start w settings codec order tag input = (.ok s, w₁)) {patience : Nat}
    {t : Sorter S O α × W}
    (hgather : Producer.gather patience (s, w₁) = (t, out, some .ended)) :
    (ForetoldProducer.course input).ending = .ended ∧
      Sorted order (ForetoldProducer.course input).items out := by
  have hcomes := start_comes hin hstart
  obtain ⟨-, hensure, hs⟩ := start_ok.mp hstart
  have hopen : (Producer.supply (s, w₁)).status ≠ .closed := by
    rw [hs]
    simp [Producer.supply, supply]
  obtain ⟨n, rfl, rfl, hend⟩ := Command.takeover_of_gather hopen hgather
  exact ((performAll_comes hcomes _).outcome hend).sorted hopens (hprepares hw hensure) hcodec

end ExternalSort.Sorter
