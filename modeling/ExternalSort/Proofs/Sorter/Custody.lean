/-
The files of a sort.

The files that a sort has created pass from its generator to its merge.
Whatever is done with the sort, they are all that is left of its work in the
store, and when it is over, however that came about, they have been removed
(`Custody`).
-/
import ExternalSort.Proofs.Merge.Custody
import ExternalSort.Proofs.Run.Custody
import ExternalSort.Proofs.Sorter.Actions

namespace ExternalSort.Sorter

variable {S O α W : Type} [FiniteProducer S α] [ItemOrder O α] [SpillStore W]

/-- The files of a sort. -/
def owned (s : Sorter S O α) : List Path :=
  match s.stage with
  | .collecting _ b _ => b.owned
  | .merging m => m.files
  | .failed _ | .closed _ => []

variable {s : Sorter S O α} {w : W} {b : RunGenerator O α} {o : Supply α}

/-! ## Turns -/

omit [FiniteProducer S α] [ItemOrder O α] in
theorem fail_fate {ps : List Path} {w' : W} (h : Released w ps w') (s : Sorter S O α)
    (o : Supply α) (e : Failure) :
    Fate w ps (s.fail w' o e).events (s.fail w' o e).state.1.supply (s.fail w' o e).state.2
      (s.fail w' o e).state.1.owned :=
  .finish h o (.failed e)

omit [FiniteProducer S α] in
theorem beginMerge_fate (s : Sorter S O α) (w : W) (b : RunGenerator O α)
    (ho : o.isOpen = true) :
    Fate w b.owned (s.beginMerge w b o).events (s.beginMerge w b o).state.1.supply
      (s.beginMerge w b o).state.2 (s.beginMerge w b o).state.1.owned := by
  have hc := b.close_leaves w
  rw [beginMerge]
  revert hc
  cases b.close w with
  | mk r w' =>
      cases r with
      | error e =>
          intro hr
          exact fail_fate hr s o e
      | ok runs =>
          intro hw
          have hd := Merge.drive_fate (w := w')
            (m := { (Merge.ofRuns b.order s.codec.decode runs).withSettings s.settings with
              supply := o })
            (Merge.inStep_of_open rfl ho) ho
          exact hd.after hw fun _ hm => absurd hm List.not_mem_nil

omit [FiniteProducer S α] in
theorem takeIn_fate (s : Sorter S O α) (w : W) (b : RunGenerator O α) (ho : o.isOpen = true)
    (es : List (Event α)) :
    Fate w b.owned (s.takeIn w b o es).events (s.takeIn w b o es).state.1.supply
      (s.takeIn w b o es).state.2 (s.takeIn w b o es).state.1.owned := by
  have ha := b.addAll_leaves w (Event.items es)
  rw [takeIn]
  revert ha
  cases b.addAll w (Event.items es) with
  | mk r rest =>
      obtain ⟨b', w'⟩ := rest
      cases r with
      | error e =>
          intro hl
          exact fail_fate hl.discard s o e
      | ok u =>
          intro hw
          have hu : Heard.Unended ([] : List (Heard W α)) := fun _ hm => absurd hm List.not_mem_nil
          dsimp only
          split
          · next e _ =>
            exact fail_fate ((Released.of_files w' b'.owned).after hw) s o (.ofInput e)
          · exact (beginMerge_fate _ w' b' ho).after hw hu
          · exact .goesOn hw ho hu

theorem turn_fate (t : Sorter S O α × W) (ho : t.1.supply.isOpen = true) :
    Fate t.2 t.1.owned (turn t).events (turn t).state.1.supply (turn t).state.2
      (turn t).state.1.owned := by
  obtain ⟨⟨settings, codec, input, stage, itemsRead, files, runs⟩, w⟩ := t
  cases stage with
  | collecting heard b o =>
      have ho : o.isOpen = true := ho
      rw [turn]
      dsimp only
      split
      · exact .rest w b.owned ho
      split
      · exact fail_fate (.of_files w b.owned) _ o _
      · exact beginMerge_fate _ w b ho
      · exact takeIn_fate _ w b ho _
  | merging m => exact .rest w m.files ho
  | failed o => exact .rest w [] ho
  | closed d => exact .rest w [] ho

/-- What becomes of the files of a sort when it is driven. -/
theorem drive_fate (h : InStep s) (ho : s.supply.isOpen = true) :
    Fate w s.owned (s.drive w).2 (s.drive w).1.1.supply (s.drive w).1.2 (s.drive w).1.1.owned := by
  cases hst : s.stage with
  | collecting heard b o =>
      rw [drive, hst]
      exact Turn.iterate_fate turn_fate turn_again (s, w) ho
  | merging m =>
      have hm : m.InStep := by simpa [InStep, hst] using h
      have ho : m.supply.isOpen = true := by simpa [supply, hst] using ho
      rw [drive, hst, owned, hst]
      exact Merge.drive_fate hm ho
  | failed o =>
      rw [drive, hst]
      exact .rest w s.owned ho
  | closed d =>
      rw [drive, hst]
      exact .rest w s.owned ho

/-! ## Histories -/

/-- What has become of a sort that started in the store `w`: it goes on, with
files that its work has left, or it is over, and its files were removed
before its ending was heard. -/
def Custody (w : W) (t : Sorter S O α × W) (hs : List (Heard W α)) : Prop :=
  InStep t.1 ∧ Fate w [] hs t.1.supply t.2 t.1.owned

omit [FiniteProducer S α] [ItemOrder O α] [SpillStore W] in
theorem owned_withSupply (s : Sorter S O α) (o : Supply α) : (s.withSupply o).owned = s.owned := by
  obtain ⟨settings, codec, input, stage, itemsRead, files, runs⟩ := s
  cases stage <;> rfl

theorem Custody.changeDemand {t : Sorter S O α × W} {hs : List (Heard W α)}
    (h : Custody w t hs) (d : Demand.Change) : Custody w (Producer.changeDemand t d) hs := by
  obtain ⟨hstep, hf⟩ := h
  have hsup := OrderlyProducer.supply_changeDemand t d
  refine ⟨withSupply_inStep hstep rfl, ?_⟩
  show Fate w [] hs (Producer.supply (Producer.changeDemand t d)) t.2 (t.1.withSupply _).owned
  rw [hsup, owned_withSupply]
  cases hf with
  | goesOn hw ho hu => exact .goesOn hw ho hu
  | finished hr ho hp hu => exact .finished hr ho hp hu

/-- Who subscribes to a sort hears of an ending only when the sort is over. -/
theorem Custody.subscribe {t : Sorter S O α × W} {hs : List (Heard W α)} (h : Custody w t hs)
    (k : Subscriber α) :
    Custody w (Producer.subscribe t k).1
      (hs ++ Heard.ofEvents (Producer.subscribe t k).1.2 (Producer.subscribe t k).2) := by
  obtain ⟨hstep, hf⟩ := h
  have hsup := OrderlyProducer.supply_subscribe t k
  have hopen : (Producer.supply (Producer.subscribe t k).1).isOpen = t.1.supply.isOpen := by
    rw [hsup]
    exact Supply.isOpen_subscribe t.1.supply k
  refine ⟨withSupply_inStep hstep (Supply.isOpen_subscribe t.1.supply k), ?_⟩
  show Fate w [] _ (Producer.supply (Producer.subscribe t k).1) t.2 (t.1.withSupply _).owned
  rw [owned_withSupply]
  cases hf with
  | goesOn hw ho hu =>
      have hnone : (Producer.subscribe t k).2 = [] :=
        (Supply.subscribe_of_open (Supply.isOpen_iff.mp ho) k).2.2
      rw [hnone]
      refine .goesOn hw (hopen.trans ho) ?_
      rwa [Heard.ofEvents, List.map_nil, List.append_nil]
  | finished hr ho hp hu =>
      refine .finished hr (hopen.trans ho) hp ?_
      intro e he hne
      rcases List.mem_append.mp he with he | he
      · exact hu e he hne
      · obtain ⟨ev, -, rfl⟩ := List.mem_map.mp he
        rfl

theorem Custody.drive {t : Sorter S O α × W} {hs : List (Heard W α)} (h : Custody w t hs) :
    Custody w (t.1.drive t.2).1 (hs ++ (t.1.drive t.2).2) := by
  obtain ⟨hstep, hf⟩ := h
  cases ho : t.1.supply.isOpen with
  | true =>
      refine ⟨drive_inStep hstep, ?_⟩
      cases hf with
      | goesOn hw _ hu => exact (drive_fate hstep ho).after hw hu
      | finished _ hc => exact absurd (ho.symm.trans hc) (by simp)
  | false =>
      rw [drive_of_not_open hstep ho, List.append_nil]
      exact ⟨hstep, hf⟩

omit [FiniteProducer S α] [ItemOrder O α] in
theorem discard_eq (s : Sorter S O α) (w : W) :
    s.discard w = SpillStore.removeAll w s.owned := by
  obtain ⟨settings, codec, input, stage, itemsRead, files, runs⟩ := s
  cases stage <;> rfl

omit [FiniteProducer S α] [ItemOrder O α] in
theorem Custody.released {t : Sorter S O α × W} {hs : List (Heard W α)} (h : Custody w t hs) :
    Released w [] (t.1.discard t.2) := by
  rw [discard_eq]
  cases h.2 with
  | goesOn hw => exact (Released.of_files t.2 t.1.owned).after hw
  | finished hr _ hp =>
      rw [hp]
      exact hr

omit [FiniteProducer S α] [ItemOrder O α] in
theorem Custody.close {t : Sorter S O α × W} {hs : List (Heard W α)} (h : Custody w t hs) :
    Custody w (t.1.close t.2) hs := by
  refine ⟨trivial, .finished h.released rfl rfl ?_⟩
  intro e he hne
  cases h.2 with
  | goesOn _ _ hu => exact absurd (hu e he) hne
  | finished _ _ hp hu =>
      show e.store = t.1.discard t.2
      rw [discard_eq, hp]
      exact hu e he hne

theorem Custody.deed {t : Sorter S O α × W} {hs : List (Heard W α)} (h : Custody w t hs)
    (d : Deed α) : Custody w (d.carryOut t).1 (hs ++ (d.carryOut t).2) := by
  cases d with
  | subscribe k => exact h.subscribe k
  | change d =>
      rw [Deed.carryOut, List.append_nil]
      exact h.changeDemand d
  | drive => exact h.drive
  | close =>
      rw [Deed.carryOut, List.append_nil]
      exact h.close

theorem Custody.actAll {t : Sorter S O α × W} (h : Custody w t []) (acts : List (Action α)) :
    Custody w (actAll Sorter.act t acts).1 (actAll Sorter.act t acts).2 :=
  actAll_of_deeds (P := Custody w) (fun d _ _ _ ht => ht.deed d) h

omit [ItemOrder O α] in
theorem start_custody {w' : W} {settings : Settings} {codec : Codec α} {order : O} {tag : UInt32}
    {input : S} (h : start w settings codec order tag input = (.ok s, w')) :
    Custody w' (s, w') [] := by
  refine ⟨start_inStep h, ?_⟩
  obtain ⟨-, -, rfl⟩ := start_ok.mp h
  exact .rest w' [] rfl

end ExternalSort.Sorter
