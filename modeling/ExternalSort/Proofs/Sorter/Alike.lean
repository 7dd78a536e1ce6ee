/-
A sort over stores that answer alike.

A sort removes files only when it is over or given up, and then nothing more
is read from a store.  So whatever is done with it, the same is heard over
both stores, and the sort has come to the same.
-/
import ExternalSort.Proofs.Merge.Alike
import ExternalSort.Proofs.Run.Alike
import ExternalSort.Proofs.Sorter.Actions

namespace ExternalSort.Sorter

variable {S O α W : Type} [FiniteProducer S α] [ItemOrder O α] [SpillStore W]
  {A : Alike W} {w w' : W} {b : RunGenerator O α} {o : Supply α}

/-! ## Turns -/

omit [FiniteProducer S α] [ItemOrder O α] in
theorem fail_twins (A : Alike W) (s : Sorter S O α) (w w' : W) (o : Supply α) (e : Failure) :
    A.TurnTwins Sorter.supply (s.fail w o e) (s.fail w' o e) :=
  ⟨rfl, .of_over rfl (o.finish_isOpen _)⟩

omit [FiniteProducer S α] in
theorem beginMerge_twins (s : Sorter S O α) (b : RunGenerator O α) (o : Supply α)
    (h : A.rel w w') :
    A.TurnTwins Sorter.supply (s.beginMerge w b o) (s.beginMerge w' b o) := by
  have hc := b.close_alike h
  rw [beginMerge, beginMerge]
  revert hc
  cases b.close w with
  | mk r w₁ =>
      cases b.close w' with
      | mk r' w₁' =>
          rintro ⟨hr, hw⟩
          obtain rfl : r = r' := hr
          cases r with
          | error e => exact fail_twins A s w₁ w₁' o e
          | ok runs =>
              have hd := Merge.drive_twins
                { (Merge.ofRuns b.order s.codec.decode runs).withSettings s.settings with
                  supply := o } (hw runs rfl)
              refine ⟨rfl, ?_, hd.events, hd.store⟩
              exact congrArg (fun m => ({ s with
                stage := .merging m
                files := (Run.paths runs).length
                runs := runs.length } : Sorter S O α)) hd.state

omit [FiniteProducer S α] in
theorem takeIn_twins (s : Sorter S O α) (b : RunGenerator O α) (o : Supply α)
    (es : List (Event α)) (h : A.rel w w') :
    A.TurnTwins Sorter.supply (s.takeIn w b o es) (s.takeIn w' b o es) := by
  have ha := b.addAll_alike h (Event.items es)
  rw [takeIn, takeIn]
  revert ha
  cases b.addAll w (Event.items es) with
  | mk r rest =>
      cases b.addAll w' (Event.items es) with
      | mk r' rest' =>
          obtain ⟨b₁, w₁⟩ := rest
          obtain ⟨b₁', w₁'⟩ := rest'
          rintro ⟨hr, hb, hw⟩
          obtain rfl : r = r' := hr
          obtain rfl : b₁ = b₁' := hb
          cases r with
          | error e => exact fail_twins A s _ _ o e
          | ok u =>
              dsimp only
              split
              · exact fail_twins A s _ _ o _
              · exact beginMerge_twins _ b₁ o (hw rfl)
              · exact ⟨rfl, rfl, rfl, fun _ => hw rfl⟩

theorem turn_twins (s : Sorter S O α) (h : A.rel w w') :
    A.TurnTwins Sorter.supply (turn (s, w)) (turn (s, w')) := by
  obtain ⟨settings, codec, input, stage, itemsRead, files, runs⟩ := s
  cases stage with
  | collecting heard b o =>
      unfold turn
      dsimp only
      split
      · exact ⟨rfl, .of_rel h⟩
      split
      · exact fail_twins A _ _ _ o _
      · exact beginMerge_twins _ b o h
      · exact takeIn_twins _ b o _ h
  | merging m => exact ⟨rfl, .of_rel h⟩
  | failed o => exact ⟨rfl, .of_rel h⟩
  | closed d => exact ⟨rfl, .of_rel h⟩

theorem drive_twins (s : Sorter S O α) (h : A.rel w w') :
    A.Twins Sorter.supply (s.drive w) (s.drive w') := by
  obtain ⟨settings, codec, input, stage, itemsRead, files, runs⟩ := s
  cases stage with
  | collecting heard b o => exact Turn.iterate_twins (fun s _ _ h => turn_twins s h) turn_again h
  | merging m =>
      have hd := Merge.drive_twins m h
      refine ⟨?_, hd.events, hd.store⟩
      exact congrArg (fun m => (⟨settings, codec, input, .merging m, itemsRead, files, runs⟩ :
        Sorter S O α)) hd.state
  | failed o => exact .of_rel h
  | closed d => exact .of_rel h

/-! ## Histories -/

/-- A sort has come to the same over two stores, and the same was heard. -/
def Same (A : Alike W) (x y : (Sorter S O α × W) × List (Heard W α)) : Prop :=
  InStep x.1.1 ∧ A.Twins Sorter.supply x y

variable {t u : Sorter S O α × W} {hs ks : List (Heard W α)}

theorem Same.changeDemand (h : Same A (t, hs) (u, ks)) (d : Demand.Change) :
    Same A (Producer.changeDemand t d, hs) (Producer.changeDemand u d, ks) := by
  obtain ⟨s, w⟩ := t
  obtain ⟨s', w'⟩ := u
  obtain ⟨hstep, hs, hes, hw⟩ := h
  obtain rfl : s = s' := hs
  have hsup := OrderlyProducer.supply_changeDemand (s, w) d
  refine ⟨withSupply_inStep hstep rfl, rfl, hes, ?_⟩
  show (Producer.supply (Producer.changeDemand (s, w) d)).isOpen = true → A.rel w w'
  rw [hsup]
  exact hw

theorem Same.subscribe (h : Same A (t, hs) (u, ks)) (k : Subscriber α) :
    Same A
      ((Producer.subscribe t k).1,
        hs ++ Heard.ofEvents (Producer.subscribe t k).1.2 (Producer.subscribe t k).2)
      ((Producer.subscribe u k).1,
        ks ++ Heard.ofEvents (Producer.subscribe u k).1.2 (Producer.subscribe u k).2) := by
  obtain ⟨s, w⟩ := t
  obtain ⟨s', w'⟩ := u
  obtain ⟨hstep, hs, hes, hw⟩ := h
  obtain rfl : s = s' := hs
  have hsup := OrderlyProducer.supply_subscribe (s, w) k
  refine ⟨withSupply_inStep hstep (Supply.isOpen_subscribe s.supply k), rfl, ?_, ?_⟩
  · rw [Heard.events_append, Heard.events_append, Heard.events_ofEvents, Heard.events_ofEvents]
    exact congrArg (· ++ _) hes
  · show (Producer.supply (Producer.subscribe (s, w) k).1).isOpen = true → A.rel w w'
    rw [hsup]
    intro ho
    exact hw ((Supply.isOpen_subscribe s.supply k).symm.trans ho)

theorem Same.drive (h : Same A (t, hs) (u, ks)) :
    Same A ((t.1.drive t.2).1, hs ++ (t.1.drive t.2).2)
      ((u.1.drive u.2).1, ks ++ (u.1.drive u.2).2) := by
  obtain ⟨s, w⟩ := t
  obtain ⟨s', w'⟩ := u
  obtain ⟨hstep, hs, hes, hw⟩ := h
  obtain rfl : s = s' := hs
  cases ho : s.supply.isOpen with
  | true =>
      have hd := drive_twins s (hw ho)
      refine ⟨drive_inStep hstep, hd.state, ?_, hd.store⟩
      rw [Heard.events_append, Heard.events_append, hd.events]
      exact congrArg (· ++ _) hes
  | false =>
      rw [drive_of_not_open hstep ho, drive_of_not_open hstep ho, List.append_nil, List.append_nil]
      exact ⟨hstep, rfl, hes, hw⟩

omit [FiniteProducer S α] [ItemOrder O α] in
theorem Same.close (h : Same A (t, hs) (u, ks)) :
    Same A (t.1.close t.2, hs) (u.1.close u.2, ks) := by
  obtain ⟨s, w⟩ := t
  obtain ⟨s', w'⟩ := u
  obtain ⟨-, hs, hes, -⟩ := h
  obtain rfl : s = s' := hs
  have hclosed : (s.close w).1.supply.isOpen = false := rfl
  exact ⟨trivial, rfl, hes, fun ho => absurd (hclosed.symm.trans ho) (by simp)⟩

theorem Same.deed (h : Same A (t, hs) (u, ks)) (d : Deed α) :
    Same A ((d.carryOut t).1, hs ++ (d.carryOut t).2)
      ((d.carryOut u).1, ks ++ (d.carryOut u).2) := by
  cases d with
  | subscribe k => exact h.subscribe k
  | change d =>
      rw [Deed.carryOut, Deed.carryOut, List.append_nil, List.append_nil]
      exact h.changeDemand d
  | drive => exact h.drive
  | close =>
      rw [Deed.carryOut, Deed.carryOut, List.append_nil, List.append_nil]
      exact h.close

/-- Whatever is done with a sort is done alike over both stores. -/
theorem Same.act (h : Same A (t, hs) (u, ks)) (a : Action α) :
    Same A ((act t a).1, hs ++ (act t a).2) ((act u a).1, ks ++ (act u a).2) := by
  obtain ⟨ds, -, hds⟩ := act_deeds (S := S) (O := O) (W := W) a
  rw [hds t, hds u]
  refine actAll_related ?_ h ds
  intro t u d hs ks h
  exact h.deed d

theorem Same.actAll (h : Same A (t, hs) (u, ks)) (acts : List (Action α)) :
    Same A ((actAll Sorter.act t acts).1, hs ++ (actAll Sorter.act t acts).2)
      ((actAll Sorter.act u acts).1, ks ++ (actAll Sorter.act u acts).2) := by
  refine actAll_related ?_ h acts
  intro t u a hs ks h
  exact h.act a

omit [ItemOrder O α] in
theorem start_same {settings : Settings} {codec : Codec α} {order : O} {tag : UInt32}
    {input : S} {s : Sorter S O α} {w₁ : W} (h : A.rel w w')
    (hs : start w settings codec order tag input = (.ok s, w₁)) :
    ∃ w₁', start w' settings codec order tag input = (.ok s, w₁') ∧
      Same A ((s, w₁), []) ((s, w₁'), []) := by
  have hstep := start_inStep hs
  obtain ⟨hcheck, hens, rfl⟩ := start_ok.mp hs
  obtain ⟨hr, hw⟩ := A.ensure settings.directory h
  rw [hens] at hr hw
  refine ⟨(SpillStore.ensureDirectory w' settings.directory).2, ?_, hstep, .of_rel hw⟩
  exact start_ok.mpr ⟨hcheck, Prod.ext hr.symm rfl, rfl⟩

end ExternalSort.Sorter
