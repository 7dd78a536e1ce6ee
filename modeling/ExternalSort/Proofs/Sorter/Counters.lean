/-
What a sort counts.

A sort tells how many items it has taken from its input, how many files it has
written, and how many items it has handed over.  Each count has another owner in
each stage, and a stage that is left has to pass it on.  Items are counted batch by
batch, once the whole batch is taken in; so those that come together with the error
of the input are not counted (`items_taken_are_counted`).  A sort that merges was
told how many files were written; one that gives its reading up forgets them, and
one that is closed forgets what it has handed over (`progress_is_counted`).
-/
import ExternalSort.Proofs.Sorter.Verdict
import ExternalSort.Proofs.Stream.Balance
import ExternalSort.Proofs.Stream.Delivery
import ExternalSort.Stream.Scripted

namespace ExternalSort.Sorter

variable {S O α W : Type} [ItemOrder O α] [SpillStore W]

/-- All that an input has let out is taken in: its items are accepted, and spilled
where that is due, and it has not failed. -/
structure TakenIn (b : RunGenerator O α) (w : W) (es : List (Event α)) : Prop where
  accepted : (b.addAll w (Event.items es)).1 = .ok ()
  unfailed : ∀ e, Event.endingOf es ≠ some (.failed e)

/-- How many files are written with what an input has let out: one for each spill
that is done, and when the input has ended, one for what is still held then. -/
def spillsFor (b : RunGenerator O α) (w : W) (es : List (Event α)) : Nat :=
  b.spillsDone w (Event.items es) +
    match b.addAll w (Event.items es), Event.endingOf es with
    | (.ok (), b, w), some .ended => b.closingSpills w
    | _, _ => 0

theorem IsIn.spillsFor_eq {b b' : RunGenerator O α} {w w' : W} {es : List (Event α)}
    {runs : List (Run α)} (h : IsIn b w es b' runs w') (hb : b.files = []) :
    (Run.paths runs).length = spillsFor b w es := by
  obtain ⟨w₁, hadd, hclose⟩ := h.closed
  have hfiles := b.addAll_files w (Event.items es)
  rw [hadd, hb, List.length_nil, Nat.zero_add] at hfiles
  rw [RunGenerator.close_files hclose, spillsFor, hadd, h.ended, ← hfiles]

/-! ## Batches -/

variable [FiniteProducer S α]

section Tally

variable (input : S) (b : RunGenerator O α) (w : W)

/-- How many items are counted after `n` batches: all of them, or those of the batches
before the last one if something went wrong with it. -/
structure Counts (n k : Nat) : Prop where
  all : TakenIn b w (letOut input n).2 → k = (Event.items (letOut input n).2).length
  butLast : ¬TakenIn b w (letOut input n).2 → k = (Event.items (letOut input (n - 1)).2).length

/-- A sort that was not told of any files. -/
structure Untold (s : Sorter S O α) : Prop where
  files : s.files = 0
  runs : s.runs = 0

/-- The counts of a sort that has read `n` batches of its input. -/
inductive Tally (n : Nat) (t : Sorter S O α × W) : Prop
  | reading : Reading input b w (fun _ => True) n t → Counts input b w n t.1.itemsRead →
      t.1.Untold → Tally n t
  | gaveUp : t.1.input = (letOut input n).1 → t.1.GivenUp → Counts input b w n t.1.itemsRead →
      t.1.Untold → Tally n t
  | merging {b' : RunGenerator O α} {runs : List (Run α)} {w' : W} :
      t.1.input = (letOut input n).1 → t.1.PastReading →
      IsIn b w (letOut input n).2 b' runs w' → Counts input b w n t.1.itemsRead →
      t.1.files = (Run.paths runs).length → t.1.runs = runs.length → Tally n t

end Tally

variable {input : S} {b b' : RunGenerator O α} {w w' : W} {n : Nat} {s : Sorter S O α}
  {o : Supply α} {t : Sorter S O α × W}

omit [ItemOrder O α] [SpillStore W] in
theorem letOut_zero_items (input : S) : Event.items (letOut input 0).2 = [] := by
  simp only [letOut, takeBatches, List.append_nil]
  exact Supply.items_subscribe _ _

theorem Counts.of_takenIn {k : Nat} (h : TakenIn b w (letOut input n).2)
    (hk : k = (Event.items (letOut input n).2).length) : Counts input b w n k :=
  ⟨fun _ => hk, fun hn => absurd h hn⟩

theorem Counts.of_not_takenIn {k : Nat} (h : ¬TakenIn b w (letOut input n).2)
    (hk : k = (Event.items (letOut input (n - 1)).2).length) : Counts input b w n k :=
  ⟨fun hy => absurd hy h, fun _ => hk⟩

/-- A sort that reads has counted all that it has got.  Where the input has failed
before that, it had not let anything out. -/
theorem Counts.eq_of_reading {k : Nat} (h : Counts input b w n k)
    (hr : Reading input b w (fun _ => True) n t) :
    k = (Event.items (letOut input n).2).length := by
  by_cases hall : TakenIn b w (letOut input n).2
  · exact h.all hall
  obtain ⟨b', o, -, hadd, -⟩ := hr.stage
  have hend : Event.endingOf (letOut input n).2 ≠ none := by
    intro hnone
    refine hall ⟨congrArg Prod.fst hadd, fun e he => ?_⟩
    exact absurd (hnone.symm.trans he) (by simp)
  have hk := h.butLast hall
  rwa [hr.ended_before hend] at hk ⊢

/-! ## Turns -/

theorem fail_tally (hin : s.input = (letOut input n).1) (hc : o.canSend = true)
    (hk : Counts input b w n s.itemsRead) (hf : s.Untold) (e : Failure) :
    Tally input b w n (s.fail w' o e).state := by
  obtain ⟨ho, hsub, -⟩ := Supply.canSend_iff.mp hc
  refine .gaveUp hin ⟨.failed e, ?_⟩ hk ⟨hf.files, hf.runs⟩
  show (o.finish (.failed e)).1.status = _
  rw [(Supply.finish_of_open ho _).1, Supply.raisedTo, if_pos hsub]

theorem beginMerge_tally (hin : s.input = (letOut input n).1) (hc : o.canSend = true)
    (hk : Counts input b w n s.itemsRead) (hf : s.Untold)
    (hadd : b.addAll w (Event.items (letOut input n).2) = (.ok (), b', w'))
    (hend : Event.endingOf (letOut input n).2 = some .ended) :
    Tally input b w n (s.beginMerge w' b' o).state := by
  rw [beginMerge]
  split
  · exact fail_tally hin hc hk hf _
  · next runs w₂ hclose => exact .merging hin trivial ⟨hend, _, hadd, hclose⟩ hk rfl rfl

/-- A batch is counted when all its items are taken in, unless the input fails with
it. -/
theorem takeIn_tally (hc : o.canSend = true)
    (hadd : b.addAll w (Event.items (letOut input n).2) = (.ok (), b', w'))
    (hopen : Event.endingOf (letOut input n).2 = none)
    (hk : s.itemsRead = (Event.items (letOut input n).2).length) (hf : s.Untold)
    {es : List (Event α)} (hnext : letOut input (n + 1) = (s.input, (letOut input n).2 ++ es)) :
    Tally input b w (n + 1) (s.takeIn w' b' o es).state := by
  have hin : s.input = (letOut input (n + 1)).1 := (congrArg Prod.fst hnext).symm
  have hout : (letOut input (n + 1)).2 = (letOut input n).2 ++ es := congrArg Prod.snd hnext
  have hitems : Event.items (letOut input (n + 1)).2 =
      Event.items (letOut input n).2 ++ Event.items es := by
    rw [hout, Event.items_append]
  have hending : Event.endingOf (letOut input (n + 1)).2 = Event.endingOf es := by
    rw [hout, Event.endingOf, List.findSome?_append]
    exact congrArg (Option.or · _) hopen
  have hall := RunGenerator.addAll_append hadd (Event.items es)
  rw [← hitems] at hall
  have hmore : s.itemsRead + (Event.items es).length =
      (Event.items (letOut input (n + 1)).2).length := by
    rw [hk, hitems, List.length_append]
  rw [takeIn]
  split
  · next e b'' w'' hb =>
    rw [hb] at hall
    have hnot : ¬TakenIn b w (letOut input (n + 1)).2 := by
      intro h
      exact absurd ((congrArg Prod.fst hall).symm.trans h.accepted) (by simp)
    exact fail_tally hin hc (.of_not_takenIn hnot hk) hf e
  · next b'' w'' hb =>
    rw [hb] at hall
    split
    · next e hend =>
      have hnot : ¬TakenIn b w (letOut input (n + 1)).2 :=
        fun h => h.unfailed e (hending.trans hend)
      exact fail_tally hin hc (.of_not_takenIn hnot hk) hf _
    · next hend =>
      have hend := hending.trans hend
      have htaken : TakenIn b w (letOut input (n + 1)).2 :=
        ⟨congrArg Prod.fst hall, fun e he => absurd (hend.symm.trans he) (by simp)⟩
      exact beginMerge_tally (s := { s with itemsRead := _ }) hin hc (.of_takenIn htaken hmore)
        ⟨hf.files, hf.runs⟩ hall hend
    · next hend =>
      have hend := hending.trans hend
      have htaken : TakenIn b w (letOut input (n + 1)).2 :=
        ⟨congrArg Prod.fst hall, fun e he => absurd (hend.symm.trans he) (by simp)⟩
      refine .reading ?_ (.of_takenIn htaken hmore) ⟨hf.files, hf.runs⟩
      exact
        { input_eq := hin
          stage := ⟨b'', o, by rw [hend], hall, (Supply.canSend_iff.mp hc).1, fun _ _ => trivial⟩
          ended_before := fun h => absurd hend h }

theorem Reading.turn_tally (hr : Reading input b w (fun _ => True) n t)
    (hk : Counts input b w n t.1.itemsRead) (hf : t.1.Untold) :
    ∃ m, Tally input b w m (Sorter.turn t).state := by
  have hcount := hk.eq_of_reading hr
  obtain ⟨s, w'⟩ := t
  obtain ⟨b', o, hst, hadd, -⟩ := hr.stage
  have hst : s.stage = .collecting (Event.endingOf (letOut input n).2) b' o := hst
  rw [Sorter.turn]
  simp only [hst]
  split
  · exact ⟨n, .reading hr hk hf⟩
  next hc =>
    have hc : o.canSend = true := by simpa using hc
    split
    · exact ⟨n, fail_tally hr.input_eq hc hk hf _⟩
    · next hend => exact ⟨n, beginMerge_tally hr.input_eq hc hk hf hadd hend⟩
    · next hopen =>
      have hnext : letOut input (n + 1) =
          ((Producer.drive s.askInput).1,
            (letOut input n).2 ++ (Producer.drive s.askInput).2) := by
        rw [letOut_succ, drive_askInput, ← hr.input_eq]
      exact ⟨n + 1, takeIn_tally (s := { s with input := (Producer.drive s.askInput).1 }) hc hadd
        hopen hcount ⟨hf.files, hf.runs⟩ hnext⟩

/-! ## Sorts that do not read any more -/

theorem Reading.phase_eq {asks : Subscriber α → Prop}
    (h : Reading input b w asks n t) : t.1.phase = .collecting := by
  obtain ⟨b', o, hst, -⟩ := h.stage
  rw [phase, hst]

omit [FiniteProducer S α] [ItemOrder O α] [SpillStore W] in
theorem GivenUp.phase_ne (h : s.GivenUp) : s.phase ≠ .collecting := by
  obtain ⟨settings, codec, input, stage, itemsRead, files, runs⟩ := s
  cases stage with
  | collecting heard b o => exact h.elim
  | merging m => exact h.elim
  | failed o => simp [phase]
  | closed o => simp [phase]

omit [FiniteProducer S α] [ItemOrder O α] [SpillStore W] in
theorem PastReading.phase_ne (h : s.PastReading) : s.phase ≠ .collecting := by
  obtain ⟨settings, codec, input, stage, itemsRead, files, runs⟩ := s
  cases stage with
  | collecting heard b o => exact h.elim
  | merging m =>
      rw [phase]
      dsimp only
      split <;> simp
  | failed o => exact h.elim
  | closed o => simp [phase]

theorem turn_of_not_reading (h : t.1.phase ≠ .collecting) : turn t = .rest t := by
  obtain ⟨⟨settings, codec, input, stage, itemsRead, files, runs⟩, w⟩ := t
  cases stage with
  | collecting heard b o => exact absurd rfl h
  | merging m => rfl
  | failed o => rfl
  | closed o => rfl

theorem carryOut_of_not_reading (h : t.1.phase ≠ .collecting) (d : Deed α) :
    (d.carryOut t).1.1.itemsRead = t.1.itemsRead ∧ (d.carryOut t).1.1.files = t.1.files ∧
      (d.carryOut t).1.1.runs = t.1.runs ∧
      (d.carryOut t).1.1.filesWritten = t.1.filesWritten ∧
      (d.carryOut t).1.1.phase ≠ .collecting := by
  obtain ⟨⟨settings, codec, input, stage, itemsRead, files, runs⟩, w⟩ := t
  have hmerging : ∀ m : Merge O α,
      PastReading ({ settings, codec, input, stage := .merging m, itemsRead, files, runs } :
        Sorter S O α) := fun m => trivial
  cases stage with
  | collecting heard b o => exact absurd rfl h
  | merging m =>
      cases d with
      | close => exact ⟨rfl, rfl, rfl, rfl, by simp [Deed.carryOut, close, phase]⟩
      | _ => exact ⟨rfl, rfl, rfl, rfl, (hmerging _).phase_ne⟩
  | failed o =>
      have hfailed : SorterPhase.failed ≠ .collecting := by simp
      have hclosed : SorterPhase.closed ≠ .collecting := by simp
      cases d with
      | close => exact ⟨rfl, rfl, rfl, rfl, hclosed⟩
      | _ => exact ⟨rfl, rfl, rfl, rfl, hfailed⟩
  | closed o =>
      have hclosed : SorterPhase.closed ≠ .collecting := by simp
      cases d <;> exact ⟨rfl, rfl, rfl, rfl, hclosed⟩

theorem Tally.turn (h : Tally input b w n t) : ∃ m, Tally input b w m (Sorter.turn t).state := by
  cases h with
  | reading hr hk hf => exact hr.turn_tally hk hf
  | gaveUp hin hg hk hf =>
      rw [turn_of_not_reading hg.phase_ne]
      exact ⟨n, .gaveUp hin hg hk hf⟩
  | merging hin hp hall hk hf hr =>
      rw [turn_of_not_reading hp.phase_ne]
      exact ⟨n, .merging hin hp hall hk hf hr⟩

/-! ## Schedules -/

omit [FiniteProducer S α] [ItemOrder O α] [SpillStore W] in
theorem withSupply_counts (s : Sorter S O α) (o : Supply α) :
    (s.withSupply o).itemsRead = s.itemsRead ∧ (s.withSupply o).files = s.files ∧
      (s.withSupply o).runs = s.runs := by
  obtain ⟨settings, codec, input, stage, itemsRead, files, runs⟩ := s
  cases stage <;> exact ⟨rfl, rfl, rfl⟩

theorem Tally.carryOut (h : Tally input b w n t) (d : Deed α) :
    ∃ m, Tally input b w m (d.carryOut t).1 := by
  cases h with
  | gaveUp hin hg hk hf =>
      obtain ⟨hitems, hfiles, hruns, -⟩ := carryOut_of_not_reading hg.phase_ne d
      obtain ⟨hg, -, hsame⟩ := hg.carryOut d
      exact ⟨n, .gaveUp (hsame.trans hin) hg (hitems ▸ hk)
        ⟨hfiles.trans hf.files, hruns.trans hf.runs⟩⟩
  | merging hin hp hall hk hf hr =>
      obtain ⟨hitems, hfiles, hruns, -⟩ := carryOut_of_not_reading hp.phase_ne d
      obtain ⟨hsame, hp⟩ := hp.carryOut d
      exact ⟨n, .merging (hsame.trans hin) hp hall (hitems ▸ hk) (hfiles.trans hf)
        (hruns.trans hr)⟩
  | reading hr hk hf =>
      have hsupply : ∀ p : Supply α, p.status = .open →
          ∃ m, Tally input b w m (t.1.withSupply p, t.2) := by
        intro p hp
        obtain ⟨hitems, hfiles, hruns⟩ := withSupply_counts t.1 p
        exact ⟨n, .reading (hr.withSupply hp fun _ _ => trivial) (hitems.symm ▸ hk)
          ⟨hfiles.trans hf.files, hruns.trans hf.runs⟩⟩
      obtain ⟨b', o, hst, -, ho, -⟩ := hr.stage
      have hsup : t.1.supply = o := by rw [supply, hst]
      cases d with
      | subscribe k =>
          refine hsupply (t.1.supply.subscribe k).1 ?_
          exact (Supply.subscribe_of_open (hsup ▸ ho) k).2.1
      | change c => exact hsupply { t.1.supply with demand := _ } (hsup ▸ ho)
      | close => exact ⟨n, .gaveUp hr.input_eq trivial hk ⟨hf.files, hf.runs⟩⟩
      | drive =>
          have hdrive : t.1.drive t.2 = t.1.readInput t.2 := by rw [drive, hst]
          rw [Deed.carryOut, hdrive]
          exact Turn.iterate_induction (fun u _ => ∃ m, Tally input b w m u)
            (fun u _ hu => hu.elim fun _ hu => hu.turn) t ⟨n, .reading hr hk hf⟩

theorem start_tally {w₁ : W} {settings : Settings} {codec : Codec α} {order : O}
    {tag : UInt32} (h : start w settings codec order tag input = (.ok s, w₁)) :
    Tally input { settings, codec, order, tag } w₁ 0 (s, w₁) := by
  have hzero := letOut_zero_items input
  have hr : Reading input { settings, codec, order, tag } w₁ (fun _ => True) 0 (s, w₁) :=
    start_reading h
  obtain ⟨-, -, rfl⟩ := start_ok.mp h
  exact .reading hr ⟨fun _ => by rw [hzero]; rfl, fun _ => by rw [hzero]; rfl⟩ ⟨rfl, rfl⟩

theorem actAll_tally {w₁ : W} {settings : Settings} {codec : Codec α} {order : O}
    {tag : UInt32} (h : start w settings codec order tag input = (.ok s, w₁))
    (acts : List (Action α)) :
    ∃ n, Tally input { settings, codec, order, tag } w₁ n (actAll act (s, w₁) acts).1 :=
  actAll_of_deeds
    (P := fun t _ => ∃ n, Tally input { settings, codec, order, tag } w₁ n t)
    (fun d _ _ _ ht => ht.elim fun _ ht => ht.carryOut d) ⟨0, start_tally h⟩

theorem Tally.input_eq (h : Tally input b w n t) : t.1.input = (letOut input n).1 := by
  cases h with
  | reading hr => exact hr.input_eq
  | gaveUp hin => exact hin
  | merging hin => exact hin

theorem Tally.counts (h : Tally input b w n t) : Counts input b w n t.1.itemsRead := by
  cases h with
  | reading _ hk => exact hk
  | gaveUp _ _ hk => exact hk
  | merging _ _ _ hk => exact hk

/-- After whatever was done with a sort, as long as all its items were accepted, it
has counted each item that its input has let out, in however many batches, and
whether or not the input has ended.  If the input has failed, it has counted those of
the batches before the one that the error came with. -/
theorem items_taken_are_counted (w w₁ : W) (settings : Settings) (codec : Codec α) (order : O)
    (tag : UInt32) (input : S) (s : Sorter S O α)
    (h : start w settings codec order tag input = (.ok s, w₁)) (acts : List (Action α)) :
    let b : RunGenerator O α := { settings, codec, order, tag }
    let t := (actAll act (s, w₁) acts).1
    ∃ n, t.1.input = (letOut input n).1 ∧
      ((b.addAll w₁ (Event.items (letOut input n).2)).1 = .ok () →
        ((∀ e, Event.endingOf (letOut input n).2 ≠ some (.failed e)) →
          t.1.itemsRead = (Event.items (letOut input n).2).length) ∧
        ∀ e, Event.endingOf (letOut input n).2 = some (.failed e) →
          t.1.itemsRead = (Event.items (letOut input (n - 1)).2).length) := by
  intro b t
  obtain ⟨n, hn⟩ := actAll_tally h acts
  refine ⟨n, hn.input_eq, fun hok => ⟨fun hun => hn.counts.all ⟨hok, hun⟩, ?_⟩⟩
  intro e he
  exact hn.counts.butLast fun hall => hall.unfailed e he

theorem letOut_bound (input : S) {m n : Nat} (h : m ≤ n) :
    FiniteProducer.bound (letOut input n).1 ≤ FiniteProducer.bound (letOut input m).1 := by
  induction h with
  | refl => exact Nat.le_refl _
  | @step k _ ih =>
      refine Nat.le_trans ?_ ih
      rw [letOut_succ, takeBatch]
      generalize (letOut input k).1 = i
      have hdrive := FiniteProducer.bound_drive
        (if (Producer.demand i).isPositive then i else Producer.request i batchSize)
      have hasked : FiniteProducer.bound
          (if (Producer.demand i).isPositive then i else Producer.request i batchSize) =
            FiniteProducer.bound i := by
        split
        · rfl
        · exact FiniteProducer.bound_withSupply _ _
      rw [hasked] at hdrive
      exact Nat.le_trans (Nat.le_add_left _ _) hdrive

/-- Two items in one batch, nothing in the next one, and then an item and an error. -/
def failingInput : ScriptStream UInt8 :=
  .ofCues [.item 3, .item 1, .rest, .rest, .item 2, .fail (.io ⟨.other, "boom"⟩)]

/-- The two items that were taken so far are counted. -/
theorem two_items_taken :
    ∃ (s : Sorter (ScriptStream UInt8) (PlainOrder UInt8) UInt8) (w : PlannedStore),
      start ({} : PlannedStore) (.standard ⟨"runs"⟩) byteCodec (PlainOrder.natural UInt8) 7
        failingInput = (.ok s, w) ∧
      let t := (actAll act (s, w) [.command (.subscribe {}), .command .resume]).1
      t.1.itemsRead = 2 ∧ ∃ n, t.1.input = (letOut failingInput n).1 ∧
        t.1.itemsRead = (Event.items (letOut failingInput n).2).length := by
  refine ⟨_, _, rfl, by decide +kernel, ?_⟩
  obtain ⟨n, hin, hcount⟩ := items_taken_are_counted ({} : PlannedStore) _ (.standard ⟨"runs"⟩)
    byteCodec (PlainOrder.natural UInt8) 7 failingInput _ rfl
    [.command (.subscribe {}), .command .resume]
  have hleft : 2 = (letOut failingInput n).1.cues.length :=
    (by decide +kernel : _ = (2 : Nat)).symm.trans (congrArg (·.cues.length) hin)
  -- One batch leaves more of the script, and three leave nothing.
  obtain rfl : n = 2 := by
    rcases Nat.lt_trichotomy n 2 with h | h | h
    · have hle := letOut_bound failingInput (Nat.le_of_lt_succ h)
      rw [show FiniteProducer.bound (letOut failingInput n).1 = 2 from hleft.symm] at hle
      exact absurd hle (by decide +kernel)
    · exact h
    · have hle := letOut_bound failingInput h
      rw [show FiniteProducer.bound (letOut failingInput n).1 = 2 from hleft.symm] at hle
      exact absurd hle (by decide +kernel)
  refine ⟨2, hin, (hcount (by decide +kernel)).1 ?_⟩
  intro e he
  have hnone : Event.endingOf (letOut failingInput 2).2 = none := by decide +kernel
  exact absurd (hnone.symm.trans he) (by simp)

/-- An item that comes in one batch with the error of the input was taken, and is not
counted. -/
theorem item_before_error_uncounted :
    ∃ (s : Sorter (ScriptStream UInt8) (PlainOrder UInt8) UInt8) (w : PlannedStore),
      start ({} : PlannedStore) (.standard ⟨"runs"⟩) byteCodec (PlainOrder.natural UInt8) 7
        (.ofCues [.item 1, .fail (.io ⟨.other, "boom"⟩)]) = (.ok s, w) ∧
      let t := (actAll act (s, w) [.command (.subscribe {}), .command .resume]).1
      t.1.phase = .failed ∧ t.1.input.supply.sent = 1 ∧ t.1.itemsRead = 0 := by
  refine ⟨_, _, rfl, ?_⟩
  decide +kernel

/-! ## Files and items handed over -/

/-- How the counts of a sort may change.  A sort that gives its reading up was not
told of any runs. -/
structure Advances (s u : Sorter S O α) : Prop where
  rests : s.phase ≠ .collecting →
    u.phase ≠ .collecting ∧ u.runs = s.runs ∧ u.filesWritten = s.filesWritten
  reads : u.phase = .collecting → u.runs = s.runs ∧ s.filesWritten ≤ u.filesWritten
  leaves : s.phase = .collecting → u.phase ≠ .collecting →
    u.runs = s.runs ∨ s.filesWritten ≤ u.filesWritten

namespace Advances

omit [FiniteProducer S α] [ItemOrder O α] [SpillStore W] in
theorem refl (s : Sorter S O α) : s.Advances s :=
  ⟨fun h => ⟨h, rfl, rfl⟩, fun _ => ⟨rfl, Nat.le_refl _⟩, fun _ _ => .inl rfl⟩

omit [FiniteProducer S α] [ItemOrder O α] [SpillStore W] in
theorem trans {u v : Sorter S O α} (h : s.Advances u) (k : u.Advances v) : s.Advances v where
  rests hs := by
    obtain ⟨hu, hruns, hfiles⟩ := h.rests hs
    obtain ⟨hv, hruns', hfiles'⟩ := k.rests hu
    exact ⟨hv, hruns'.trans hruns, hfiles'.trans hfiles⟩
  reads hv := by
    have hu : u.phase = .collecting := Classical.not_not.mp fun hu => (k.rests hu).1 hv
    exact ⟨(k.reads hv).1.trans (h.reads hu).1, Nat.le_trans (h.reads hu).2 (k.reads hv).2⟩
  leaves hs hv := by
    by_cases hu : u.phase = .collecting
    · obtain ⟨hruns, hle⟩ := h.reads hu
      exact (k.leaves hu hv).imp (·.trans hruns) (Nat.le_trans hle)
    · obtain ⟨-, hruns, hfiles⟩ := k.rests hu
      exact (h.leaves hs hu).imp hruns.trans (hfiles ▸ ·)

omit [FiniteProducer S α] [ItemOrder O α] [SpillStore W] in
theorem of_gaveUp {u : Sorter S O α} (hs : s.phase = .collecting) (hu : u.phase ≠ .collecting)
    (hruns : u.runs = s.runs) : s.Advances u :=
  ⟨fun h => absurd hs h, fun h => absurd h hu, fun _ _ => .inl hruns⟩

end Advances

omit [FiniteProducer S α] [ItemOrder O α] [SpillStore W] in
theorem fail_phase (s : Sorter S O α) (w : W) (o : Supply α) (e : Failure) :
    (s.fail w o e).state.1.phase ≠ .collecting := by
  simp [fail, phase]

omit [FiniteProducer S α] in
theorem beginMerge_advances {u : Sorter S O α} (hs : s.phase = .collecting)
    (hle : s.filesWritten ≤ b.files.length) (hu : u.runs = s.runs) :
    s.Advances (u.beginMerge w b o).state.1 := by
  rw [beginMerge]
  split
  · exact .of_gaveUp hs (fail_phase _ _ _ _) hu
  · next runs w₂ hclose =>
    refine ⟨fun h => absurd hs h, fun h => absurd h (PastReading.phase_ne trivial),
      fun _ _ => .inr (Nat.le_trans hle ?_)⟩
    show b.files.length ≤ (Run.paths runs).length
    rw [RunGenerator.close_files hclose]
    exact Nat.le_add_right _ _

omit [FiniteProducer S α] in
theorem takeIn_advances {u : Sorter S O α} (hs : s.phase = .collecting)
    (hle : s.filesWritten ≤ b.files.length) (hu : u.runs = s.runs) (es : List (Event α)) :
    s.Advances (u.takeIn w b o es).state.1 := by
  have hmore := b.addAll_files w (Event.items es)
  rw [takeIn]
  split
  · exact .of_gaveUp hs (fail_phase _ _ _ _) hu
  · next b' w' hb =>
    rw [hb] at hmore
    have hle : s.filesWritten ≤ b'.files.length := by
      dsimp only at hmore
      omega
    split
    · exact .of_gaveUp hs (fail_phase _ _ _ _) hu
    · exact beginMerge_advances hs hle hu
    · exact ⟨fun h => absurd hs h, fun _ => ⟨hu, hle⟩, fun _ h => absurd rfl h⟩

theorem readBatch_advances (hs : s.phase = .collecting) (hle : s.filesWritten ≤ b.files.length) :
    s.Advances (s.readBatch w b o).state.1 :=
  takeIn_advances (u := { s with input := (Producer.drive s.askInput).1 }) hs hle rfl
    (Producer.drive s.askInput).2

theorem turn_advances (t : Sorter S O α × W) : t.1.Advances (turn t).state.1 := by
  by_cases hs : t.1.phase = .collecting
  · obtain ⟨⟨settings, codec, input, stage, itemsRead, files, runs⟩, w⟩ := t
    cases stage with
    | collecting heard b o =>
        rw [Sorter.turn]
        dsimp only
        split
        · exact .refl _
        · split
          · exact .of_gaveUp hs (fail_phase _ _ _ _) rfl
          · exact beginMerge_advances (b := b) (w := w) (o := o) hs (Nat.le_refl _) rfl
          · exact readBatch_advances hs (Nat.le_refl _)
    | merging m => exact absurd hs (PastReading.phase_ne trivial)
    | failed o => exact absurd hs (by simp [phase])
    | closed o => exact absurd hs (by simp [phase])
  · rw [turn_of_not_reading hs]
    exact .refl _

theorem carryOut_advances (t : Sorter S O α × W) (d : Deed α) :
    t.1.Advances (d.carryOut t).1.1 := by
  by_cases hs : t.1.phase = .collecting
  · obtain ⟨⟨settings, codec, input, stage, itemsRead, files, runs⟩, w⟩ := t
    cases stage with
    | collecting heard b o =>
        have hsame : ∀ p : Supply α,
            Advances ({ settings, codec, input, stage := .collecting heard b o, itemsRead, files,
                        runs } : Sorter S O α)
              { settings, codec, input, stage := .collecting heard b p, itemsRead, files, runs } :=
          fun p => ⟨fun h => absurd rfl h, fun _ => ⟨rfl, Nat.le_refl _⟩, fun _ h => absurd rfl h⟩
        cases d with
        | subscribe k => exact hsame _
        | change c => exact hsame _
        | close => exact .of_gaveUp rfl (GivenUp.phase_ne trivial) rfl
        | drive =>
            exact Turn.iterate_trace (R := fun (t : Sorter S O α × W) _ u => t.1.Advances u.1)
              (fun _ => .refl _) (fun h k => h.trans k) turn_advances _
    | merging m => exact absurd hs (PastReading.phase_ne trivial)
    | failed o => exact absurd hs (by simp [phase])
    | closed o => exact absurd hs (by simp [phase])
  · obtain ⟨-, -, hruns, hfiles, hd⟩ := carryOut_of_not_reading hs d
    exact ⟨fun _ => ⟨hd, hruns, hfiles⟩, fun h => absurd h hd, fun h => absurd h hs⟩

theorem act_advances (t : Sorter S O α × W) (a : Action α) : t.1.Advances (act t a).1.1 := by
  obtain ⟨ds, -, hds⟩ := act_deeds (S := S) (O := O) (W := W) a
  rw [hds]
  exact actAll_keeps (P := fun u : Sorter S O α × W => t.1.Advances u.1)
    (fun u d hu => hu.trans (carryOut_advances u d)) (.refl t.1) ds

omit [FiniteProducer S α] [ItemOrder O α] [SpillStore W] in
theorem filesWritten_of_not_reading (h : s.phase ≠ .collecting) : s.filesWritten = s.files := by
  obtain ⟨settings, codec, input, stage, itemsRead, files, runs⟩ := s
  cases stage with
  | collecting heard b o => exact absurd rfl h
  | merging m => rfl
  | failed o => rfl
  | closed o => rfl

/-- A sort that reads has one file for each spill that was done.  It is not closed, so
its input has ended only if there was nothing in it. -/
theorem Reading.filesWritten_eq {asks : Subscriber α → Prop}
    (h : Reading input b w asks n t) (hb : b.files = []) :
    t.1.filesWritten = spillsFor b w (letOut input n).2 := by
  obtain ⟨b', o, hst, hadd, -⟩ := h.stage
  have hfiles := b.addAll_files w (Event.items (letOut input n).2)
  rw [hadd, hb, List.length_nil, Nat.zero_add] at hfiles
  have hwritten : t.1.filesWritten = b'.files.length := by rw [filesWritten, hst]
  rw [hwritten, spillsFor, ← show b'.files.length = _ from hfiles, hadd]
  split
  · next b'' w'' hend heq =>
    have hzero := h.ended_before (by simp [heq])
    subst hzero
    rw [letOut_zero_items] at hadd
    obtain ⟨rfl, rfl⟩ := Prod.mk.inj (Prod.mk.inj hadd).2
    obtain ⟨rfl, rfl⟩ := Prod.mk.inj (Prod.mk.inj hend).2
    rw [RunGenerator.closingSpills, hb]
    rfl
  · rfl

theorem Tally.filesWritten_eq (h : Tally input b w n t) (hb : b.files = []) :
    (t.1.phase = .collecting ∨ 0 < t.1.runs →
      t.1.filesWritten = spillsFor b w (letOut input n).2) ∧
    (t.1.phase ≠ .collecting → t.1.runs = 0 → t.1.filesWritten = 0) := by
  cases h with
  | reading hr =>
      exact ⟨fun _ => hr.filesWritten_eq hb, fun h => absurd hr.phase_eq h⟩
  | gaveUp _ hg _ hf =>
      refine ⟨?_, fun h _ => (filesWritten_of_not_reading h).trans hf.files⟩
      rintro (h | h)
      · exact absurd h hg.phase_ne
      · exact absurd hf.runs (Nat.ne_of_gt h)
  | merging _ hp hall _ hf hr =>
      have hwritten := (filesWritten_of_not_reading hp.phase_ne).trans (hf.trans (hall.spillsFor_eq hb))
      refine ⟨fun _ => hwritten, fun _ h => ?_⟩
      obtain ⟨w₁, -, hclose⟩ := hall.closed
      exact absurd (List.length_eq_zero_iff.mp (hr.symm.trans h))
        (RunGenerator.close_runs_ne_nil hclose)

omit [FiniteProducer S α] [ItemOrder O α] [SpillStore W] in
theorem phase_closed_iff : s.phase = .closed ↔ ∃ d, s.stage = .closed d := by
  obtain ⟨settings, codec, input, stage, itemsRead, files, runs⟩ := s
  cases stage with
  | collecting heard b o => exact ⟨by simp [phase], by simp⟩
  | merging m =>
      refine ⟨?_, by simp⟩
      rw [phase]
      dsimp only
      split <;> simp
  | failed o => exact ⟨by simp [phase], by simp⟩
  | closed d => exact ⟨fun _ => ⟨d, rfl⟩, fun _ => rfl⟩

omit [FiniteProducer S α] [ItemOrder O α] [SpillStore W] in
theorem sent_of_closed (h : s.phase = .closed) : s.sent = 0 := by
  obtain ⟨d, hd⟩ := phase_closed_iff.mp h
  rw [sent, supply, hd]
  rfl

theorem hear_sent (t : Sorter S O α × W) (c : Command α) :
    (hear t c).1.1.sent = t.1.sent + (Event.items (Heard.events (hear t c).2)).length := by
  have he := hear_eq_perform t c
  have hmove : c.move ≠ .close := c.move_ne_close
  rw [show (hear t c).1 = (Command.perform t c).1 from congrArg Prod.fst he,
    show Heard.events (hear t c).2 = (Command.perform t c).2 from congrArg Prod.snd he]
  exact (Command.moved t c).sent_eq hmove

theorem act_closed (h : t.1.phase = .closed) (a : Action α) : (act t a).1.1.phase = .closed := by
  obtain ⟨ds, -, hds⟩ := act_deeds (S := S) (O := O) (W := W) a
  rw [hds]
  refine actAll_keeps (P := fun u : Sorter S O α × W => u.1.phase = .closed) ?_ h ds
  rintro ⟨⟨settings, codec, input, stage, itemsRead, files, runs⟩, w⟩ d hu
  obtain ⟨p, rfl⟩ : ∃ p, stage = .closed p := phase_closed_iff.mp hu
  cases d <;> rfl

theorem actAll_sent (h : s.sent = 0) (w : W) (acts : List (Action α)) :
    (actAll act (s, w) acts).1.1.phase ≠ .closed →
      (actAll act (s, w) acts).1.1.sent =
        (Event.items (Heard.events (actAll act (s, w) acts).2)).length := by
  let P (t : Sorter S O α × W) (hs : List (Heard W α)) : Prop :=
    t.1.phase ≠ .closed → t.1.sent = (Event.items (Heard.events hs)).length
  suffices hall : P (actAll act (s, w) acts).1 ([] ++ (actAll act (s, w) acts).2) from hall
  refine actAll_induction ?_ (fun _ => h) acts
  intro t a hs ht hopen
  have ht := ht fun hc => hopen (act_closed hc a)
  cases a with
  | close => exact absurd rfl hopen
  | command c =>
      rw [Heard.events_append, Event.items_append, List.length_append, ← ht]
      exact hear_sent t c

/-- After whatever was done with a sort, as long as it reads its input, and ever after
it began to merge, the files that it counts are those that were written; and as long
as it is not closed, the items that it counts are those that were handed over.  No
call makes the one count smaller but one by which the sort gives its reading up, and
none the other but the closing of the sort.  A sort that has given its reading up
counts no files, and one that is closed no items. -/
theorem progress_is_counted (w w₁ : W) (settings : Settings) (codec : Codec α) (order : O)
    (tag : UInt32) (input : S) (s : Sorter S O α)
    (h : start w settings codec order tag input = (.ok s, w₁)) (acts : List (Action α))
    (a : Action α) :
    let b : RunGenerator O α := { settings, codec, order, tag }
    let t := (actAll act (s, w₁) acts).1
    let hs := (actAll act (s, w₁) acts).2
    let u := (act t a).1
    (∃ n, t.1.input = (letOut input n).1 ∧
      (t.1.phase = .collecting ∨ 0 < t.1.runs →
        t.1.filesWritten = spillsFor b w₁ (letOut input n).2) ∧
      (t.1.phase ≠ .collecting → t.1.runs = 0 → t.1.filesWritten = 0)) ∧
    (t.1.phase ≠ .closed → t.1.sent = (Event.items (Heard.events hs)).length) ∧
    (t.1.phase = .closed → t.1.sent = 0) ∧
    (t.1.filesWritten ≤ u.1.filesWritten ∨
      t.1.phase = .collecting ∧ u.1.phase ≠ .collecting ∧ u.1.runs = 0) ∧
    (t.1.sent ≤ u.1.sent ∨ a = .close) := by
  intro b t hs u
  obtain ⟨n, hn⟩ := actAll_tally h acts
  have hsent : s.sent = 0 := by
    obtain ⟨-, -, rfl⟩ := start_ok.mp h
    rfl
  refine ⟨⟨n, hn.input_eq, hn.filesWritten_eq rfl⟩, actAll_sent hsent w₁ acts, sent_of_closed,
    ?_, ?_⟩
  · have hadv := act_advances t a
    by_cases ht : t.1.phase = .collecting
    · by_cases hu : u.1.phase = .collecting
      · exact .inl (hadv.reads hu).2
      · refine (hadv.leaves ht hu).symm.imp_right fun hruns => ⟨ht, hu, hruns.trans ?_⟩
        cases hn with
        | reading _ _ hf => exact hf.runs
        | gaveUp _ hg => exact absurd ht hg.phase_ne
        | merging _ hp => exact absurd ht hp.phase_ne
    · exact .inl (Nat.le_of_eq (hadv.rests ht).2.2.symm)
  · cases a with
    | close => exact .inr rfl
    | command c =>
        refine .inl (Nat.le.intro (hear_sent t c).symm)

/-- Settings by which each item is spilled at once. -/
def spillEach : Settings := { Settings.standard ⟨"runs"⟩ with threshold := 1 }

/-- Two files are written, and the first item is handed over. -/
theorem two_files_counted :
    ∃ (s : Sorter (ListStream UInt8) (PlainOrder UInt8) UInt8) (w : PlannedStore),
      start ({} : PlannedStore) spillEach byteCodec (PlainOrder.natural UInt8) 7
        (ListStream.ofList [3, 1]) = (.ok s, w) ∧
      let b : RunGenerator (PlainOrder UInt8) UInt8 :=
        { settings := spillEach, codec := byteCodec, order := PlainOrder.natural UInt8, tag := 7 }
      let t := (actAll act (s, w) [.command (.subscribe {}), .command (.fetch 1)]).1
      t.1.phase = .merging ∧ t.1.filesWritten = 2 ∧ t.1.sent = 1 ∧
        (∃ n, t.1.input = (letOut (ListStream.ofList [3, 1]) n).1 ∧
          spillsFor b w (letOut (ListStream.ofList [3, 1]) n).2 = 2) ∧
        ∀ c, 1 ≤ (act t (.command c)).1.1.sent ∧ 2 ≤ (act t (.command c)).1.1.filesWritten := by
  refine ⟨_, _, rfl, ?_⟩
  have hall := progress_is_counted ({} : PlannedStore) _ spillEach byteCodec
    (PlainOrder.natural UInt8) 7 (ListStream.ofList [3, 1]) _ rfl
    [.command (.subscribe {}), .command (.fetch 1)]
  intro b t
  have hphase : t.1.phase = .merging := by decide +kernel
  have hfiles : t.1.filesWritten = 2 := by decide +kernel
  have hsent : t.1.sent = 1 := by decide +kernel
  refine ⟨hphase, hfiles, hsent, ?_, fun c => ⟨?_, ?_⟩⟩
  · obtain ⟨⟨n, hin, hwritten, -⟩, -⟩ := hall .close
    exact ⟨n, hin, (hwritten (.inr (by decide +kernel))).symm.trans hfiles⟩
  · rcases (hall (.command c)).2.2.2.2 with h | h
    · exact hsent ▸ h
    · exact absurd h (by simp)
  · rcases (hall (.command c)).2.2.2.1 with h | h
    · exact hfiles ▸ h
    · exact absurd (h.1.symm.trans hphase) (by simp)

/-- A file was written and counted, and then the input fails: the count is back at
none.  An item was handed over and counted, and then the sort is closed: that count is
back at none, too. -/
theorem counts_fall_back :
    (∃ (s : Sorter (ScriptStream UInt8) (PlainOrder UInt8) UInt8) (w : PlannedStore),
      start ({} : PlannedStore) spillEach byteCodec (PlainOrder.natural UInt8) 7
        (ScriptStream.ofCues [.item 1, .rest, .rest, .fail (.io ⟨.other, "boom"⟩)]) = (.ok s, w) ∧
      let t := (actAll act (s, w) [.command (.subscribe {}), .command .resume]).1
      t.1.filesWritten = 1 ∧ (act t (.command .drive)).1.1.phase = .failed ∧
        (act t (.command .drive)).1.1.filesWritten = 0) ∧
    ∃ (s : Sorter (ListStream UInt8) (PlainOrder UInt8) UInt8) (w : PlannedStore),
      start ({} : PlannedStore) spillEach byteCodec (PlainOrder.natural UInt8) 7
        (ListStream.ofList [3, 1]) = (.ok s, w) ∧
      let t := (actAll act (s, w) [.command (.subscribe {}), .command (.fetch 1)]).1
      t.1.sent = 1 ∧ (act t .close).1.1.sent = 0 := by
  refine ⟨⟨_, _, rfl, ?_⟩, _, _, rfl, ?_⟩
  · decide +kernel
  · decide +kernel

end ExternalSort.Sorter
