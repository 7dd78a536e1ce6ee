/-
A sort sorts.

If nothing fails, the runs that a sort makes of its input depend on the
items alone (`Batches`), and what it hands over is the greedy merge of these
runs.  So there is one sorted permutation of the input that a sort hands
over bit by bit, whatever is asked of it and whenever its input and its
files are ready.
-/
import ExternalSort.Proofs.EndsOnce
import ExternalSort.Proofs.Run.Generator

namespace ExternalSort

/-- Items to be sorted, by an order that compares them, over a store that does
not fail, and stored by a codec that keeps them if they have to be stored. -/
structure Task (O α W : Type) [ItemOrder O α] [SpillStore W] where
  store : Reliable W
  settings : Settings
  codec : Codec α
  order : O
  items : List α
  sound : codec.Sound (MaySpill settings.threshold codec.size items)
  handles : ItemOrder.Handles order items

variable {S O α W : Type} [ItemOrder O α] [SpillStore W]

namespace Task

variable {T : Task O α W} {taken : List α}

/-- The runs made of the first items. -/
def batches (T : Task O α W) (taken : List α) : Batches O α :=
  Batches.addAll T.settings.threshold T.codec.size { order := T.order } taken

theorem good (h : taken <+: T.items) :
    (T.batches taken).Good T.settings.threshold T.codec.size T.order T.items taken :=
  (Batches.good_nil T.settings.threshold T.codec.size T.order T.items).addAll T.handles h

theorem batches_append (T : Task O α W) (as bs : List α) :
    T.batches (as ++ bs) =
      (T.batches as).addAll T.settings.threshold T.codec.size bs :=
  List.foldl_append

/-- The order once it has taken note of all items. -/
def lastOrder (T : Task O α W) : O := (T.batches T.items).order

/-- What reading the runs gives. -/
def courses (T : Task O α W) : List (Course α) :=
  (T.batches T.items).runs.map fun l => ⟨l, .ended⟩

/-- What the sort is to hand over. -/
def sorted (T : Task O α W) : List α := (Merge.reference T.lastOrder T.courses).items

theorem ending_of_mem_courses {c : Course α} (hc : c ∈ T.courses) : c.ending = .ended := by
  obtain ⟨l, -, rfl⟩ := List.mem_map.mp hc
  rfl

theorem items_courses (T : Task O α W) :
    T.courses.map Course.items = (T.batches T.items).runs := by
  rw [courses, List.map_map]
  exact List.map_id _

/-- The merge of the runs does not fail, and loses nothing. -/
theorem sorted_perm (T : Task O α W) :
    (Merge.reference T.lastOrder T.courses).error = none ∧ T.sorted.Perm T.items := by
  have hg := T.good List.prefix_rfl
  have hperm := (hg.runs T.handles).1
  obtain ⟨he, hp⟩ := greedy_perm fun a ha b hb =>
    hg.compares T.handles a (hperm.subset ha) b (hperm.subset hb)
  rw [sorted, Merge.reference, items_courses]
  exact ⟨he, hp.trans hperm⟩

theorem sorted_nonDecreasing (T : Task O α W) {rank : α → α → Ordering}
    (hfits : ItemOrder.Fits T.order rank T.items) : NonDecreasing rank T.sorted := by
  have hg := T.good List.prefix_rfl
  obtain ⟨hperm, hsorted⟩ := hg.runs T.handles
  have hin : ∀ l ∈ (T.batches T.items).runs, ∀ a ∈ l, a ∈ T.items := fun l hl a ha =>
    hperm.subset (List.mem_flatten_of_mem hl ha)
  have hs := (greedy_spec (hg.preorder hfits) hin (hsorted rank hfits)).2.2
  rwa [sorted, Merge.reference, items_courses]

end Task

namespace Sorter

open RunGenerator (Mirrors)

variable [FiniteProducer S α] {T : Task O α W}

/-! ## Where a sort is -/

/-- The input of a sort as an intake that holds what was taken from it. -/
def reading (s : Sorter S O α) (taken : List α) : Intake S α :=
  { stream := s.input, buffer := taken }

section Foretold

variable [ForetoldProducer S α]

/-- A sort has taken the first items and made runs of them. -/
structure Collecting (T : Task O α W) (taken : List α) (s : Sorter S O α) (b : RunGenerator O α)
    (o : Supply α) (w : W) : Prop where
  codec_eq : s.codec = T.codec
  supply_open : o.status = .open
  listening : (s.reading taken).Listening
  course : (s.reading taken).course = ⟨T.items, .ended⟩
  mirrors : Mirrors T.store T.settings T.codec (T.batches taken) b w

/-- Where a sort is when it has handed `out` over. -/
inductive Sorts (T : Task O α W) (out : List α) (t : Sorter S O α × W) : Prop
  | collecting {taken : List α} {b : RunGenerator O α} {o : Supply α} : out = [] →
      t.1.stage = .collecting none b o → Collecting T taken t.1 b o t.2 → Sorts T out t
  | merging {m : Merge O α} : t.1.stage = .merging m →
      Merge.Tracks T.lastOrder T.courses out m t.2 → Sorts T out t

variable {s : Sorter S O α} {b : RunGenerator O α} {o : Supply α} {w : W} {taken out : List α}

theorem Collecting.among (h : Collecting T taken s b o w) : taken <+: T.items :=
  ⟨_, congrArg Course.items h.course⟩

/-! ## Turns -/

theorem beginMerge_sorts (hc : s.codec = T.codec) (ho : o.status = .open)
    (hm : Mirrors T.store T.settings T.codec (T.batches T.items) b w) :
    Sorts T (Event.items (Heard.events (s.beginMerge w b o).events))
      (s.beginMerge w b o).state := by
  obtain ⟨runs, w', hclose, -, hcourses⟩ := hm.close T.sound T.handles (T.good List.prefix_rfl)
  have hfresh : Merge.Fresh T.lastOrder T.courses
      { (Merge.ofRuns b.order s.codec.decode runs).withSettings s.settings with supply := o }
      w' :=
    { order_eq := hm.order
      supply_open := ho
      idle := rfl
      unopened := rfl
      courses_eq := by
        rw [← Task.courses] at hcourses
        rw [← hcourses, hc]
        rfl }
  rw [beginMerge, hclose]
  exact .merging rfl (Merge.Tracks.drive (.fresh rfl hfresh))

theorem Collecting.askInput (h : Collecting T taken s b o w) :
    Collecting T taken { s with input := s.askInput } b o w := by
  rw [Sorter.askInput]
  split
  · exact h
  · have hs := OrderlyProducer.supply_changeDemand s.input (.request batchSize)
    refine ⟨h.codec_eq, h.supply_open, ⟨?_, ?_⟩, ?_, h.mirrors⟩
    · exact (congrArg Supply.subscriber hs).trans h.listening.subscriber
    · exact h.listening.heard.trans (congrArg Supply.ending? hs).symm
    · rw [← h.course]
      exact congrArg (Course.after taken) (ForetoldProducer.course_withSupply s.input _ rfl)

/-- A batch of the input goes into runs, and after the last one the merge
begins. -/
theorem takeIn_sorts (h : Collecting T taken s b o w) {input : S} {es : List (Event α)}
    (hd : Producer.drive s.input = (input, es)) :
    Sorts T (Event.items (Heard.events ({ s with input }.takeIn w b o es).events))
      ({ s with input }.takeIn w b o es).state := by
  have hsteps := OrderlyProducer.drive_steps s.input
  have hdrive := ForetoldProducer.course_drive s.input
  rw [hd] at hsteps hdrive
  have hl : (Intake.hear { s.reading taken with stream := input } es).Listening :=
    Intake.listening_hear h.listening hsteps
  have hc := (Intake.course_hear (s := s.reading taken) hdrive).trans h.course
  have hall : taken ++ Event.items es <+: T.items := ⟨_, congrArg Course.items hc⟩
  obtain ⟨b', w', hadd, hm⟩ := h.mirrors.addAll T.sound T.handles (T.good h.among) hall
  rw [← T.batches_append] at hm
  rw [takeIn]
  dsimp only
  rw [hadd]
  dsimp only
  cases he : Event.endingOf es with
  | none =>
      have hcol : Collecting T (taken ++ Event.items es)
          { s with
            input := input
            stage := .collecting none b' o
            itemsRead := s.itemsRead + (Event.items es).length } b' o w' :=
        { codec_eq := h.codec_eq
          supply_open := h.supply_open
          listening := ⟨hl.subscriber, he.symm.trans hl.heard⟩
          course := hc
          mirrors := hm }
      exact .collecting rfl rfl hcol
  | some e =>
      have hend := (Intake.course_of_heard hl he).symm.trans hc
      obtain ⟨hitems, rfl⟩ := Course.mk.inj hend
      rw [show taken ++ Event.items es = T.items from hitems] at hm
      exact beginMerge_sorts (s := { s with input, itemsRead := _ }) h.codec_eq h.supply_open hm

theorem turn_sorts {t : Sorter S O α × W} (h : Sorts T out t) :
    Sorts T (out ++ Event.items (Heard.events (turn t).events)) (turn t).state := by
  obtain ⟨s, w⟩ := t
  cases h with
  | collecting hout hst h =>
      rw [hout, List.nil_append, turn, hst]
      dsimp only
      split
      · exact .collecting rfl hst h
      · exact takeIn_sorts h.askInput rfl
  | merging hst h =>
      rw [turn, hst]
      refine .merging hst ?_
      show Merge.Tracks _ _ (out ++ []) _ _
      rwa [List.append_nil]

/-! ## Schedules -/

theorem drive_sorts (h : Sorts T out (s, w)) :
    Sorts T (out ++ Event.items (Heard.events (s.drive w).2)) (s.drive w).1 := by
  cases hst : s.stage with
  | collecting heard b o =>
      rw [drive, hst]
      refine Turn.iterate_induction
        (fun t hs => Sorts T (out ++ Event.items (Heard.events hs)) t) ?_ (s, w) (by simpa using h)
      intro t hs ht
      rw [Heard.events_append, Event.items_append, ← List.append_assoc]
      exact turn_sorts ht
  | merging m =>
      rw [drive, hst]
      cases h with
      | collecting _ hst' => exact absurd (hst.symm.trans hst') (by simp)
      | merging hst' h =>
          obtain rfl := SorterStage.merging.inj (hst.symm.trans hst')
          exact .merging rfl h.drive
  | failed o =>
      cases h with
      | collecting _ hst' => exact absurd (hst.symm.trans hst') (by simp)
      | merging hst' => exact absurd (hst.symm.trans hst') (by simp)
  | closed d =>
      cases h with
      | collecting _ hst' => exact absurd (hst.symm.trans hst') (by simp)
      | merging hst' => exact absurd (hst.symm.trans hst') (by simp)

theorem Sorts.withSupply (h : Sorts T out (s, w)) (hopen : o.isOpen = s.supply.isOpen)
    (hend : o.ending? = s.supply.ending?) : Sorts T out (s.withSupply o, w) := by
  cases h with
  | @collecting taken b p hout hst h =>
      have ho : o.status = .open := by
        rw [← Supply.isOpen_iff, hopen, supply, hst]
        exact Supply.isOpen_iff.mpr h.supply_open
      rw [Sorter.withSupply, hst]
      exact .collecting hout rfl
        { codec_eq := h.codec_eq
          supply_open := ho
          listening := h.listening
          course := h.course
          mirrors := h.mirrors }
  | @merging m hst h =>
      rw [supply, hst] at hopen hend
      rw [Sorter.withSupply, hst]
      exact .merging rfl (h.withSupply hopen hend)

theorem performAll_sorts {t : Sorter S O α × W} (h : Sorts T [] t) (sched : List (Command α)) :
    Sorts T (Event.items (Command.performAll t sched).2) (Command.performAll t sched).1 := by
  refine Command.performAll_induction
    (P := fun (t : Sorter S O α × W) es => Sorts T (Event.items es) t) ?_ ?_ ?_ h sched
  · intro t k es h
    rw [Event.items_append]
    have : Event.items (Producer.subscribe t k).2 = [] := Supply.items_subscribe t.1.supply k
    rw [this, List.append_nil]
    exact h.withSupply (Supply.isOpen_subscribe t.1.supply k)
      (Supply.ending?_subscribe t.1.supply k)
  · intro t d es h
    exact h.withSupply rfl rfl
  · intro t es h
    rw [Event.items_append]
    exact drive_sorts h

/-- What a sort has handed over is a beginning of the sorted items.  The only
ending it comes to is the good one, after all of them. -/
theorem Sorts.spec {t : Sorter S O α × W} (h : Sorts T out t) :
    out <+: T.sorted ∧ t.1.supply.status ≠ .closed ∧
      ∀ e, t.1.supply.ending? = some e → e = .ended ∧ out = T.sorted := by
  cases h with
  | @collecting taken b o hout hst h =>
      rw [supply, hst]
      refine ⟨hout ▸ List.nil_prefix, ?_, ?_⟩
      · rw [h.supply_open]
        simp
      · intro e he
        exact absurd he (by simp [Supply.ending?_of_open h.supply_open])
  | @merging m hst h =>
      rw [supply, hst]
      refine ⟨h.out_prefix, h.not_closed, ?_⟩
      intro e he
      have ho := h.outcome he
      generalize m.phase = p at ho
      cases ho with
      | ended ho => exact ⟨rfl, ho⟩
      | incomparable _ hn => exact absurd (T.sorted_perm.1.symm.trans hn) (by simp)
      | broken _ hc =>
          obtain ⟨c, hc, hce⟩ := hc
          exact absurd ((Task.ending_of_mem_courses hc).symm.trans hce) (by simp)

/-! ## The whole sort -/

theorem start_sorts (T : Task O α W) (hw : T.store.ok w) (hcheck : T.settings.check = .ok ())
    {tag : UInt32} (hroom : T.store.HasRoom T.settings tag 1 w) {input : S}
    (hopen : (Producer.supply input).status = .open)
    (hin : ForetoldProducer.course input = ⟨T.items, .ended⟩) :
    ∃ s w₁, start w T.settings T.codec T.order tag input = (.ok s, w₁) ∧ InStep s ∧
      Sorts (S := S) T [] (s, w₁) := by
  obtain ⟨w₁, hens, hw₁, hfiles⟩ := T.store.ensure T.settings.directory hw
  have hl := Intake.listening_ofStream input (.inl hopen)
  have hc := (Intake.course_ofStream input hopen).trans hin
  obtain ⟨-, -, hev⟩ := Supply.subscribe_of_open hopen ({} : Subscriber α)
  have hnone : Event.endingOf (Producer.subscribe input ({} : Subscriber α)).2 = none := by
    show Event.endingOf ((Producer.supply input).subscribe {}).2 = none
    rw [hev]
    rfl
  have hbuffer : Event.items (Producer.subscribe input ({} : Subscriber α)).2 = [] :=
    Supply.items_subscribe _ _
  refine ⟨_, w₁, start_ok.mpr ⟨hcheck, hens, rfl⟩, rfl, ?_⟩
  rw [hnone]
  have hfree : T.store.HasRoom T.settings tag 1 w₁ := by
    intro n hn
    obtain ⟨k, hk, hfree⟩ := hroom n hn
    exact ⟨k, hk, by rw [hfiles]; exact hfree⟩
  have hcol : Collecting T []
      { settings := T.settings
        codec := T.codec
        input := (Producer.subscribe input ({} : Subscriber α)).1
        stage := .collecting none
          { settings := T.settings, codec := T.codec, order := T.order, tag } {} }
      { settings := T.settings, codec := T.codec, order := T.order, tag } {} w₁ :=
    { codec_eq := rfl
      supply_open := rfl
      listening := ⟨hl.subscriber, hnone.symm.trans hl.heard⟩
      course := by
        refine Eq.trans ?_ hc
        exact congrArg (Course.after · _) hbuffer.symm
      mirrors := .fresh hw₁ hfree }
  exact .collecting rfl rfl hcol

/-- Over a store that does not fail, a sort hands over a beginning of one
sorted permutation of its input, whatever is asked of it and in whichever
pieces the bytes come.  It never ends by an error, and when it ends it has
handed the whole permutation over. -/
theorem hands_over_sorted_input (R : Reliable W) (settings : Settings) (codec : Codec α)
    (order : O) (rank : α → α → Ordering) (tag : UInt32) (items : List α) (input : S) (w : W)
    (hstore : R.ok w) (hroom : R.HasRoom settings tag 1 w) (hcheck : settings.check = .ok ())
    (hcodec : codec.Sound (· ∈ items)) (horder : ItemOrder.Fits order rank items)
    (hopen : (Producer.supply input).status = .open)
    (hinput : ForetoldProducer.course input = ⟨items, .ended⟩) :
    ∃ sorted : List α, sorted.Perm items ∧ NonDecreasing rank sorted ∧
      ∃ s w₁, start w settings codec order tag input = (.ok s, w₁) ∧
        ∀ sched : List (Command α),
          let es := (Command.performAll (s, w₁) sched).2
          Event.items es <+: sorted ∧ (∀ e ∈ Event.endings es, e = .ended) ∧
            (.ended ∈ Event.endings es → Event.items es = sorted) := by
  let T : Task O α W :=
    { store := R, settings, codec, order, items, sound := fun a ha => hcodec a ha.1,
      handles := horder.handles }
  have hperm := T.sorted_perm.2
  have hsorted := T.sorted_nonDecreasing horder
  obtain ⟨s, w₁, hstart, hstep, hs⟩ := start_sorts T hstore hcheck hroom hopen hinput
  refine ⟨T.sorted, hperm, hsorted, s, w₁, hstart, ?_⟩
  intro sched es
  obtain ⟨hpre, hclosed, hend⟩ := (performAll_sorts hs sched).spec
  have htold : Supply.Told es (Command.performAll (s, w₁) sched).1.1.supply := by
    have := command_lawful.told (s := (s, w₁)) hstep sched
    rwa [Command.heard_conduct, Command.after_conduct] at this
  refine ⟨hpre, ?_, ?_⟩
  · intro e he
    exact (hend e (htold.ending?_eq hclosed he)).1
  · intro he
    exact (hend .ended (htold.ending?_eq hclosed he)).2

end Foretold

theorem hands_over_sorted_bytes :
    ∃ sorted : List UInt8, sorted.Perm [3, 1, 2] ∧ NonDecreasing compare sorted ∧
      ∃ (s : Sorter (ListStream UInt8) (PlainOrder UInt8) UInt8) (w₁ : PlannedStore),
        start {} { Settings.standard ⟨"runs"⟩ with threshold := 2 } byteCodec
          (PlainOrder.natural UInt8) 7 (.ofList [3, 1, 2]) = (.ok s, w₁) ∧
        ∀ sched : List (Command UInt8),
          let es := (Command.performAll (s, w₁) sched).2
          Event.items es <+: sorted ∧ (∀ e ∈ Event.endings es, e = .ended) ∧
            (.ended ∈ Event.endings es → Event.items es = sorted) := by
  refine hands_over_sorted_input PlannedStore.reliable
    { Settings.standard ⟨"runs"⟩ with threshold := 2 } byteCodec (PlainOrder.natural UInt8)
    compare 7 [3, 1, 2] (ListStream.ofList [3, 1, 2]) {} StorePlan.faultless_default ?_ ?_ ?_ ?_ rfl rfl
  · intro n _
    exact ⟨0, by decide, rfl⟩
  · rfl
  · intro a _
    have hlen : 1 ≤ Frame.maxPayload := by decide
    exact ⟨[a], rfl, hlen, rfl⟩
  · exact PlainOrder.natural_fits [3, 1, 2]

end Sorter

end ExternalSort
