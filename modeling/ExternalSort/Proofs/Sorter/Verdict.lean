/-
What decides the outcome of reading the input.

A sort reads its input in batches, and what the input has let out by then
(`letOut`) settles where the sort stands (`Stands`): as long as it reads,
nothing is heard of it; the merge begins when the input has ended, all its
items were taken in, and the generator was closed; and of the steps that
fail the earliest one decides the error (`FailsBy`).  How the items are split
into batches, and what is asked of the sort meanwhile, does not matter.
-/
import ExternalSort.Proofs.Run.Offering
import ExternalSort.Proofs.Sorter.Progress

namespace ExternalSort.Sorter

open RunGenerator (FailsOn)

variable {S O α W : Type} [ItemOrder O α] [SpillStore W]

/-! ## The first step that fails -/

/-- With what an input has let out, the first step that fails does so by the
error `e`: some item is not taken in; or all of them are, and the input has
failed; or it has ended, and the generator cannot be closed. -/
inductive FailsBy (b : RunGenerator O α) (w : W) (es : List (Event α)) : Failure → Prop
  | item {e : Failure} : FailsOn b w (Event.items es) e → FailsBy b w es e
  | input {b' : RunGenerator O α} {w' : W} {e : Failure} :
      b.addAll w (Event.items es) = (.ok (), b', w') →
      Event.endingOf es = some (.failed e) → FailsBy b w es (.ofInput e)
  | close {b' : RunGenerator O α} {w' w'' : W} {e : Failure} :
      b.addAll w (Event.items es) = (.ok (), b', w') → Event.endingOf es = some .ended →
      b'.close w' = (.error e, w'') → FailsBy b w es e

theorem FailsBy.unique {b : RunGenerator O α} {w : W} {es : List (Event α)} {e x : Failure}
    (h : FailsBy b w es e) (k : FailsBy b w es x) : x = e := by
  have hok : ∀ {b' : RunGenerator O α} {w' : W} {y : Failure},
      b.addAll w (Event.items es) = (.ok (), b', w') → ¬FailsOn b w (Event.items es) y := by
    intro b' w' y hadd hf
    have hf := RunGenerator.failsOn_iff.mp hf
    rw [hadd] at hf
    exact absurd hf (by simp)
  cases h with
  | item h =>
      cases k with
      | item k =>
          rw [RunGenerator.failsOn_iff] at h k
          exact Except.error.inj (k.symm.trans h)
      | input hadd => exact absurd h (hok hadd)
      | close hadd => exact absurd h (hok hadd)
  | input hadd hend =>
      cases k with
      | item k => exact absurd k (hok hadd)
      | input _ hend' =>
          cases Option.some.inj (hend.symm.trans hend')
          rfl
      | close _ hend' => exact absurd (hend.symm.trans hend') (by simp)
  | close hadd hend hc =>
      cases k with
      | item k => exact absurd k (hok hadd)
      | input _ hend' => exact absurd (hend.symm.trans hend') (by simp)
      | close hadd' _ hc' =>
          obtain ⟨-, hrest⟩ := Prod.mk.inj (hadd.symm.trans hadd')
          obtain ⟨rfl, rfl⟩ := Prod.mk.inj hrest
          exact Except.error.inj (Prod.mk.inj (hc'.symm.trans hc)).1

/-- The whole input is in: it has ended, all its items were taken in, in the
order in which it let them out, and the generator has handed its runs over. -/
structure IsIn (b : RunGenerator O α) (w : W) (es : List (Event α)) (b' : RunGenerator O α)
    (runs : List (Run α)) (w' : W) : Prop where
  ended : Event.endingOf es = some .ended
  closed : ∃ w₁, b.addAll w (Event.items es) = (.ok (), b', w₁) ∧ b'.close w₁ = (.ok runs, w')

/-! ## What the input lets out -/

variable [FiniteProducer S α]

/-- Takes one batch of an input: asks it for items, unless it still owes some,
and drives it. -/
def takeBatch (input : S) : S × List (Event α) :=
  Producer.drive
    (if (Producer.demand input).isPositive then input else Producer.request input batchSize)

/-- Takes a number of batches. -/
def takeBatches (input : S) : Nat → S × List (Event α)
  | 0 => (input, [])
  | n + 1 =>
    let (input, es) := takeBatches input n
    let (input, fs) := takeBatch input
    (input, es ++ fs)

/-- What an input has let out when a sort has subscribed to it and taken so many
batches, and how it stands then. -/
def letOut (input : S) (n : Nat) : S × List (Event α) :=
  let (input, es) := Producer.subscribe input ({} : Subscriber α)
  let (input, fs) := takeBatches input n
  (input, es ++ fs)

omit [ItemOrder O α] in
theorem drive_askInput (s : Sorter S O α) : Producer.drive s.askInput = takeBatch s.input := rfl

theorem letOut_succ (input : S) (n : Nat) :
    letOut input (n + 1) =
      ((takeBatch (letOut input n).1).1,
        (letOut input n).2 ++ (takeBatch (letOut input n).1).2) := by
  simp only [letOut, takeBatches, List.append_assoc]

/-! ## Where a sort stands -/

/-- What was heard of a sort is what the merge of its runs hands over.  The merge
began when the whole input was in, over the store that the generator left. -/
def HandsOver (b : RunGenerator O α) (w : W) (es : List (Event α)) (t : Sorter S O α × W)
    (hs : List (Heard W α)) : Prop :=
  ∃ (b' : RunGenerator O α) (runs : List (Run α)) (u : Sorter S O α × W) (o : Supply α)
    (ds : List (Deed α)), IsIn b w es b' runs u.2 ∧ u.1.stage = .merging (u.1.mergeOf b' o runs) ∧
      actAll Deed.carryOut u (.drive :: ds) = (t, hs)

/-- A sort that has come to merging, and may have been closed since. -/
def PastReading (s : Sorter S O α) : Prop :=
  match s.stage with
  | .merging _ | .closed _ => True
  | .collecting .. | .failed _ => False

/-- A sort that was closed, or could not make runs of its input.  Nobody hears
any more of it. -/
def GivenUp (s : Sorter S O α) : Prop :=
  match s.stage with
  | .failed o => ∃ e, o.status = .over e
  | .closed _ => True
  | .collecting .. | .merging _ => False

section Stands

variable (input : S) (b : RunGenerator O α) (w : W) (asks : Subscriber α → Prop)

/-- A sort that has read `n` batches of its input and goes on reading.  All items
were taken in.  The input has ended only if it did so before it was handed over.
Who is subscribed is one of those who `asks` tells. -/
structure Reading (n : Nat) (t : Sorter S O α × W) : Prop where
  input_eq : t.1.input = (letOut input n).1
  stage : ∃ b' o, t.1.stage = .collecting (Event.endingOf (letOut input n).2) b' o ∧
    b.addAll w (Event.items (letOut input n).2) = (.ok (), b', t.2) ∧ o.status = .open ∧
      ∀ k, o.subscriber = some k → asks k
  ended_before : Event.endingOf (letOut input n).2 ≠ none → n = 0

/-- Where a sort stands that has read `n` batches of its input, and what was heard
of it. -/
inductive Stands (n : Nat) (t : Sorter S O α × W) (hs : List (Heard W α)) : Prop
  | reading : Reading input b w asks n t → hs = [] → Stands n t hs
  | closed : t.1.input = (letOut input n).1 → (∃ d, t.1.stage = .closed d) → hs = [] →
      Stands n t hs
  | failed {e : Failure} {k : Subscriber α} : t.1.input = (letOut input n).1 → t.1.GivenUp →
      FailsBy b w (letOut input n).2 e → asks k →
      Heard.events hs = Supply.endingEvents k (.failed e) → Stands n t hs
  | merging : t.1.input = (letOut input n).1 → t.1.PastReading →
      HandsOver b w (letOut input n).2 t hs → Stands n t hs

end Stands

variable {input : S} {b b' : RunGenerator O α} {w w' : W} {asks : Subscriber α → Prop} {n : Nat}
  {s : Sorter S O α} {o : Supply α} {t : Sorter S O α × W} {hs : List (Heard W α)}

/-! ## Turns -/

theorem fail_stands (hin : s.input = (letOut input n).1) (hc : o.canSend = true)
    (hasks : ∀ k, o.subscriber = some k → asks k) {e : Failure}
    (he : FailsBy b w (letOut input n).2 e) :
    Stands input b w asks n (s.fail w' o e).state (s.fail w' o e).events := by
  obtain ⟨ho, hsub, -⟩ := Supply.canSend_iff.mp hc
  obtain ⟨k, hk⟩ := Option.isSome_iff_exists.mp hsub
  obtain ⟨hst, hev⟩ := Supply.finish_of_open ho (.failed e)
  rw [hk] at hst hev
  refine .failed (e := e) (k := k) hin ⟨_, hst⟩ he (hasks k hk) ?_
  rw [fail]
  dsimp only
  rw [Heard.events_ofEvents]
  exact hev

/-- When the input has ended and all its items were taken in, the sort either
fails at the closing of its generator, or merges. -/
theorem beginMerge_stands (hin : s.input = (letOut input n).1) (hc : o.canSend = true)
    (hasks : ∀ k, o.subscriber = some k → asks k)
    (hadd : b.addAll w (Event.items (letOut input n).2) = (.ok (), b', w'))
    (hend : Event.endingOf (letOut input n).2 = some .ended) :
    Stands input b w asks n (s.beginMerge w' b' o).state (s.beginMerge w' b' o).events := by
  rw [beginMerge]
  split
  · next e w₂ hclose => exact fail_stands hin hc hasks (.close hadd hend hclose)
  · next runs w₂ hclose =>
    let u : Sorter S O α × W :=
      ({ s with
          stage := .merging (s.mergeOf b' o runs)
          files := (Run.paths runs).length
          runs := runs.length }, w₂)
    refine .merging hin trivial ⟨b', runs, u, o, [], ⟨hend, _, hadd, hclose⟩, rfl, ?_⟩
    simp only [actAll, List.append_nil]
    rfl

/-- A batch is taken in before anything else is done about it. -/
theorem takeIn_stands (hc : o.canSend = true) (hasks : ∀ k, o.subscriber = some k → asks k)
    (hadd : b.addAll w (Event.items (letOut input n).2) = (.ok (), b', w'))
    (hopen : Event.endingOf (letOut input n).2 = none) {es : List (Event α)}
    (hnext : letOut input (n + 1) = (s.input, (letOut input n).2 ++ es)) :
    let u := s.takeIn w' b' o es
    (u.again = true → Reading input b w asks (n + 1) u.state ∧ u.events = []) ∧
      (u.again = false → Stands input b w asks (n + 1) u.state u.events) := by
  have hin : s.input = (letOut input (n + 1)).1 := (congrArg Prod.fst hnext).symm
  have hout : (letOut input (n + 1)).2 = (letOut input n).2 ++ es := congrArg Prod.snd hnext
  have hitems : Event.items (letOut input (n + 1)).2 =
      Event.items (letOut input n).2 ++ Event.items es := by
    rw [hout, Event.items_append]
  have hending : Event.endingOf (letOut input (n + 1)).2 = Event.endingOf es := by
    rw [hout, Event.endingOf, List.findSome?_append]
    exact congrArg (Option.or · _) hopen
  have hall := RunGenerator.addAll_append hadd (Event.items es)
  rw [← hitems] at hall
  -- The items are looked at before the ending, so a bad item decides even where the
  -- same batch ends with an error.
  rw [takeIn]
  dsimp only
  split
  · next e b'' w'' hb =>
    have hfirst : FailsBy b w (letOut input (n + 1)).2 e := by
      refine .item (RunGenerator.failsOn_iff.mpr ?_)
      rw [hall, hb]
    exact ⟨fun h => absurd h (by simp), fun _ => fail_stands hin hc hasks hfirst⟩
  · next b'' w'' hb =>
    rw [hb] at hall
    split
    · next e hend =>
      have hfirst := FailsBy.input hall (hending.trans hend)
      exact ⟨fun h => absurd h (by simp), fun _ => fail_stands hin hc hasks hfirst⟩
    · next hend =>
      exact ⟨fun h => absurd h (by simp),
        fun _ => beginMerge_stands (s := { s with itemsRead := _ }) hin hc hasks hall
          (hending.trans hend)⟩
    · next hend =>
      have hnone := hending.trans hend
      have hreading : Reading input b w asks (n + 1)
          ({ s with
              stage := .collecting none b'' o
              itemsRead := s.itemsRead + (Event.items es).length }, w'') :=
        { input_eq := hin
          stage := ⟨b'', o, by rw [hnone], hall, (Supply.canSend_iff.mp hc).1, hasks⟩
          ended_before := fun h => absurd hnone h }
      exact ⟨fun _ => ⟨hreading, rfl⟩, fun _ => .reading hreading rfl⟩

theorem Reading.turn (h : Reading input b w asks n t) :
    ((turn t).again = true → Reading input b w asks (n + 1) (turn t).state ∧ (turn t).events = []) ∧
      ((turn t).again = false →
        ∃ n, Stands input b w asks n (turn t).state (turn t).events) := by
  obtain ⟨s, w'⟩ := t
  obtain ⟨b', o, hst, hadd, -, hasks⟩ := h.stage
  have hst : s.stage = .collecting (Event.endingOf (letOut input n).2) b' o := hst
  rw [Sorter.turn]
  simp only [hst]
  split
  · exact ⟨fun h => absurd h (by simp), fun _ => ⟨n, .reading h rfl⟩⟩
  next hc =>
    have hc : o.canSend = true := by simpa using hc
    split
    · next e hend =>
      exact ⟨fun h => absurd h (by simp),
        fun _ => ⟨n, fail_stands h.input_eq hc hasks (.input hadd hend)⟩⟩
    · next hend =>
      exact ⟨fun h => absurd h (by simp),
        fun _ => ⟨n, beginMerge_stands h.input_eq hc hasks hadd hend⟩⟩
    · next hopen =>
      have hnext : letOut input (n + 1) =
          ((Producer.drive s.askInput).1,
            (letOut input n).2 ++ (Producer.drive s.askInput).2) := by
        rw [letOut_succ, drive_askInput, ← h.input_eq]
      obtain ⟨hagain, hlast⟩ := takeIn_stands (s := { s with input := _ }) hc hasks hadd hopen hnext
      exact ⟨hagain, fun h => ⟨n + 1, hlast h⟩⟩

theorem Reading.readInput (h : Reading input b w asks n t) :
    ∃ n, Stands input b w asks n (t.1.readInput t.2).1 (t.1.readInput t.2).2 := by
  -- Each turn that goes on takes one batch more, so the number of batches is not fixed.
  refine Turn.iterate_last
    (P := fun t hs => (∃ n, Reading input b w asks n t) ∧ hs = [])
    (Q := fun t hs => ∃ n, Stands input b w asks n t hs) ?_ ?_ t ⟨⟨n, h⟩, rfl⟩
  · rintro t hs ⟨⟨n, h⟩, rfl⟩ ha
    obtain ⟨hnext, hev⟩ := h.turn.1 ha
    exact ⟨⟨n + 1, hnext⟩, hev⟩
  · rintro t hs ⟨⟨n, h⟩, rfl⟩ hl
    exact h.turn.2 hl

/-! ## Deeds -/

/-- A sort that has come to merging takes nothing from its input any more. -/
theorem PastReading.carryOut (h : t.1.PastReading) (d : Deed α) :
    (d.carryOut t).1.1.input = t.1.input ∧ (d.carryOut t).1.1.PastReading := by
  obtain ⟨⟨settings, codec, input, stage, itemsRead, files, runs⟩, w⟩ := t
  cases stage with
  | collecting heard b o => exact h.elim
  | merging m => cases d <;> exact ⟨rfl, trivial⟩
  | failed o => exact h.elim
  | closed o => cases d <;> exact ⟨rfl, trivial⟩

theorem GivenUp.carryOut (h : t.1.GivenUp) (d : Deed α) :
    (d.carryOut t).1.1.GivenUp ∧ (d.carryOut t).2 = [] ∧ (d.carryOut t).1.1.input = t.1.input := by
  obtain ⟨⟨settings, codec, input, stage, itemsRead, files, runs⟩, w⟩ := t
  cases stage with
  | collecting heard b o => exact h.elim
  | merging m => exact h.elim
  | failed o =>
      obtain ⟨e, ho⟩ : ∃ e, o.status = .over e := h
      cases d with
      | subscribe k =>
          have hsub : o.subscribe k = ({ o with subscriber := some k, received := 0 }, []) := by
            rw [Supply.subscribe, ho]
          have hst : (o.subscribe k).1.status = .over e := by rw [hsub, ho]
          have hev : Heard.ofEvents w (o.subscribe k).2 = [] := by rw [hsub]; rfl
          exact ⟨⟨e, hst⟩, hev, rfl⟩
      | change d => exact ⟨⟨e, ho⟩, rfl, rfl⟩
      | drive => exact ⟨⟨e, ho⟩, rfl, rfl⟩
      | close => exact ⟨trivial, rfl, rfl⟩
  | closed o => cases d <;> exact ⟨trivial, rfl, rfl⟩

theorem Reading.withSupply (h : Reading input b w asks n t)
    (ho : o.status = .open) (hasks : ∀ k, o.subscriber = some k → asks k) :
    Reading input b w asks n (t.1.withSupply o, t.2) := by
  obtain ⟨b', p, hst, hadd, -, -⟩ := h.stage
  rw [Sorter.withSupply, hst]
  exact ⟨h.input_eq, ⟨b', o, rfl, hadd, ho, hasks⟩, h.ended_before⟩

theorem Reading.withDemand (h : Reading input b w asks n t) (demand : Demand) :
    Reading input b w asks n (t.1.withSupply { t.1.supply with demand }, t.2) := by
  obtain ⟨b', p, hst, -, ho, hasks⟩ := h.stage
  have hsup : t.1.supply = p := by rw [supply, hst]
  exact h.withSupply (hsup ▸ ho) (hsup ▸ hasks)

theorem Reading.carryOut (h : Reading input b w asks n t) (d : Deed α)
    (hd : ∀ k, d = .subscribe k → asks k) :
    ∃ n, Stands input b w asks n (d.carryOut t).1 (d.carryOut t).2 := by
  obtain ⟨b', o, hst, -, ho, hasks⟩ := h.stage
  have hsup : t.1.supply = o := by rw [supply, hst]
  cases d with
  | subscribe k =>
      obtain ⟨hsub, hopen, hev⟩ := Supply.subscribe_of_open ho k
      have hr : Reading input b w asks n (t.1.withSupply (o.subscribe k).1, t.2) := by
        refine h.withSupply hopen ?_
        intro l hl
        obtain rfl : k = l := Option.some.inj (hsub.symm.trans hl)
        exact hd k rfl
      rw [← hsup] at hr hev
      refine ⟨n, .reading hr ?_⟩
      show Heard.ofEvents _ (t.1.supply.subscribe k).2 = []
      rw [hev]
      rfl
  | change d => exact ⟨n, .reading (h.withDemand _) rfl⟩
  | drive =>
      have hdrive : t.1.drive t.2 = t.1.readInput t.2 := by rw [drive, hst]
      rw [Deed.carryOut, hdrive]
      exact h.readInput
  | close => exact ⟨n, .closed h.input_eq ⟨_, rfl⟩ rfl⟩

theorem Stands.carryOut (h : Stands input b w asks n t hs) (d : Deed α)
    (hd : ∀ k, d = .subscribe k → asks k) :
    ∃ n, Stands input b w asks n (d.carryOut t).1 (hs ++ (d.carryOut t).2) := by
  cases h with
  | reading hr hnone =>
      rw [hnone]
      exact hr.carryOut d hd
  | closed hin hst hnone =>
      obtain ⟨⟨settings, codec, i, stage, itemsRead, files, runs⟩, w⟩ := t
      obtain ⟨p, rfl⟩ : ∃ p, stage = .closed p := hst
      rw [hnone]
      cases d <;> exact ⟨n, .closed hin ⟨_, rfl⟩ rfl⟩
  | failed hin hg he hk hev =>
      obtain ⟨hg, hnone, hsame⟩ := hg.carryOut d
      refine ⟨n, .failed (hsame.trans hin) hg he hk ?_⟩
      rw [hnone, List.append_nil]
      exact hev
  | merging hin hp hm =>
      obtain ⟨hsame, hp⟩ := hp.carryOut d
      obtain ⟨b', runs, u, o, ds, hall, hst, hacts⟩ := hm
      refine ⟨n, .merging (hsame.trans hin) hp ⟨b', runs, u, o, ds ++ [d], hall, hst, ?_⟩⟩
      rw [← List.cons_append, actAll_append, hacts]
      simp only [actAll, List.append_nil]

/-! ## Schedules -/

theorem start_reading {w w₁ : W} {settings : Settings} {codec : Codec α} {order : O}
    {tag : UInt32} (h : start w settings codec order tag input = (.ok s, w₁)) :
    Reading input { settings, codec, order, tag } w₁ asks 0 (s, w₁) := by
  obtain ⟨-, -, rfl⟩ := start_ok.mp h
  have hout : letOut input 0 = Producer.subscribe input ({} : Subscriber α) := by
    simp only [letOut, takeBatches, List.append_nil]
  have hitems : Event.items (letOut input 0).2 = [] := by
    rw [hout]
    exact Supply.items_subscribe _ _
  refine ⟨congrArg Prod.fst hout.symm, ⟨{ settings, codec, order, tag }, {}, ?_, ?_, rfl, ?_⟩,
    fun _ => rfl⟩
  · rw [hout]
  · rw [hitems]
    rfl
  · intro k hk
    exact absurd hk (by simp)

/-- Who subscribes in a schedule. -/
def Subscribes (acts : List (Action α)) (k : Subscriber α) : Prop :=
  .command (.subscribe k) ∈ acts

theorem actAll_stands {w w₁ : W} {settings : Settings} {codec : Codec α} {order : O}
    {tag : UInt32} (h : start w settings codec order tag input = (.ok s, w₁))
    (acts : List (Action α)) :
    ∃ n, Stands input { settings, codec, order, tag } w₁ (Subscribes acts) n
      (actAll act (s, w₁) acts).1 (actAll act (s, w₁) acts).2 := by
  refine actAll_of_deeds
    (P := fun t hs => ∃ n, Stands input { settings, codec, order, tag } w₁ (Subscribes acts) n t hs)
    ?_ ⟨0, .reading (start_reading h) rfl⟩
  rintro d hd t hs ⟨n, h⟩
  exact h.carryOut d hd

theorem GivenUp.silent (h : t.1.GivenUp) (acts : List (Action α)) :
    (actAll act t acts).2 = [] := by
  have hall : (actAll act t acts).1.1.GivenUp ∧ (actAll act t acts).2 = [] := by
    refine actAll_of_deeds (P := fun (u : Sorter S O α × W) hs => u.1.GivenUp ∧ hs = []) ?_ ⟨h, rfl⟩
    rintro d - u hs ⟨hg, rfl⟩
    obtain ⟨hg, hnone, -⟩ := hg.carryOut d
    exact ⟨hg, hnone⟩
  exact hall.2

theorem Stands.input_eq (h : Stands input b w asks n t hs) : t.1.input = (letOut input n).1 := by
  cases h with
  | reading hr => exact hr.input_eq
  | closed hin => exact hin
  | failed hin => exact hin
  | merging hin => exact hin

theorem Stands.reads (h : Stands input b w asks n t hs) {heard : Option Ending}
    (hst : t.1.stage = .collecting heard b' o) : Reading input b w asks n t ∧ hs = [] := by
  cases h with
  | reading hr hnone => exact ⟨hr, hnone⟩
  | closed _ hd =>
      obtain ⟨d, hd⟩ := hd
      exact absurd (hst.symm.trans hd) (by simp)
  | failed _ hg =>
      rw [GivenUp, hst] at hg
      exact hg.elim
  | merging _ hp =>
      rw [PastReading, hst] at hp
      exact hp.elim

theorem Reading.of_collecting (h : Reading input b w asks n t) {heard : Option Ending}
    (hst : t.1.stage = .collecting heard b' o) :
    b.addAll w (Event.items (letOut input n).2) = (.ok (), b', t.2) ∧
      Event.endingOf (letOut input n).2 = heard := by
  obtain ⟨b'', p, hst', hadd, -⟩ := h.stage
  obtain ⟨rfl, rfl, -⟩ := SorterStage.collecting.inj (hst'.symm.trans hst)
  exact ⟨hadd, rfl⟩

theorem Stands.handsOver (h : Stands input b w asks n t hs)
    (hm : Event.items (Heard.events hs) ≠ [] ∨ ∃ m, t.1.stage = .merging m) :
    HandsOver b w (letOut input n).2 t hs := by
  cases h with
  | reading hr hnone =>
      obtain ⟨b'', p, hst, -⟩ := hr.stage
      rcases hm with hm | ⟨m, hm⟩
      · exact absurd (by rw [hnone]; rfl) hm
      · exact absurd (hst.symm.trans hm) (by simp)
  | closed _ hd hnone =>
      obtain ⟨d, hd⟩ := hd
      rcases hm with hm | ⟨m, hm⟩
      · exact absurd (by rw [hnone]; rfl) hm
      · exact absurd (hd.symm.trans hm) (by simp)
  | failed _ hg _ _ hev =>
      rcases hm with hm | ⟨m, hm⟩
      · exact absurd (by rw [hev, Supply.items_endingEvents]) hm
      · rw [GivenUp, hm] at hg
        exact hg.elim
  | merging _ _ hh => exact hh

theorem Stands.of_failed (h : Stands input b w asks n t hs) (hst : t.1.stage = .failed o) :
    ∃ e, FailsBy b w (letOut input n).2 e ∧ t.1.GivenUp ∧
      ∃ k, asks k ∧ Heard.events hs = Supply.endingEvents k (.failed e) := by
  cases h with
  | reading hr =>
      obtain ⟨b'', p, hst', -⟩ := hr.stage
      exact absurd (hst'.symm.trans hst) (by simp)
  | closed _ hd =>
      obtain ⟨d, hd⟩ := hd
      exact absurd (hd.symm.trans hst) (by simp)
  | failed _ hg he hk hev => exact ⟨_, he, hg, _, hk, hev⟩
  | merging _ hp =>
      rw [PastReading, hst] at hp
      exact hp.elim

/-- Whatever is done with a sort, what its input has let out in the batches that
were taken settles where it stands.

As long as it reads, every item was taken in, in order, and nothing is heard; the
input has not ended, unless it had when the sort got it.  Once an item is heard,
and already when there is a merge, the whole input is in, and all that is heard
comes from the merge that began then.  If the sort fails before that, there is one
step that fails first, and all that is ever heard is its error: the items of a
batch go before the error that the input ends with in the same batch. -/
theorem first_failure_wins (w w₁ : W) (settings : Settings) (codec : Codec α) (order : O)
    (tag : UInt32) (input : S) (s : Sorter S O α)
    (h : start w settings codec order tag input = (.ok s, w₁)) (acts : List (Action α)) :
    let b : RunGenerator O α := { settings, codec, order, tag }
    let t := (actAll act (s, w₁) acts).1
    let hs := (actAll act (s, w₁) acts).2
    ∃ n, let es := (letOut input n).2
      t.1.input = (letOut input n).1 ∧
      (∀ heard b' o, t.1.stage = .collecting heard b' o →
        b.addAll w₁ (Event.items es) = (.ok (), b', t.2) ∧ Event.endingOf es = heard ∧
          (heard ≠ none → n = 0) ∧ hs = []) ∧
      (Event.items (Heard.events hs) ≠ [] ∨ (∃ m, t.1.stage = .merging m) →
        HandsOver b w₁ es t hs) ∧
      (∀ o, t.1.stage = .failed o → ∃ e, (∀ x, FailsBy b w₁ es x ↔ x = e) ∧
        ∃ k, Subscribes acts k ∧ ∀ more,
          Heard.events (actAll act (s, w₁) (acts ++ more)).2 =
            Supply.endingEvents k (.failed e)) := by
  intro b t hs
  obtain ⟨n, hstands⟩ := actAll_stands h acts
  refine ⟨n, hstands.input_eq, ?_, hstands.handsOver, ?_⟩
  · intro heard b' o hst
    obtain ⟨hr, hnone⟩ := hstands.reads hst
    obtain ⟨hadd, rfl⟩ := hr.of_collecting hst
    exact ⟨hadd, rfl, hr.ended_before, hnone⟩
  intro o hst
  obtain ⟨e, he, hg, k, hk, hev⟩ := hstands.of_failed hst
  refine ⟨e, fun x => ⟨he.unique, fun hx => hx ▸ he⟩, k, hk, ?_⟩
  intro more
  rw [actAll_append]
  dsimp only
  rw [hg.silent, List.append_nil]
  exact hev

/-- There is room for one file alone. -/
def fullPlan : StorePlan where
  createFault n := if n = 1 then some ⟨.other, "disk full"⟩ else none

/-- Two items, and the beginning of a third one. -/
def cutInput : FrameStream UInt8 :=
  .ofSource [.data [0, 0, 0, 1, 3, 0, 0, 0, 1, 1, 0, 0]] byteCodec.decode 16

/-- The second item cannot be spilled, and in the same batch the input breaks off.
The fault of the store is heard, and that one alone. -/
theorem fault_before_cut_input :
    ∃ (s : Sorter (FrameStream UInt8) (PlainOrder UInt8) UInt8) (w : PlannedStore),
      start { plan := fullPlan } { Settings.standard ⟨"runs"⟩ with threshold := 1 } byteCodec
        (PlainOrder.natural UInt8) 7 cutInput = (.ok s, w) ∧
      ∃ n, FailsBy
          { settings := { Settings.standard ⟨"runs"⟩ with threshold := 1 }
            codec := byteCodec
            order := PlainOrder.natural UInt8
            tag := 7 } w (letOut cutInput n).2 (.io ⟨.other, "disk full"⟩) ∧
        ∀ more, Heard.events
            (actAll act (s, w) ([.command (.subscribe {}), .command .resume] ++ more)).2 =
          [.ending (.failed (.io ⟨.other, "disk full"⟩))] := by
  refine ⟨_, _, rfl, ?_⟩
  have hall := first_failure_wins ({ plan := fullPlan } : PlannedStore) _
    { Settings.standard ⟨"runs"⟩ with threshold := 1 } byteCodec (PlainOrder.natural UInt8) 7
    cutInput _ rfl [.command (.subscribe {}), .command .resume]
  obtain ⟨n, -, -, -, hfailed⟩ := hall
  have hstage : ∀ u : Sorter (FrameStream UInt8) (PlainOrder UInt8) UInt8,
      (match u.stage with
        | .failed _ => true
        | _ => false) = true → ∃ o, u.stage = .failed o := by
    intro u hu
    split at hu
    · exact ⟨_, by assumption⟩
    · exact absurd hu (by simp)
  obtain ⟨x, hx, k, hk, hev⟩ := hfailed _ (hstage _ (by decide +kernel)).choose_spec
  obtain rfl : k = {} := by simpa [Subscribes] using hk
  have hheard := (hev []).symm.trans
    (by decide +kernel : _ = [Event.ending (.failed (.io ⟨.other, "disk full"⟩))])
  obtain rfl : x = .io ⟨.other, "disk full"⟩ := by
    simpa [Supply.endingEvents, Subscriber.hears] using hheard
  exact ⟨n, (hx _).mpr rfl, hev⟩

end ExternalSort.Sorter
