/-
What can be done with a sort, and that it ends once.

Besides the commands of a consumer a sort can be closed.  What is heard goes
with the store as it was then, so that it shows what had been done before
(`Sorter.act`).  A sort passes its supply on from the reading of its input to
the merge; in each stage the supply is open exactly as long as the stage
goes on (`Sorter.InStep`).
-/
import ExternalSort.Proofs.Merge.Steps
import ExternalSort.Sorter.Basic

namespace ExternalSort.Sorter

variable {S O α W : Type} [FiniteProducer S α] [ItemOrder O α] [SpillStore W]

/-! ## Actions -/

/-- What can be done with a sort. -/
inductive Action (α : Type) where
  | command (c : Command α)
  | close

def Action.move : Action α → Move α
  | command c => c.move
  | close => .close

/-- A command, and what is heard of it with the store it is heard with. -/
def hear (t : Sorter S O α × W) : Command α → (Sorter S O α × W) × List (Heard W α)
  | .subscribe h =>
    let (t, es) := Producer.subscribe t h
    (t, Heard.ofEvents t.2 es)
  | .fetch n =>
    match Demand.ofRequest n with
    | .error _ => (t, [])
    | .ok n =>
      let u := Producer.request t n
      if n = 0 then (t, []) else u.1.drive u.2
  | .request n => ((Demand.ofRequest n).toOption.elim t (Producer.request t), [])
  | .pause => (Producer.pause t, [])
  | .resume =>
    let u := Producer.changeDemand t .unlimit
    u.1.drive u.2
  | .drive => t.1.drive t.2

def act (t : Sorter S O α × W) : Action α → (Sorter S O α × W) × List (Heard W α)
  | .command c => hear t c
  | .close => (t.1.close t.2, [])

/-- The plain deeds that every action comes down to. -/
inductive Deed (α : Type) where
  | subscribe (h : Subscriber α)
  | change (d : Demand.Change)
  | drive
  | close

def Deed.carryOut (t : Sorter S O α × W) : Deed α → (Sorter S O α × W) × List (Heard W α)
  | .subscribe h =>
    ((Producer.subscribe t h).1,
      Heard.ofEvents (Producer.subscribe t h).1.2 (Producer.subscribe t h).2)
  | .change d => (Producer.changeDemand t d, [])
  | .drive => t.1.drive t.2
  | .close => (t.1.close t.2, [])

/-- Which deeds an action comes down to does not depend on the sort, and only who
subscribes does so. -/
theorem act_deeds (a : Action α) :
    ∃ ds : List (Deed α), (∀ k, .subscribe k ∈ ds → a = .command (.subscribe k)) ∧
      ∀ t : Sorter S O α × W, act t a = actAll Deed.carryOut t ds := by
  have hnone : ∀ k : Subscriber α, Deed.subscribe k ∈ ([] : List (Deed α)) →
      a = .command (.subscribe k) := fun k hk => absurd hk List.not_mem_nil
  cases a with
  | close => exact ⟨[.close], by simp, fun t => rfl⟩
  | command c =>
      cases c with
      | subscribe h =>
          refine ⟨[.subscribe h], by simp, ?_⟩
          intro t
          simp only [act, hear, actAll, Deed.carryOut, List.append_nil]
      | fetch n =>
          cases hr : Demand.ofRequest n with
          | error e =>
              refine ⟨[], hnone, ?_⟩
              intro t
              simp only [act, hear, hr, actAll]
          | ok n =>
              by_cases hn : n = 0
              · refine ⟨[], hnone, ?_⟩
                intro t
                simp only [act, hear, hr, hn, if_true, actAll]
              · refine ⟨[.change (.request n), .drive], by simp, ?_⟩
                intro t
                simp only [act, hear, hr, hn, if_false, actAll, Deed.carryOut, List.append_nil,
                  List.nil_append]
                rfl
      | request n =>
          cases hr : Demand.ofRequest n with
          | error e =>
              refine ⟨[], hnone, ?_⟩
              intro t
              simp only [act, hear, hr, actAll]
              rfl
          | ok n =>
              refine ⟨[.change (.request n)], by simp, ?_⟩
              intro t
              simp only [act, hear, hr, actAll]
              rfl
      | pause => exact ⟨[.change .pause], by simp, fun t => rfl⟩
      | resume =>
          refine ⟨[.change .unlimit, .drive], by simp, ?_⟩
          intro t
          simp only [act, hear, actAll, Deed.carryOut, List.append_nil, List.nil_append]
      | drive =>
          refine ⟨[.drive], by simp, ?_⟩
          intro t
          simp only [act, hear, actAll, Deed.carryOut, List.append_nil]

/-- What every deed keeps, every schedule keeps.  In a schedule only those subscribe
whom it names. -/
theorem actAll_of_deeds {P : Sorter S O α × W → List (Heard W α) → Prop} {acts : List (Action α)}
    (step : ∀ d : Deed α, (∀ k, d = .subscribe k → .command (.subscribe k) ∈ acts) →
      ∀ t hs, P t hs → P (d.carryOut t).1 (hs ++ (d.carryOut t).2))
    {t : Sorter S O α × W} (h : P t []) : P (actAll act t acts).1 (actAll act t acts).2 := by
  suffices hall : P (actAll act t acts).1 ([] ++ (actAll act t acts).2) from hall
  refine actAll_induction_of_mem ?_ h
  intro a ha t hs ht
  obtain ⟨ds, hsub, hds⟩ := act_deeds (S := S) (O := O) (W := W) a
  rw [hds]
  refine actAll_induction_of_mem ?_ ht
  intro d hd
  refine step d ?_
  rintro k rfl
  rw [← hsub k hd]
  exact ha

theorem hear_eq_perform (t : Sorter S O α × W) (c : Command α) :
    ((hear t c).1, Heard.events (hear t c).2) = Command.perform t c := by
  cases c with
  | subscribe h =>
      rw [hear]
      dsimp only
      rw [Heard.events_ofEvents]
      rfl
  | fetch n =>
      simp only [hear, Command.perform, Producer.fetch]
      cases Demand.ofRequest n with
      | error e => rfl
      | ok n =>
          by_cases hn : n = 0
          · simp [Except.map, Except.toOption, hn]
          · simp only [Except.map, Except.toOption, hn, if_false]
            rfl
  | request n => rfl
  | pause => rfl
  | resume => rfl
  | drive => rfl

/-- A sort that can be closed, as a stream. -/
def conduct {ρ : Type} (work : Sorter S O α × W → ρ) :
    Conduct (Sorter S O α × W) (Action α) ρ α where
  act t a := ((act t a).1, Heard.events (act t a).2)
  move := Action.move
  supply t := t.1.supply
  work := work

/-! ## Steps -/

section Steps

variable {s : Sorter S O α} {w : W} {b : RunGenerator O α} {o : Supply α}

omit [FiniteProducer S α] [ItemOrder O α] [SpillStore W] in
theorem fail_steps (s : Sorter S O α) (w : W) (o : Supply α) (e : Failure) :
    Supply.Steps o (Heard.events (s.fail w o e).events) (s.fail w o e).state.1.supply := by
  rw [fail]
  dsimp only
  rw [Heard.events_ofEvents]
  exact .one_finish o _

omit [FiniteProducer S α] in
theorem beginMerge_steps (s : Sorter S O α) (w : W) (b : RunGenerator O α) (o : Supply α) :
    Supply.Steps o (Heard.events (s.beginMerge w b o).events)
      (s.beginMerge w b o).state.1.supply := by
  rw [beginMerge]
  split
  · exact fail_steps ..
  · next runs w' _ =>
    exact Merge.drive_steps
      { (Merge.ofRuns b.order s.codec.decode runs).withSettings s.settings with supply := o } w'

omit [FiniteProducer S α] in
theorem takeIn_steps (s : Sorter S O α) (w : W) (b : RunGenerator O α) (o : Supply α)
    (es : List (Event α)) :
    Supply.Steps o (Heard.events (s.takeIn w b o es).events)
      (s.takeIn w b o es).state.1.supply := by
  rw [takeIn]
  split
  · exact fail_steps ..
  · split
    · exact fail_steps ..
    · exact beginMerge_steps ..
    · exact .refl o

theorem turn_steps (t : Sorter S O α × W) :
    Supply.Steps t.1.supply (Heard.events (turn t).events) (turn t).state.1.supply := by
  obtain ⟨⟨settings, codec, input, stage, itemsRead, files, runs⟩, w⟩ := t
  cases stage with
  | collecting heard b o =>
      rw [turn]
      dsimp only
      split
      · exact .refl o
      · split
        · exact fail_steps ..
        · exact beginMerge_steps ..
        · exact takeIn_steps ..
  | merging m => exact .refl _
  | failed o => exact .refl _
  | closed d => exact .refl _

theorem drive_steps (s : Sorter S O α) (w : W) :
    Supply.Steps s.supply (Heard.events (s.drive w).2) (s.drive w).1.1.supply := by
  rw [drive]
  split
  · refine Turn.iterate_trace
      (R := fun t es u => Supply.Steps t.1.supply (Heard.events es) u.1.supply)
      (fun _ => .refl _) ?_ turn_steps (s, w)
    intro t u v es fs h k
    rw [Heard.events_append]
    exact h.trans k
  · next m hm =>
    have := Merge.drive_steps m w
    rwa [show s.supply = m.supply by simp [supply, hm]]
  · exact .refl _
  · exact .refl _

instance : OrderlyProducer (Sorter S O α × W) α where
  supply_changeDemand t c := by
    obtain ⟨⟨settings, codec, input, stage, itemsRead, files, runs⟩, w⟩ := t
    cases stage <;> rfl
  supply_subscribe t h := by
    obtain ⟨⟨settings, codec, input, stage, itemsRead, files, runs⟩, w⟩ := t
    cases stage <;> rfl
  drive_steps t := drive_steps t.1 t.2

end Steps

/-! ## Stages -/

/-- The supply of a sort is open exactly as long as its stage goes on. -/
def InStep (s : Sorter S O α) : Prop :=
  match s.stage with
  | .collecting _ _ o => o.isOpen = true
  | .merging m => m.InStep
  | .failed o => o.isOpen = false
  | .closed _ => True

section Stages

variable {s : Sorter S O α} {w : W} {b : RunGenerator O α} {o : Supply α}

omit [FiniteProducer S α] [ItemOrder O α] [SpillStore W] in
theorem fail_inStep (e : Failure) : InStep (s.fail w o e).state.1 := o.finish_isOpen _

omit [FiniteProducer S α] in
theorem beginMerge_inStep (ho : o.isOpen = true) : InStep (s.beginMerge w b o).state.1 := by
  rw [beginMerge]
  split
  · exact fail_inStep _
  · exact Merge.drive_inStep (Merge.inStep_of_open rfl ho)

omit [FiniteProducer S α] in
theorem takeIn_inStep (ho : o.isOpen = true) (es : List (Event α)) :
    InStep (s.takeIn w b o es).state.1 := by
  rw [takeIn]
  split
  · exact fail_inStep _
  · split
    · exact fail_inStep _
    · exact beginMerge_inStep ho
    · exact ho

theorem turn_inStep {t : Sorter S O α × W} (h : InStep t.1) : InStep (turn t).state.1 := by
  obtain ⟨⟨settings, codec, input, stage, itemsRead, files, runs⟩, w⟩ := t
  cases stage with
  | collecting heard b o =>
      rw [turn]
      dsimp only
      split
      · exact h
      · split
        · exact fail_inStep _
        · exact beginMerge_inStep h
        · exact takeIn_inStep h _
  | merging m => exact h
  | failed o => exact h
  | closed d => exact h

theorem drive_inStep (h : InStep s) : InStep (s.drive w).1.1 := by
  rw [drive]
  split
  · exact Turn.iterate_induction (fun t _ => InStep t.1) (fun t _ ht => turn_inStep ht) (s, w) h
  · next m hm =>
    have hm : m.InStep := by simpa [InStep, hm] using h
    exact Merge.drive_inStep hm
  · exact h
  · exact h

omit [FiniteProducer S α] [ItemOrder O α] in
theorem withSupply_inStep (h : InStep s) (ho : o.isOpen = s.supply.isOpen) :
    InStep (s.withSupply o) := by
  obtain ⟨settings, codec, input, stage, itemsRead, files, runs⟩ := s
  cases stage with
  | collecting heard b p => exact ho.trans h
  | merging m =>
      have h : m.InStep := h
      exact ⟨h.phase.trans (congrArg _ ho.symm), h.released⟩
  | failed p => exact ho.trans h
  | closed d => trivial

theorem turn_of_not_canSend (t : Sorter S O α × W) (h : t.1.supply.canSend = false) :
    turn t = .rest t := by
  obtain ⟨⟨settings, codec, input, stage, itemsRead, files, runs⟩, w⟩ := t
  cases stage with
  | collecting heard b o =>
      have h : o.canSend = false := h
      exact if_pos (by simp [h])
  | merging m => rfl
  | failed o => rfl
  | closed d => rfl

theorem drive_of_not_open (h : InStep s) (ho : s.supply.isOpen = false) :
    s.drive w = ((s, w), []) := by
  obtain ⟨settings, codec, input, stage, itemsRead, files, runs⟩ := s
  cases stage with
  | collecting heard b p =>
      have h : p.isOpen = true := h
      exact absurd (h.symm.trans ho) (by simp)
  | merging m =>
      have hd := Merge.drive_of_not_open (w := w) h ho
      rw [drive]
      dsimp only
      rw [hd]
  | failed p => rfl
  | closed d => rfl

/-- The files that the merge of a sort reads. -/
def intakes (s : Sorter S O α) : List (Intake (RunStream α) α) :=
  match s.stage with
  | .merging m => m.intakes
  | .collecting .. | .failed _ | .closed _ => []

omit [FiniteProducer S α] [ItemOrder O α] in
theorem released_of_not_open (h : InStep s) (ho : s.supply.isOpen = false) :
    s.intakes = [] ∧ s.discard w = w := by
  obtain ⟨settings, codec, input, stage, itemsRead, files, runs⟩ := s
  cases stage with
  | collecting heard b p =>
      have h : p.isOpen = true := h
      exact absurd (h.symm.trans ho) (by simp)
  | merging m =>
      have h : m.InStep := h
      have hf : m.phase.isFinal = true := by
        rw [h.phase, show m.supply.isOpen = false from ho]
        rfl
      obtain ⟨-, hi, hfs⟩ := h.released hf
      refine ⟨hi, ?_⟩
      show SpillStore.removeAll w m.files = w
      rw [hfs]
      rfl
  | failed p => exact ⟨rfl, rfl⟩
  | closed d => exact ⟨rfl, rfl⟩

/-- What a sort works on: its input, the files it reads, and the store. -/
def work (t : Sorter S O α × W) : S × List (Intake (RunStream α) α) × W :=
  (t.1.input, t.1.intakes, t.2)

theorem command_lawful :
    (Command.conduct (work (S := S) (O := O) (α := α) (W := W))).Lawful fun t => InStep t.1 := by
  refine Command.lawful (fun t o h ho => withSupply_inStep h ho) (fun t h => drive_inStep h) ?_ ?_
  · intro t o
    obtain ⟨⟨settings, codec, input, stage, itemsRead, files, runs⟩, w⟩ := t
    cases stage <;> rfl
  · intro t h ho
    show work (t.1.drive t.2).1 = work t
    rw [drive_of_not_open h ho]

theorem lawful :
    (conduct (work (S := S) (O := O) (α := α) (W := W))).Lawful fun t => InStep t.1 where
  keeps t a h := by
    cases a with
    | command c =>
        show InStep (hear t c).1.1
        rw [show (hear t c).1 = (Command.perform t c).1 from congrArg Prod.fst (hear_eq_perform t c)]
        exact command_lawful.keeps t c h
    | close => trivial
  moved t a h := by
    cases a with
    | command c =>
        show (t.1.supply).Moved c.move (Heard.events (hear t c).2) (hear t c).1.1.supply
        have he := hear_eq_perform t c
        rw [show (hear t c).1 = (Command.perform t c).1 from congrArg Prod.fst he,
          show Heard.events (hear t c).2 = (Command.perform t c).2 from congrArg Prod.snd he]
        exact command_lawful.moved t c h
    | close => exact ⟨rfl, rfl⟩
  frozen t a h ho := by
    cases a with
    | command c =>
        show work (hear t c).1 = work t
        rw [show (hear t c).1 = (Command.perform t c).1 from congrArg Prod.fst (hear_eq_perform t c)]
        exact command_lawful.frozen t c h ho
    | close =>
        obtain ⟨hi, hd⟩ := released_of_not_open (w := t.2) h ho
        show (t.1.input, [], t.1.discard t.2) = (t.1.input, t.1.intakes, t.2)
        rw [hi, hd]

omit [FiniteProducer S α] in
theorem takeIn_goesOn {es : List (Event α)} (h : (s.takeIn w b o es).again = true) :
    (s.takeIn w b o es).state.1.supply = o := by
  revert h
  rw [takeIn]
  split
  · simp
  split
  · simp
  · simp
  · intro _
    rfl

theorem turn_again : Turn.StopsWhenOver turn fun t : Sorter S O α × W => t.1.supply := by
  intro t h
  revert h
  obtain ⟨⟨settings, codec, input, stage, itemsRead, files, runs⟩, w⟩ := t
  cases stage with
  | collecting heard b o =>
      rw [turn]
      dsimp only
      split
      · simp
      next hc =>
        have ho := Supply.isOpen_iff.mpr (Supply.canSend_iff.mp (by simpa using hc)).1
        split
        · simp
        · simp
        · intro h
          exact (congrArg Supply.isOpen (takeIn_goesOn h)).trans ho
  | merging m => simp [turn]
  | failed o => simp [turn]
  | closed d => simp [turn]

omit [ItemOrder O α] in
theorem start_ok {w w' : W} {settings : Settings} {codec : Codec α} {order : O} {tag : UInt32}
    {input : S} : start w settings codec order tag input = (.ok s, w') ↔
      settings.check = .ok () ∧
      SpillStore.ensureDirectory w settings.directory = (.ok (), w') ∧
      s =
        { settings
          codec
          input := (Producer.subscribe input ({} : Subscriber α)).1
          stage := .collecting
            (Event.endingOf (Producer.subscribe input ({} : Subscriber α)).2)
            { settings, codec, order, tag } {} } := by
  rw [start]
  cases settings.check with
  | error e => simp
  | ok u =>
      cases SpillStore.ensureDirectory w settings.directory with
      | mk r w₁ =>
          cases r with
          | error f => simp
          | ok u =>
              simp only [Prod.mk.injEq, Except.ok.injEq, true_and]
              constructor
              · rintro ⟨rfl, rfl⟩
                exact ⟨rfl, rfl⟩
              · rintro ⟨rfl, rfl⟩
                exact ⟨rfl, rfl⟩

omit [ItemOrder O α] in
theorem start_inStep {w w' : W} {settings : Settings} {codec : Codec α} {order : O} {tag : UInt32}
    {input : S} (h : start w settings codec order tag input = (.ok s, w')) : InStep s := by
  obtain ⟨-, -, rfl⟩ := start_ok.mp h
  rfl

end Stages

end ExternalSort.Sorter
