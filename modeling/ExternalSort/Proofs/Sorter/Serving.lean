/-
What a sort hands over that never waits.

Where nothing ever makes a sort wait, it stops only if nothing may be sent.
So what a call hands over is settled by the items that are left and by what is
asked for (`Supply.serve`), and who wants everything hears all of it in one
call (`start_gather`).
-/
import ExternalSort.Proofs.Sorter.Prompt
import ExternalSort.Proofs.Sorter.Sorts
import ExternalSort.Proofs.Stream.Draining

namespace ExternalSort

/-! ## Serving a list -/

namespace Supply

variable {α : Type} {o o' : Supply α} {es : List (Event α)}

/-- A supply as it is while its stream has not ended. -/
def reopened (o : Supply α) : Supply α := { o with status := .open }

theorem reopened_of_open (h : o.status = .open) : o.reopened = o := by
  rw [reopened, ← h]

theorem reopened_finish (o : Supply α) (e : Ending) : (o.finish e).1.reopened = o.reopened := by
  rcases finish_fst o e with h | h <;> rw [h]
  rfl

/-- Hands over as many of some items as may be sent.  The result is these
items, and the supply after that. -/
def serve (o : Supply α) : List α → List α × Supply α
  | [] => ([], o)
  | a :: as =>
    if o.canSend then
      let (bs, o') := serve (o.send a).1 as
      (a :: bs, o')
    else ([], o)

theorem serve_of_not_canSend (h : o.canSend = false) (as : List α) : o.serve as = ([], o) := by
  cases as with
  | nil => rfl
  | cons a as => exact if_neg (by simp [h])

/-- Who stops only when nothing may be sent, and ends only when nothing is
left, serves what is left. -/
theorem Steps.serves (h : Steps o es o') {left : List α} (hp : Event.items es <+: left)
    (hc : o'.canSend = false) (hover : o'.isOpen = false → Event.items es = left) :
    o.reopened.serve left = (Event.items es, o'.reopened) := by
  induction h generalizing left with
  | refl o =>
      cases ho : o.isOpen with
      | true =>
          rw [reopened_of_open (isOpen_iff.mp ho)]
          exact serve_of_not_canSend hc left
      | false =>
          obtain rfl : [] = left := hover ho
          rfl
  | @send o o' es a ha _ ih =>
      have hopen : o.status = .open := (canSend_iff.mp ha).1
      rw [send_events ha, Event.items_append, Event.items_item] at hp hover ⊢
      obtain ⟨rest, rfl⟩ := hp
      have hall : o'.isOpen = false → Event.items es = Event.items es ++ rest := by
        intro h
        simpa using hover h
      have hrest := ih (List.prefix_append _ _) hc hall
      rw [reopened_of_open ((send_status o a).trans hopen)] at hrest
      rw [reopened_of_open hopen, List.append_assoc]
      show serve o (a :: (Event.items es ++ rest)) = (a :: Event.items es, o'.reopened)
      rw [serve, if_pos ha, hrest]
  | finish e k =>
      obtain ⟨rfl, rfl⟩ := k.of_not_open (finish_isOpen _ e)
      rw [Event.items_append, items_finish] at hp hover ⊢
      obtain rfl : [] = left := hover (finish_isOpen _ e)
      rw [reopened_finish]
      rfl

end Supply

namespace Sorter

variable {S O α W : Type} [FiniteProducer S α] [ForetoldProducer S α] [DiligentProducer S α]
  [ItemOrder O α] [SpillStore W] {T : Task O α W} {P : W → Prop} {h : Subscriber α}

/-! ## One sort -/

/-- A sort that will never wait, of which the consumer `h` has heard `es`. -/
structure Serving (T : Task O α W) (P : W → Prop) (h : Subscriber α) (t : Sorter S O α × W)
    (es : List (Event α)) : Prop where
  sorts : Sorts T (Event.items es) t
  atWork : t.1.AtWork
  prompt : Prompt P t
  subscriber : t.1.supply.subscriber = some h
  heard : es = (Event.items es).map .item ++
    if t.1.supply.isOpen then [] else Supply.endingEvents h .ended

variable {t : Sorter S O α × W} {es : List (Event α)}

theorem Serving.items_of_over (k : Serving T P h t es) (ho : t.1.supply.isOpen = false) :
    t.1.supply.ending? = some .ended ∧ Event.items es = T.sorted := by
  obtain ⟨-, hclosed, hend⟩ := k.sorts.spec
  cases hst : t.1.supply.status with
  | «open» => exact absurd (Supply.isOpen_iff.mpr hst) (by simp [ho])
  | closed => exact absurd hst hclosed
  | parked e =>
      have he : t.1.supply.ending? = some e := by simp [Supply.ending?, hst]
      obtain ⟨rfl, hall⟩ := hend e he
      exact ⟨he, hall⟩
  | «over» e =>
      have he : t.1.supply.ending? = some e := by simp [Supply.ending?, hst]
      obtain ⟨rfl, hall⟩ := hend e he
      exact ⟨he, hall⟩

theorem Serving.changeDemand (k : Serving T P h t es) (d : Demand.Change) :
    Serving T P h (Producer.changeDemand t d) es ∧ (Producer.changeDemand t d).1.supply =
      { t.1.supply with demand := t.1.supply.demand.change d } := by
  have hs : (Producer.changeDemand t d).1.supply =
      { t.1.supply with demand := t.1.supply.demand.change d } :=
    (supply_withSupply k.atWork.attentive _).1
  refine ⟨⟨?_, ?_, k.prompt.withSupply _, ?_, ?_⟩, hs⟩
  · exact k.sorts.withSupply rfl rfl
  · exact k.atWork.withSupply rfl k.atWork.attended
  · rw [hs]
    exact k.subscriber
  · rw [hs]
    exact k.heard

theorem Serving.heard_drive (k : Serving T P h t es) {o' : Supply α} {fs : List (Event α)}
    (hs : Supply.Steps t.1.supply fs o') (hend : ∀ e, o'.ending? = some e → e = .ended) :
    es ++ fs = (Event.items (es ++ fs)).map .item ++
      if o'.isOpen then [] else Supply.endingEvents h .ended := by
  have hheard := k.heard
  generalize Event.items es = bs at hheard
  cases ho : t.1.supply.isOpen with
  | false =>
      obtain ⟨rfl, rfl⟩ := hs.of_not_open ho
      rw [ho] at hheard
      simp [hheard, ho]
  | true =>
      rw [ho] at hheard
      obtain rfl : es = bs.map .item := by simpa using hheard
      rcases hs.of_open (Supply.isOpen_iff.mp ho) with ⟨as, rfl, hst⟩ | ⟨as, e, rfl, hst⟩
      · simp [Supply.isOpen, hst]
      · rw [k.subscriber] at hst ⊢
        have hst : o'.status = .over e := hst
        obtain rfl := hend e (by simp [Supply.ending?, hst])
        simp [Supply.isOpen, hst, Supply.heardBy]

theorem Serving.items_of_ended (k : Serving T P h t es) (he : .ending .ended ∈ es) :
    Event.items es = T.sorted := by
  cases ho : t.1.supply.isOpen with
  | false => exact (k.items_of_over ho).2
  | true =>
      have hheard := k.heard
      rw [ho] at hheard
      rw [hheard] at he
      exact absurd he (by simp)

theorem Serving.over_of_rests (k : Serving T P h t es) (hc : t.1.supply.canSend = false)
    (hd : t.1.supply.demand.isPositive = true) : t.1.supply.isOpen = false := by
  simpa [Supply.canSend, k.subscriber, hd] using hc

/-- A drive of such a sort serves what is left. -/
theorem Serving.drive (hP : SpillStore.Prompt P) (k : Serving T P h t es) :
    Serving T P h (Producer.drive t).1 (es ++ (Producer.drive t).2) ∧
      (Producer.drive t).1.1.supply.canSend = false ∧
        ∀ left, Event.items es ++ left = T.sorted → t.1.supply.reopened.serve left =
          (Event.items (Producer.drive t).2, (Producer.drive t).1.1.supply.reopened) := by
  have hsteps : Supply.Steps t.1.supply (Producer.drive t).2 (Producer.drive t).1.1.supply :=
    drive_steps t.1 t.2
  have hsorts : Sorts T (Event.items (es ++ (Producer.drive t).2)) (Producer.drive t).1 := by
    rw [Event.items_append]
    exact drive_sorts k.sorts
  have hstops : (Producer.drive t).1.1.supply.canSend = false :=
    k.prompt.drive_stops hP k.atWork
  have hall : Serving T P h (Producer.drive t).1 (es ++ (Producer.drive t).2) :=
    { sorts := hsorts
      atWork := k.atWork.drive t.2
      prompt := k.prompt.drive hP k.atWork
      subscriber := hsteps.subscriber_eq.trans k.subscriber
      heard := k.heard_drive hsteps fun e he => (hsorts.spec.2.2 e he).1 }
  refine ⟨hall, hstops, ?_⟩
  intro left hleft
  refine hsteps.serves ?_ hstops ?_
  · have hpre := hsorts.spec.1
    rw [Event.items_append, ← hleft] at hpre
    exact (List.prefix_append_right_inj _).mp hpre
  · intro ho
    have hitems := (hall.items_of_over ho).2
    rw [Event.items_append, ← hleft] at hitems
    exact List.append_cancel_left hitems

/-- A sort that was started serves who subscribes to it. -/
theorem start_serving (T : Task O α W) (hP : SpillStore.Prompt P) {w : W} (hw : T.store.ok w)
    (hpw : P w) (hcheck : T.settings.check = .ok ()) {tag : UInt32}
    (hroom : T.store.HasRoom T.settings tag 1 w) {input : S}
    (hopen : (Producer.supply input).status = .open)
    (hin : ForetoldProducer.course input = ⟨T.items, .ended⟩)
    (hi : DiligentProducer.refusals input = 0) :
    ∃ s w₁, start w T.settings T.codec T.order tag input = (.ok s, w₁) ∧
      ∀ h : Subscriber α, ∃ t : Sorter S O α × W, Producer.subscribe (s, w₁) h = (t, []) ∧
        Serving T P h t [] ∧ t.1.supply = { subscriber := some h } := by
  obtain ⟨s, w₁, hstart, -, hs⟩ := start_sorts T hw hcheck hroom hopen hin
  refine ⟨s, w₁, hstart, ?_⟩
  intro h
  have hwork := start_atWork hopen hstart
  have hsupply : s.supply = {} := by
    obtain ⟨-, -, rfl⟩ := start_ok.mp hstart
    rfl
  have hsub : (s.withSupply { subscriber := some h }).supply = { subscriber := some h } :=
    (supply_withSupply hwork.attentive _).1
  refine ⟨(s.withSupply { subscriber := some h }, w₁), ?_, ?_, hsub⟩
  · show ((s.withSupply (s.supply.subscribe h).1, w₁), (s.supply.subscribe h).2) = _
    rw [hsupply]
    rfl
  · exact
      { sorts := hs.withSupply (by rw [hsupply]; rfl) (by rw [hsupply]; rfl)
        atWork := hwork.withSupply (by rw [hsupply]; rfl) fun _ => .inl rfl
        prompt := (start_prompt hP hpw hi hstart).withSupply _
        subscriber := congrArg Supply.subscriber hsub
        heard := by
          rw [hsub]
          rfl }

/-- Who gathers all of such a sort has it at the first call. -/
theorem start_gather (T : Task O α W) (hP : SpillStore.Prompt P) {w : W} (hw : T.store.ok w)
    (hpw : P w) (hcheck : T.settings.check = .ok ()) {tag : UInt32}
    (hroom : T.store.HasRoom T.settings tag 1 w) {input : S}
    (hopen : (Producer.supply input).status = .open)
    (hin : ForetoldProducer.course input = ⟨T.items, .ended⟩)
    (hi : DiligentProducer.refusals input = 0) :
    ∃ s w₁, start w T.settings T.codec T.order tag input = (.ok s, w₁) ∧
      ∀ patience, ∃ t : Sorter S O α × W,
        Producer.gather patience (s, w₁) = (t, T.sorted, some .ended) := by
  obtain ⟨s, w₁, hstart, hserves⟩ := start_serving T hP hw hpw hcheck hroom hopen hin hi
  refine ⟨s, w₁, hstart, ?_⟩
  intro patience
  obtain ⟨t, hsub, hserving, hsupply⟩ := hserves {}
  obtain ⟨hasked, hdemand⟩ := hserving.changeDemand .unlimit
  generalize hu : Producer.changeDemand t .unlimit = u at hasked hdemand
  obtain ⟨hdriven, hstops, -⟩ := hasked.drive hP
  have heager : u.1.supply.Eager := by
    rw [hdemand, hsupply]
    exact ⟨rfl, rfl, {}, rfl, fun _ _ => rfl⟩
  have hover : (Producer.drive u).1.1.supply.isOpen = false := by
    rw [Bool.eq_false_iff]
    intro ho
    have hsteps : Supply.Steps u.1.supply (Producer.drive u).2 (Producer.drive u).1.1.supply :=
      drive_steps u.1 u.2
    exact absurd ((heager.steps hsteps ho).canSend.symm.trans hstops) (by simp)
  have hitems := (hdriven.items_of_over hover).2
  have hheard := hdriven.heard
  rw [List.nil_append, hover] at hheard
  rw [List.nil_append] at hitems
  have hend : Event.endingOf (Producer.drive u).2 = some .ended := by
    rw [hheard, Event.endingOf_eq_head?, Event.endings_append, Event.endings_items]
    rfl
  refine ⟨(Producer.drive u).1, ?_⟩
  rw [Producer.gather, hsub]
  dsimp only
  rw [Producer.resume, hu, List.nil_append, Producer.gatherFrom_of_ending hend, hitems]
  rfl

end Sorter

end ExternalSort
