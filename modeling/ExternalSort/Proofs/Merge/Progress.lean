/-
A merge waits for nothing but its files.

An intake that has been asked for something either gives it, or its stream has
ended, or its source was not ready (`refill_ready`).  So a merge that rests
though an item is asked for has met a file that was not ready
(`drive_progress`).  If all intakes are ready, those that are not spent hold an
item each, and one of them is the least (`takeLeast_ne_none`).
-/
import ExternalSort.Proofs.Merge.Refines
import ExternalSort.Proofs.Stream.Diligence

namespace ExternalSort

/-! ## Intakes -/

namespace Intake

variable {S α : Type} [Producer S α] {s : Intake S α} {target : Nat}

/-- An intake that hears its stream and waits only for what it has asked of
it. -/
structure Engaged (s : Intake S α) : Prop where
  listening : s.Listening
  ongoing : s.heard = none → (Producer.supply s.stream).status = .open
  asked : s.waiting = true → s.heard = none ∧ (Producer.demand s.stream).isPositive = true

theorem isPositive_grant {d : Demand} {n : Nat} (hn : 0 < n) : (d.grant n).isPositive = true := by
  have hword : 0 < wordMax := by decide
  exact decide_eq_true (Nat.lt_min.mpr ⟨Nat.add_pos_right _ hn, hword⟩)

variable [ForetoldProducer S α]

theorem engaged_ofStream {stream : S} (ho : (Producer.supply stream).status = .open) :
    (ofStream stream).Engaged where
  listening := listening_ofStream stream (.inl ho)
  ongoing _ := by
    have hs := OrderlyProducer.supply_subscribe stream ({} : Subscriber α)
    exact (congrArg Supply.status hs).trans (Supply.subscribe_of_open ho ({} : Subscriber α)).2.1
  asked h := absurd h (by simp [ofStream, hear])

theorem engaged_ask (h : s.Engaged) : (s.ask target).Engaged := by
  have hl := listening_ask target h.listening
  rw [ask] at hl ⊢
  by_cases hc : !s.waiting && 0 < target - s.buffer.length && s.heard.isNone
  · rw [if_pos hc] at hl ⊢
    simp only [Bool.and_eq_true, decide_eq_true_eq, Option.isNone_iff_eq_none] at hc
    have hs := OrderlyProducer.supply_changeDemand s.stream (.request (target - s.buffer.length))
    refine ⟨hl, fun he => ?_, fun _ => ⟨hc.2, ?_⟩⟩
    · exact (congrArg Supply.status hs).trans (h.ongoing he)
    · show (Producer.supply (Producer.changeDemand _ _)).demand.isPositive = true
      rw [hs]
      exact isPositive_grant hc.1.2
  · rw [if_neg hc]
    exact h

omit [ForetoldProducer S α] in
theorem waiting_ask (hw : s.buffer.length < target) (he : s.heard = none) :
    (s.ask target).waiting = true := by
  have hwant : 0 < target - s.buffer.length := Nat.sub_pos_of_lt hw
  rw [ask]
  cases hs : s.waiting with
  | true => simp [hs]
  | false => simp [hwant, he]

omit [ForetoldProducer S α] in
theorem heard_ask : (s.ask target).heard = s.heard := by
  rw [ask]
  split <;> rfl

omit [ForetoldProducer S α] in
theorem waiting_updateWaiting (h : s.updateWaiting.waiting = true) :
    s.updateWaiting.heard = none ∧
      (Producer.demand s.updateWaiting.stream).isPositive = true := by
  simp only [updateWaiting, Bool.and_eq_true, Option.isNone_iff_eq_none] at h
  exact ⟨h.1.2, h.2⟩

theorem engaged_advance (h : s.Engaged) : s.advance.updateWaiting.Engaged where
  listening := by
    have hl := listening_hear h.listening (OrderlyProducer.drive_steps s.stream)
    exact ⟨hl.subscriber, hl.heard⟩
  ongoing he := by
    have he : (s.heard <|> Event.endingOf (Producer.drive s.stream).2) = none := he
    cases hs : s.heard with
    | some e => exact absurd he (by simp [hs])
    | none =>
        rw [hs] at he
        exact (OrderlyProducer.drive_steps s.stream).open_of_silent (h.ongoing hs)
          h.listening.subscriber he
  asked := waiting_updateWaiting

omit [ForetoldProducer S α] in
theorem engaged_updateWaiting (h : s.Engaged) : s.updateWaiting.Engaged where
  listening := ⟨h.listening.subscriber, h.listening.heard⟩
  ongoing := h.ongoing
  asked := waiting_updateWaiting

theorem engaged_topUp (h : s.Engaged) : (s.topUp target).Engaged := by
  rw [topUp]
  split
  · exact engaged_advance (engaged_ask h)
  · exact engaged_updateWaiting (engaged_ask h)

omit [ForetoldProducer S α] in
theorem engaged_takeFirst {t : Intake S α} {a : α} (h : s.Engaged)
    (ht : s.takeFirst = some (a, t)) : t.Engaged := by
  have hl := listening_takeFirst h.listening ht
  obtain ⟨rest, -, rfl⟩ := takeFirst_eq_some.mp ht
  exact ⟨hl, h.ongoing, h.asked⟩

variable [DiligentProducer S α]

open DiligentProducer (refusals)

omit [ForetoldProducer S α] in
theorem refusals_ask (s : Intake S α) (target : Nat) :
    refusals (s.ask target).stream = refusals s.stream := by
  rw [ask]
  split
  · exact DiligentProducer.refusals_withSupply s.stream _
  · rfl

omit [ForetoldProducer S α] in
theorem refusals_topUp (s : Intake S α) (target : Nat) :
    refusals (s.topUp target).stream ≤ refusals s.stream := by
  rw [topUp]
  split
  · refine Nat.le_trans (DiligentProducer.refusals_drive (s.ask target).stream) ?_
    exact Nat.le_of_eq (refusals_ask s target)
  · exact Nat.le_of_eq (refusals_ask s target)

/-- An intake that is topped up is ready, or its source was not. -/
theorem topUp_ready (h : s.Engaged) (hb : s.buffer.length < target) :
    (s.topUp target).isReady = true ∨ refusals (s.topUp target).stream < refusals s.stream := by
  have ha : (s.ask target).Engaged := engaged_ask h
  rw [topUp]
  cases he : s.heard with
  | some e =>
      refine .inl ?_
      have hw : (s.ask target).waiting = false := by
        cases hw : (s.ask target).waiting with
        | false => rfl
        | true => exact absurd ((ha.asked hw).1.symm.trans (heard_ask.trans he)) (by simp)
      simp [hw, isReady, updateWaiting, heard_ask, he]
  | none =>
      have hw := waiting_ask hb he
      obtain ⟨hn, hd⟩ := ha.asked hw
      rw [if_pos hw, ← refusals_ask s target]
      generalize s.ask target = t at ha hn hd ⊢
      cases hi : Event.items (Producer.drive t.stream).2 with
      | cons a as => exact .inl (by simp [isReady, updateWaiting, advance, hear, hi])
      | nil =>
          cases hend : Event.endingOf (Producer.drive t.stream).2 with
          | some e => exact .inl (by simp [isReady, updateWaiting, advance, hear, hn, hend])
          | none =>
              exact .inr (DiligentProducer.drive_silent (ha.ongoing hn) ha.listening.subscriber
                hd hi hend)

end Intake

namespace Merge

open DiligentProducer (refusals)

/-! ## All intakes -/

section Intakes

variable {S α : Type} [FiniteProducer S α] {s : Intake S α} {ss ts : List (Intake S α)}
  {target : Nat} {ready : Bool}

theorem refillAll_eq (h : refillAll target ss = .ok (ready, ts)) :
    ts = ss.map (refill target) ∧ ready = ts.all Intake.isReady ∧ ∀ t ∈ ts, t.failure? = none := by
  induction ss generalizing ready ts with
  | nil =>
      obtain ⟨rfl, rfl⟩ := Prod.mk.inj (Except.ok.inj h)
      exact ⟨rfl, rfl, fun _ h => absurd h List.not_mem_nil⟩
  | cons s ss ih =>
      simp only [refillAll] at h
      split at h
      · exact absurd h (by simp)
      · next hf =>
        cases hr : refillAll target ss with
        | error e => exact absurd h (by simp [hr, Except.map])
        | ok r =>
            obtain ⟨ready', ts'⟩ := r
            rw [hr] at h
            obtain ⟨rfl, rfl⟩ := Prod.mk.inj (Except.ok.inj h)
            obtain ⟨rfl, rfl, hfs⟩ := ih hr
            exact ⟨rfl, rfl, List.forall_mem_cons.mpr ⟨hf, hfs⟩⟩

omit [FiniteProducer S α] in
theorem buffer_of_isReady (hr : s.isReady = true) (hf : s.failure? = none)
    (hs : s.isSpent = false) : s.buffer ≠ [] := by
  intro hb
  cases he : s.heard with
  | none => simp [Intake.isReady, he, hb] at hr
  | some e =>
      cases e with
      | ended => simp [Intake.isSpent, Intake.endedWell, he, hb] at hs
      | failed e => simp [Intake.failure?, he] at hf

omit [FiniteProducer S α] in
theorem takeAt_splits {i : Nat} {a : α} (h : takeAt i ss = some (a, ts)) :
    ∃ before s t after, ss = before ++ s :: after ∧ ts = before ++ t :: after ∧
      s.takeFirst = some (a, t) := by
  induction ss generalizing i ts with
  | nil => exact absurd h (by simp [takeAt])
  | cons s ss ih =>
      cases i with
      | zero =>
          obtain ⟨⟨b, t⟩, ht, he⟩ := Option.map_eq_some_iff.mp h
          obtain ⟨rfl, rfl⟩ := Prod.mk.inj he
          exact ⟨[], s, t, ss, rfl, rfl, ht⟩
      | succ i =>
          obtain ⟨⟨b, us⟩, hu, he⟩ := Option.map_eq_some_iff.mp h
          obtain ⟨rfl, rfl⟩ := Prod.mk.inj he
          obtain ⟨before, u, t, after, rfl, rfl, ht⟩ := ih hu
          exact ⟨s :: before, u, t, after, rfl, rfl, ht⟩

omit [FiniteProducer S α] in
theorem takeLeast_splits {cmp : α → α → Except OrderError Ordering} {a : α}
    (h : takeLeast cmp ss = .ok (some (a, ts))) :
    ∃ before s t after, ss = before ++ s :: after ∧ ts = before ++ t :: after ∧
      s.takeFirst = some (a, t) := by
  rw [takeLeast] at h
  cases hl : leastFrom cmp none 0 ss with
  | error e => exact absurd h (by simp [hl, Except.map])
  | ok place =>
      rw [hl] at h
      obtain ⟨i, -, ht⟩ := Option.bind_eq_some_iff.mp (Except.ok.inj h)
      exact takeAt_splits ht

omit [FiniteProducer S α] in
theorem length_takeLeast {cmp : α → α → Except OrderError Ordering} {a : α}
    (h : takeLeast cmp ss = .ok (some (a, ts))) : ts.length = ss.length := by
  obtain ⟨before, s, t, after, rfl, rfl, -⟩ := takeLeast_splits h
  rw [List.length_append, List.length_append]
  rfl

omit [FiniteProducer S α] in
theorem total_takeLeast {cmp : α → α → Except OrderError Ordering} {a : α}
    {quantity : Intake S α → Nat}
    (hq : ∀ (s : Intake S α) rest, quantity { s with buffer := rest } = quantity s)
    (h : takeLeast cmp ss = .ok (some (a, ts))) : total quantity ts = total quantity ss := by
  obtain ⟨before, s, t, after, rfl, rfl, ht⟩ := takeLeast_splits h
  obtain ⟨rest, -, rfl⟩ := Intake.takeFirst_eq_some.mp ht
  simp only [total, List.map_append, List.map_cons, List.sum_append, List.sum_cons, hq]

variable [ForetoldProducer S α]

theorem engaged_refill (h : s.Engaged) : (refill target s).Engaged :=
  refill_keeps h (Intake.engaged_topUp h)

/-- If all intakes hold an item, the least of their items is there. -/
theorem takeLeast_ne_none {cmp : α → α → Except OrderError Ordering} (hne : ss ≠ [])
    (hl : ∀ s ∈ ss, s.Listening) (hr : ∀ s ∈ ss, s.isReady = true)
    (hb : ∀ s ∈ ss, s.buffer ≠ []) : takeLeast cmp ss ≠ .ok none := by
  have hheads : Heads ss := fun s hs => Intake.head_of_isReady (hl s hs) (hr s hs)
  intro hnone
  rcases takeLeast_cases hheads hl cmp with ⟨e, ht, -⟩ | ⟨-, hg⟩ | ⟨a, ts, ht, -⟩
  · exact absurd (ht.symm.trans hnone) (by simp)
  · obtain ⟨s, hs⟩ := List.exists_mem_of_ne_nil ss hne
    have hnil : s.course.items = [] := eq_nil_of_greedy_nil hg _ (List.mem_map_of_mem hs)
    have hhead := hheads s hs
    rw [hnil] at hhead
    exact hb s hs (List.head?_eq_none_iff.mp hhead)
  · exact absurd (ht.symm.trans hnone) (by simp)

variable [DiligentProducer S α]

omit [ForetoldProducer S α] in
theorem refusals_refill (target : Nat) (s : Intake S α) :
    refusals (refill target s).stream ≤ refusals s.stream :=
  refill_keeps (P := fun t => refusals t.stream ≤ refusals s.stream) (Nat.le_refl _)
    (s.refusals_topUp target)

/-- An intake that is topped up is ready, or its source was not. -/
theorem refill_ready (h : s.Engaged) (ht : 0 < target) :
    (refill target s).isReady = true ∨ refusals (refill target s).stream < refusals s.stream := by
  rw [refill]
  split
  · next hc =>
    simp only [Bool.and_eq_true, List.isEmpty_iff] at hc
    exact Intake.topUp_ready h (by simpa [hc.1] using ht)
  · next hc =>
    refine .inl ?_
    rw [Intake.isReady]
    cases hb : s.buffer with
    | cons a as => simp
    | nil => 
        have hsp : s.isSpent = true := by simpa [hb] using hc
        simp [(Intake.isSpent_iff.mp hsp).1]

theorem refillAll_waits (h : refillAll target ss = .ok (false, ts)) (hs : ∀ s ∈ ss, s.Engaged)
    (ht : 0 < target) : ∃ s ∈ ss, refusals (refill target s).stream < refusals s.stream := by
  obtain ⟨rfl, hready, -⟩ := refillAll_eq h
  obtain ⟨t, hm, hn⟩ := List.all_eq_false.mp hready.symm
  obtain ⟨s, hs', rfl⟩ := List.mem_map.mp hm
  exact ⟨s, hs', (refill_ready (hs s hs') ht).resolve_left hn⟩

end Intakes

/-! ## Turns -/

section Turns

variable {O α W : Type} [ItemOrder O α] [SpillStore W] {m : Merge O α} {w : W}

/-- How a turn of a merge can go. -/
inductive Turns (m : Merge O α) (w : W) : Turn (Merge O α × W) (Heard W α) → Prop
  /-- Nothing is left, or something has failed. -/
  | ends (n : Merge O α) (phase : MergePhase) (e : Ending) : n.ahead = m.ahead →
      n.chunk = m.chunk → Turns m w (n.conclude w phase e)
  | unasked : m.supply.canSend = false →
      Turns m w (.rest ({ m with intakes := retire m.intakes }, w))
  /-- Some intake is not ready. -/
  | waits {ss : List (Intake (RunStream α) α)} : m.supply.canSend = true →
      refillAll m.ahead (retire m.intakes) = .ok (false, ss) →
      Turns m w (.rest ({ m with intakes := ss, phase := .waiting }, w))
  /-- All intakes are ready, and some are left, but none holds an item. -/
  | noWinner {ss : List (Intake (RunStream α) α)} :
      refillAll m.ahead (retire m.intakes) = .ok (true, ss) → retire ss ≠ [] →
      takeLeast (ItemOrder.compare m.order) (retire ss) = .ok none →
      Turns m w (.rest ({ m with intakes := retire ss, phase := .waiting }, w))
  | sends {ss ts : List (Intake (RunStream α) α)} {a : α} : m.supply.canSend = true →
      refillAll m.ahead (retire m.intakes) = .ok (true, ss) →
      takeLeast (ItemOrder.compare m.order) (retire ss) = .ok (some (a, ts)) →
      Turns m w
        { state :=
            ({ m with intakes := ts, phase := .sending, supply := (m.supply.send a).1 }, w)
          events := Heard.ofEvents w (m.supply.send a).2
          again := true }

theorem turn_turns (m : Merge O α) (w : W) : Turns m w (turn (m, w)) := by
  rw [turn, unlessOver]
  dsimp only
  split
  · exact .ends _ _ _ rfl rfl
  rw [proceed]
  dsimp only
  split
  · next hc => exact .unasked (by simpa using hc)
  next hc =>
    have hc : m.supply.canSend = true := by simpa using hc
    split
    · exact .ends _ _ _ rfl rfl
    next ready ss hr =>
      cases ready with
      | false => exact .waits hc hr
      | true =>
          rw [if_pos rfl, unlessOver]
          dsimp only
          split
          · exact .ends _ _ _ rfl rfl
          next hne =>
            rw [deliver]
            dsimp only
            split
            · exact .ends _ _ _ rfl rfl
            · next ht => exact .noWinner hr (by simpa using hne) ht
            · next a ts ht => exact .sends hc hr ht

/-- The least of the first items is to be handed over, but no intake has
one. -/
def FindsNoWinner (m : Merge O α) : Prop :=
  ∃ ss, refillAll m.ahead (retire m.intakes) = .ok (true, ss) ∧ retire ss ≠ [] ∧
    takeLeast (ItemOrder.compare m.order) (retire ss) = .ok none

/-- The intakes are topped up, and the source of one of them is not ready. -/
def IsRefused (m : Merge O α) : Prop :=
  m.supply.canSend = true ∧ ∃ ready ss, refillAll m.ahead (retire m.intakes) = .ok (ready, ss) ∧
    ∃ s ∈ retire m.intakes, refusals (refill m.ahead s).stream < refusals s.stream

/-- A merge that asks for some items at a time, of intakes that wait for
nothing else. -/
structure Attentive (m : Merge O α) : Prop where
  ahead_pos : 0 < m.ahead
  engaged : ∀ s ∈ m.intakes, s.Engaged

theorem forall_takeLeast {P : Intake (RunStream α) α → Prop}
    {cmp : α → α → Except OrderError Ordering} {ss ts : List (Intake (RunStream α) α)} {a : α}
    (keep : ∀ {s t a}, s.takeFirst = some (a, t) → P s → P t)
    (h : takeLeast cmp ss = .ok (some (a, ts))) (hs : ∀ s ∈ ss, P s) : ∀ t ∈ ts, P t := by
  obtain ⟨before, s, t, after, rfl, rfl, ht⟩ := takeLeast_splits h
  rw [List.forall_mem_append, List.forall_mem_cons] at hs ⊢
  exact ⟨hs.1, keep ht hs.2.1, hs.2.2⟩

/-- What holds of every intake that is being read, given how many items are asked of
one at a time. -/
def Each (P : Nat → Intake (RunStream α) α → Prop) (m : Merge O α) : Prop :=
  ∀ s ∈ m.intakes, P m.ahead s

/-- What topping an intake up and taking an item from it keep. -/
structure Kept (P : Nat → Intake (RunStream α) α → Prop) : Prop where
  refill : ∀ {n s}, P n s → P n (Merge.refill n s)
  takeFirst : ∀ {n s t a}, s.takeFirst = some (a, t) → P n s → P n t

variable {P : Nat → Intake (RunStream α) α → Prop}

omit [ItemOrder O α] in
theorem Each.refilled (hP : Kept P) (h : m.Each P) {ready : Bool}
    {ss : List (Intake (RunStream α) α)}
    (hr : refillAll m.ahead (retire m.intakes) = .ok (ready, ss)) : ∀ s ∈ ss, P m.ahead s := by
  obtain ⟨rfl, -, -⟩ := refillAll_eq hr
  intro t ht
  obtain ⟨s, hs, rfl⟩ := List.mem_map.mp ht
  exact hP.refill (h s (mem_of_mem_retire hs))

theorem turn_chunk (m : Merge O α) (w : W) : (Merge.turn (m, w)).state.1.chunk = m.chunk := by
  have ht := turn_turns m w
  generalize Merge.turn (m, w) = t at ht
  cases ht with
  | ends n phase e _ hc => exact hc
  | unasked | waits | noWinner | sends => rfl

theorem Each.turn (hP : Kept P) (h : m.Each P) :
    (Merge.turn (m, w)).state.1.ahead = m.ahead ∧ (Merge.turn (m, w)).state.1.Each P := by
  have ht := turn_turns m w
  generalize Merge.turn (m, w) = t at ht
  cases ht with
  | ends n phase e ha => exact ⟨ha, fun _ hs => absurd hs List.not_mem_nil⟩
  | unasked => exact ⟨rfl, fun s hs => h s (mem_of_mem_retire hs)⟩
  | waits _ hr => exact ⟨rfl, h.refilled hP hr⟩
  | noWinner hr => exact ⟨rfl, fun s hs => h.refilled hP hr s (mem_of_mem_retire hs)⟩
  | sends _ hr ht =>
      refine ⟨rfl, forall_takeLeast hP.takeFirst ht ?_⟩
      exact fun s hs => h.refilled hP hr s (mem_of_mem_retire hs)

theorem kept_engaged : Kept fun _ (s : Intake (RunStream α) α) => s.Engaged where
  refill := engaged_refill
  takeFirst ht hs := Intake.engaged_takeFirst hs ht

section Attentive

variable (h : m.Attentive)
include h

omit [ItemOrder O α] in
theorem Attentive.each : m.Each fun _ s => s.Engaged := h.engaged

omit [ItemOrder O α] in
theorem Attentive.retired : ∀ s ∈ retire m.intakes, s.Engaged :=
  fun s hs => h.engaged s (mem_of_mem_retire hs)

/-- There is always a least item where all intakes are ready and not spent. -/
theorem Attentive.finds_winner : ¬m.FindsNoWinner := by
  rintro ⟨ss, hr, hne, hnone⟩
  obtain ⟨-, hready, hf⟩ := refillAll_eq hr
  have hready := List.all_eq_true.mp hready.symm
  refine takeLeast_ne_none hne ?_ ?_ ?_ hnone
  · exact fun s hs => (h.each.refilled kept_engaged hr s (mem_of_mem_retire hs)).listening
  · exact fun s hs => hready s (mem_of_mem_retire hs)
  · intro s hs
    obtain ⟨hm, hsp⟩ := List.mem_filter.mp hs
    exact buffer_of_isReady (hready s hm) (hf s hm) (by simpa using hsp)

theorem Attentive.turn : (turn (m, w)).state.1.Attentive := by
  obtain ⟨ha, he⟩ := h.each.turn (w := w) kept_engaged
  exact ⟨ha ▸ h.ahead_pos, he⟩

/-- The last turn of a drive leaves nothing to be sent, or a source was not
ready. -/
theorem Attentive.stops (hl : (Merge.turn (m, w)).again = false) :
    (Merge.turn (m, w)).state.1.supply.canSend = false ∨ m.IsRefused := by
  have ht := turn_turns m w
  generalize Merge.turn (m, w) = t at ht hl
  cases ht with
  | ends n phase e => exact .inl (Supply.canSend_finish _ _)
  | unasked hc => exact .inl hc
  | waits hc hr => exact .inr ⟨hc, _, _, hr, refillAll_waits hr h.retired h.ahead_pos⟩
  | noWinner hr hne ht => exact absurd ⟨_, hr, hne, ht⟩ h.finds_winner
  | sends => exact absurd hl (by simp)

end Attentive

theorem turn_again_item {s : Merge O α × W} (h : (Merge.turn s).again = true) :
    ∃ a, Heard.events (Merge.turn s).events = [.item a] := by
  obtain ⟨m, w⟩ := s
  have ht := turn_turns m w
  generalize Merge.turn (m, w) = t at ht h
  cases ht with
  | ends n phase e => exact absurd h (by simp)
  | unasked => exact absurd h (by simp)
  | waits => exact absurd h (by simp)
  | noWinner => exact absurd h (by simp)
  | @sends ss ts a hc hr ht => exact ⟨a, by rw [Heard.events_ofEvents, Supply.send_events hc]⟩

end Turns

/-! ## Drives -/

section Drives

variable {O α W : Type} [ItemOrder O α] [SpillStore W] {m : Merge O α} {w : W}

/-- A drive of the merge `m` takes a turn in `u`. -/
def TakesTurn (m : Merge O α) (w : W) (u : Merge O α × W) : Prop :=
  ∃ e, m.entry w = some e ∧ Turn.Takes turn e u

/-- A drive takes turns from its entry on, or it takes none: the merge has ended, or one
of its runs cannot be opened. -/
theorem drive_entry (m : Merge O α) (w : W) :
    (∃ e, m.entry w = some e ∧ m.drive w = run e.1 e.2) ∨
      (m.entry w = none ∧ m.phase.isFinal = true ∧ m.drive w = ((m, w), [])) ∨
      ∃ f w', m.entry w = none ∧
        m.drive w = ((m.failWith w' (.io f)).state, (m.failWith w' (.io f)).events) := by
  rw [entry]
  cases hf : m.phase.isFinal with
  | true => exact .inr (.inl ⟨rfl, rfl, drive_of_final hf⟩)
  | false =>
      rw [if_neg (by simp)]
      by_cases hi : m.phase = .idle
      · rw [if_pos hi, drive_of_idle hi]
        cases openRuns m.decode m.chunk w m.runs with
        | mk r w' =>
            cases r with
            | error f => exact .inr (.inr ⟨f, w', rfl, rfl⟩)
            | ok intakes => exact .inl ⟨_, rfl, rfl⟩
      · rw [if_neg hi, drive_of_working hf hi]
        exact .inl ⟨(m, w), rfl, rfl⟩

theorem drive_cases (h : m.InStep) (w : W) :
    (∃ e, m.entry w = some e ∧ m.drive w = run e.1 e.2) ∨
      m.entry w = none ∧ (m.drive w).1.1.supply.isOpen = false ∧
        (m.drive w).1.1.ahead = m.ahead ∧ (m.drive w).1.1.intakes = [] := by
  refine (drive_entry m w).imp_right ?_
  rintro (⟨hnone, hf, hd⟩ | ⟨f, w', hnone, hd⟩)
  · have ho : m.supply.isOpen = false := by simpa [hf] using h.phase
    rw [hd]
    exact ⟨hnone, ho, rfl, (h.released hf).2.1⟩
  · rw [hd]
    exact ⟨hnone, Supply.finish_isOpen _ _, rfl, rfl⟩

omit [ItemOrder O α] in
theorem openRuns_streams {P : Intake (RunStream α) α → Prop} {decode : List UInt8 → Except Cause α}
    {chunk : Nat} (hlist : ∀ items : List α, P (.ofStream (.memory (.ofList items))))
    (hfile : ∀ source, P (.ofStream (.file (.ofSource source decode chunk)))) {w : W}
    {runs : List (Run α)} {ss : List (Intake (RunStream α) α)}
    (h : (openRuns decode chunk w runs).1 = .ok ss) : ∀ s ∈ ss, P s := by
  induction runs generalizing w ss with
  | nil =>
      obtain rfl := Except.ok.inj h
      exact fun _ hs => absurd hs List.not_mem_nil
  | cons run runs ih =>
      have hcons : ∀ {w' : W} {s : Intake (RunStream α) α}, P s →
          (openRuns decode chunk w' runs).1.map (s :: ·) = .ok ss → ∀ s ∈ ss, P s := by
        intro w' s hs hm
        cases hr : (openRuns decode chunk w' runs).1 with
        | error e => exact absurd (hr ▸ hm) (by simp [Except.map])
        | ok ts =>
            rw [hr] at hm
            obtain rfl := Except.ok.inj hm
            exact List.forall_mem_cons.mpr ⟨hs, ih hr⟩
      cases run with
      | memory items => exact hcons (hlist items) h
      | file f =>
          rw [openRuns] at h
          split at h
          · exact absurd h (by simp)
          · exact hcons (hfile _) h

omit [ItemOrder O α] in
theorem openRuns_fresh {P : Intake (RunStream α) α → Prop}
    (hP : ∀ stream : RunStream α, Producer.supply stream = {} → P (.ofStream stream))
    {decode : List UInt8 → Except Cause α} {chunk : Nat} {w : W} {runs : List (Run α)}
    {ss : List (Intake (RunStream α) α)} (h : (openRuns decode chunk w runs).1 = .ok ss) :
    ∀ s ∈ ss, P s :=
  openRuns_streams (fun _ => hP _ rfl) (fun _ => hP _ rfl) h

omit [ItemOrder O α] in
theorem openRuns_engaged {decode : List UInt8 → Except Cause α} {chunk : Nat} {w : W}
    {runs : List (Run α)} {ss : List (Intake (RunStream α) α)}
    (h : (openRuns decode chunk w runs).1 = .ok ss) : ∀ s ∈ ss, s.Engaged :=
  openRuns_fresh (fun _ hs => Intake.engaged_ofStream (congrArg Supply.status hs)) h

theorem run_takes (m : Merge O α) (w : W) :
    ∃ u, Turn.Takes turn (m, w) u ∧ (turn u).again = false ∧ (m.run w).1 = (turn u).state :=
  Turn.iterate_takes (m, w)

theorem run_runs (m : Merge O α) (w : W) :
    ∃ n ≤ boundAll m.intakes + 1, Turn.Runs turn n (m, w) (m.run w).1 (m.run w).2 :=
  @Turn.iterate_runs _ _ turn (fun s => boundAll s.1.intakes) turn_shrinks (m, w)

theorem drive_chunk (m : Merge O α) (w : W) : (m.drive w).1.1.chunk = m.chunk := by
  have hrun : ∀ (n : Merge O α) (w : W), (n.run w).1.1.chunk = n.chunk := fun n w =>
    Turn.iterate_induction (fun t _ => t.1.chunk = n.chunk)
      (fun t _ h => (turn_chunk t.1 t.2).trans h) (n, w) rfl
  rw [drive]
  split
  · rfl
  split
  · split
    · rfl
    · exact hrun _ _
  · exact hrun m w

section Each

variable {P : Nat → Intake (RunStream α) α → Prop} {e u : Merge O α × W}

/-- What holds of the intakes that a drive begins with: of those that the merge has,
and of those that it opens. -/
structure Enters (P : Nat → Intake (RunStream α) α → Prop) (m : Merge O α) (w : W) : Prop where
  each : m.Each P
  opened : ∀ ss, (openRuns m.decode m.chunk w m.runs).1 = .ok ss → ∀ s ∈ ss, P m.ahead s

omit [ItemOrder O α] in
theorem Enters.entry (h : m.Enters P w) (he : m.entry w = some e) :
    e.1.ahead = m.ahead ∧ e.1.Each P := by
  rw [Merge.entry] at he
  split at he
  · exact absurd he (by simp)
  split at he
  · split at he
    · exact absurd he (by simp)
    · next intakes w' ho =>
      obtain rfl := Option.some.inj he
      exact ⟨rfl, List.forall_mem_append.mpr ⟨h.each, h.opened _ (congrArg Prod.fst ho)⟩⟩
  · obtain rfl := Option.some.inj he
    exact ⟨rfl, h.each⟩

theorem Enters.takesTurn (hP : Kept P) (h : m.Enters P w) (hu : m.TakesTurn w u) :
    u.1.ahead = m.ahead ∧ u.1.Each P := by
  obtain ⟨e, he, hu⟩ := hu
  refine hu.keeps (P := fun u => u.1.ahead = m.ahead ∧ u.1.Each P) ?_ (h.entry he)
  intro u hu _
  obtain ⟨ha, hturn⟩ := hu.2.turn (w := u.2) hP
  exact ⟨ha.trans hu.1, hturn⟩

theorem Enters.drive (hP : Kept P) (h : m.Enters P w) (hm : m.InStep) :
    (m.drive w).1.1.ahead = m.ahead ∧ (m.drive w).1.1.Each P := by
  rcases drive_cases hm w with ⟨e, he, hd⟩ | ⟨-, -, ha, hi⟩
  · obtain ⟨u, hu, -, hr⟩ := run_takes e.1 e.2
    obtain ⟨ha, heach⟩ := h.takesTurn hP ⟨e, he, hu⟩
    obtain ⟨hturn, hall⟩ := heach.turn (w := u.2) hP
    rw [(congrArg Prod.fst hd).trans hr]
    exact ⟨hturn.trans ha, hall⟩
  · refine ⟨ha, ?_⟩
    rw [Each, hi]
    exact fun _ hs => absurd hs List.not_mem_nil

end Each

section Attentive

variable (h : m.Attentive)
include h

omit [ItemOrder O α] in
theorem Attentive.enters : m.Enters (fun _ s => s.Engaged) w := ⟨h.each, fun _ => openRuns_engaged⟩

theorem Attentive.takesTurn {u : Merge O α × W} (hu : m.TakesTurn w u) : u.1.Attentive := by
  obtain ⟨ha, he⟩ := h.enters.takesTurn kept_engaged hu
  exact ⟨ha ▸ h.ahead_pos, he⟩

/-- After a drive nothing can be sent, or a source was not ready. -/
theorem Attentive.drive_progress (hm : m.InStep) :
    (m.drive w).1.1.Attentive ∧ ((m.drive w).1.1.supply.canSend = false ∨
      ∃ u, m.TakesTurn w u ∧ u.1.IsRefused) := by
  obtain ⟨ha, hatt⟩ := h.enters.drive (w := w) kept_engaged hm
  refine ⟨⟨ha ▸ h.ahead_pos, hatt⟩, ?_⟩
  rcases drive_cases hm w with ⟨e, he, hd⟩ | ⟨-, ho, -⟩
  · obtain ⟨u, hu, hlast, hr⟩ := run_takes e.1 e.2
    rw [(congrArg Prod.fst hd).trans hr]
    exact ((h.takesTurn ⟨e, he, hu⟩).stops hlast).imp_right fun hu' => ⟨u, ⟨e, he, hu⟩, hu'⟩
  · exact .inl (Supply.canSend_of_not_open ho)

end Attentive

end Drives

end Merge

end ExternalSort
