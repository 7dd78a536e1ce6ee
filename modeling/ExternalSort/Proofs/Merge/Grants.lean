/-
How often a merge has asked for items.

An intake that waits for nothing has used up what it asked for, so its stream is asked
for more exactly when a fill is begun, and the intake counts that
(`Intake.Counting.topUp_grants`).  A merge adds up the counts of the intakes that it still
has.  An intake that is retired was filled at least once, and takes its count with it.  So
the merge shows all fills exactly as long as none of its sources is gone
(`Merge.grants_counted`), and none of them in the end (`Merge.grants_fall_back`).
-/
import ExternalSort.Proofs.Merge.Bounds
import ExternalSort.Proofs.Merge.Draining
import ExternalSort.Store.Planned

namespace ExternalSort

/-! ## Counting along a process -/

namespace Turn

variable {σ ε : Type} {quantity : σ → Nat} {turn : σ → Turn σ ε} {size : σ → Nat}
  {shrinks : ∀ s, (turn s).again = true → size (turn s).state < size s}

/-- The sum of a quantity over all states in which a process takes a turn. -/
def sumOver (quantity : σ → Nat) (turn : σ → Turn σ ε) (size : σ → Nat)
    (shrinks : ∀ s, (turn s).again = true → size (turn s).state < size s) (s : σ) : Nat :=
  if _h : (turn s).again = true then
    quantity s + sumOver quantity turn size shrinks (turn s).state
  else quantity s
termination_by size s
decreasing_by exact shrinks s _h

/-- A relation between the state before, a sum and the state after holds of a whole
process if it holds of every turn and sums add up. -/
theorem iterate_sumOver {I : σ → Prop} {R : σ → Nat → σ → Prop}
    (keep : ∀ s, I s → I (turn s).state) (step : ∀ s, I s → R s (quantity s) (turn s).state)
    (trans : ∀ {s t u j k}, R s j t → R t k u → R s (j + k) u) {s : σ} (h : I s) :
    R s (sumOver quantity turn size shrinks s) (iterate turn size shrinks s).1 := by
  suffices hfrom : ∀ before : Array ε, R s (sumOver quantity turn size shrinks s)
      (iterateFrom turn size shrinks s before).1 from hfrom #[]
  intro before
  fun_induction iterateFrom turn size shrinks s before with
  | case1 s before t ha ih =>
      rw [sumOver, dif_pos ha]
      exact trans (step s h) (ih (keep s h))
  | case2 s before t ha =>
      rw [sumOver, dif_neg ha]
      exact step s h

end Turn

/-- A stream whose drives are counted, each for what it is worth. -/
structure Watched {S : Type} (worth : S → Nat) where
  stream : S
  count : Nat := 0

namespace Watched

variable {S α : Type} [Producer S α] {worth : S → Nat}

instance : Producer (Watched worth) α where
  supply x := Producer.supply x.stream
  withSupply x o := { x with stream := Producer.withSupply x.stream o }
  drive x :=
    ({ stream := (Producer.drive x.stream).1, count := x.count + worth x.stream },
      (Producer.drive x.stream).2)

theorem perform_stream (x : Watched worth) (c : Command α) :
    (Command.perform x c).1.stream = (Command.perform x.stream c).1 := by
  cases c with
  | subscribe h => rfl
  | fetch n =>
      simp only [Command.perform, Producer.fetch]
      cases Demand.ofRequest n with
      | error e => rfl
      | ok n =>
          by_cases hn : n = 0
          · simp [Except.map, Except.toOption, hn]
          · simp only [Except.map, Except.toOption, hn, if_false]
            rfl
  | request n =>
      simp only [Command.perform]
      cases Demand.ofRequest n <;> rfl
  | pause => rfl
  | resume => rfl
  | drive => rfl

theorem performAll_stream (x : Watched worth) (cs : List (Command α)) :
    (Command.performAll x cs).1.stream = (Command.performAll x.stream cs).1 := by
  induction cs generalizing x with
  | nil => rfl
  | cons c cs ih =>
      show (Command.performAll (Command.perform x c).1 cs).1.stream =
        (Command.performAll (Command.perform x.stream c).1 cs).1
      rw [ih, perform_stream]

end Watched

/-! ## Intakes -/

namespace Intake

variable {S α : Type} [Producer S α] {s t : Intake S α} {n : Nat} {a : α}

/-- An intake that counts what it asks for: it asks only when nothing is left of what it
has asked for before, and it has counted something if it waits or has heard of an end. -/
structure Counting (s : Intake S α) : Prop where
  settled : s.Settled
  begun : s.waiting = true ∨ s.heard.isSome = true → 0 < s.grants

theorem Counting.takeFirst (h : s.Counting) (ht : s.takeFirst = some (a, t)) : t.Counting where
  settled := h.settled.takeFirst ht
  begun := by
    obtain ⟨rest, -, rfl⟩ := takeFirst_eq_some.mp ht
    exact h.begun

theorem Counting.ask (h : s.Counting) : (s.ask n).Counting where
  settled := h.settled.ask
  begun := by
    rw [Intake.ask]
    split
    · exact fun _ => Nat.succ_pos _
    · exact h.begun

theorem Counting.topUp (h : s.Counting) : (s.topUp n).Counting where
  settled := h.settled.topUp
  begun := by
    have hask := (h.ask (n := n)).begun
    rw [Intake.topUp]
    split
    · next hw => exact fun _ => hask (.inl hw)
    · next hw =>
      rintro (hw' | hh)
      · exact absurd hw' (by simp [updateWaiting, hw])
      · exact hask (.inr hh)

theorem Counting.grants_pos (h : s.Counting) (hs : s.isSpent = true) : 0 < s.grants :=
  h.begun (.inr (by rw [(isSpent_iff.mp hs).1]; rfl))

variable [OrderlyProducer S α]

theorem counting_ofStream {stream : S} (hs : Producer.supply stream = {}) :
    (ofStream stream).Counting where
  settled := by
    have hd : (Producer.demand stream).amount = 0 := by
      rw [Producer.demand, hs]
      rfl
    obtain ⟨-, hsame⟩ := Producer.metered_subscribe (i := stream) (by rw [hd]; decide)
    exact fun _ _ => (congrArg Demand.amount hsame).trans hd
  begun := by
    have hnone : (ofStream stream).heard = none := by
      show (none <|> Event.endingOf ((Producer.supply stream).subscribe {}).2) = none
      rw [hs]
      rfl
    rintro (hw | hh)
    · exact absurd hw (by simp [ofStream, hear])
    · exact absurd hh (by simp [hnone])

/-- How often the stream of an intake is asked for more when the intake is filled up to
`n` items: once or not at all. -/
def asksMore (n : Nat) (s : Intake S α) : Nat :=
  if (Producer.demand s.stream).amount < (Producer.demand (s.ask n).stream).amount then 1 else 0

theorem Counting.topUp_grants (h : s.Counting) :
    (s.topUp n).grants = s.grants + s.asksMore n := by
  have hsame : (s.topUp n).grants = (s.ask n).grants := by
    rw [Intake.topUp]
    split <;> rfl
  rw [hsame, asksMore, Intake.ask]
  by_cases hc : !s.waiting && 0 < n - s.buffer.length && s.heard.isNone
  · rw [if_pos hc, if_pos]
    simp only [Bool.and_eq_true, Bool.not_eq_true', decide_eq_true_eq,
      Option.isNone_iff_eq_none] at hc
    rw [h.settled hc.1.1 hc.2]
    have hs := OrderlyProducer.supply_changeDemand s.stream (.request (n - s.buffer.length))
    show 0 < (Producer.supply (Producer.changeDemand _ _)).demand.amount
    rw [hs]
    exact of_decide_eq_true (isPositive_grant hc.1.2)
  · rw [if_neg hc, if_neg (Nat.lt_irrefl _)]
    rfl

end Intake

namespace Merge

/-! ## All intakes -/

section Intakes

variable {S α : Type} [FiniteProducer S α] {ss ts : List (Intake S α)} {n : Nat} {ready : Bool}
  {a : α}

/-- How often streams are asked for more when their intakes are topped up, in order, up to
the first one that fails. -/
def grantedBy (n : Nat) : List (Intake S α) → Nat
  | [] => 0
  | s :: ss =>
    let asked := if s.buffer.isEmpty && !s.isSpent then s.asksMore n else 0
    if (refill n s).failure?.isSome then asked else asked + grantedBy n ss

theorem refillAll_grants [OrderlyProducer S α] (h : refillAll n ss = .ok (ready, ts))
    (hs : ∀ s ∈ ss, s.Counting) :
    ts.length = ss.length ∧ total (·.grants) ts = total (·.grants) ss + grantedBy n ss := by
  obtain ⟨rfl, -, hf⟩ := refillAll_eq h
  refine ⟨List.length_map _, ?_⟩
  clear h
  induction ss with
  | nil => rfl
  | cons s ss ih =>
      obtain ⟨hf, hfs⟩ := List.forall_mem_cons.mp hf
      obtain ⟨hs, hss⟩ := List.forall_mem_cons.mp hs
      have ih := ih hss hfs
      simp only [total, List.map_cons, List.sum_cons] at ih ⊢
      rw [ih, grantedBy, hf, if_neg (by simp), refill]
      split
      · rw [hs.topUp_grants]
        omega
      · omega

/-- Intakes that are retired take with them what they have counted. -/
theorem grants_retire_lt (hs : ∀ s ∈ ss, s.Counting) (hlt : (retire ss).length < ss.length) :
    total (·.grants) (retire ss) < total (·.grants) ss := by
  induction ss with
  | nil => exact absurd hlt (Nat.lt_irrefl 0)
  | cons s ss ih =>
      obtain ⟨hs, hss⟩ := List.forall_mem_cons.mp hs
      cases hsp : s.isSpent with
      | true =>
          have hretire : retire (s :: ss) = retire ss := by simp [retire, hsp]
          rw [hretire]
          exact Nat.lt_of_le_of_lt (total_retire_le _ ss) (Nat.lt_add_of_pos_left (hs.grants_pos hsp))
      | false =>
          have hretire : retire (s :: ss) = s :: retire ss := by simp [retire, hsp]
          rw [hretire, List.length_cons, List.length_cons] at hlt
          rw [hretire]
          exact Nat.add_lt_add_left (ih hss (Nat.lt_of_succ_lt_succ hlt)) _

end Intakes

variable {O α W : Type} [ItemOrder O α] [SpillStore W] {m m₁ m' : Merge O α} {w : W}
  {made made' : Nat}

/-! ## Sources -/

/-- The sources of a merge that are not gone: the runs that were not opened, and the
intakes that were not retired. -/
def sourcesLeft (m : Merge O α) : Nat := m.runs.length + m.intakes.length

/-- From `m` to `m'` streams were asked for more `made` times, and this is what became of
the count. -/
structure Counted (m : Merge O α) (made : Nat) (m' : Merge O α) : Prop where
  left_le : m'.sourcesLeft ≤ m.sourcesLeft
  /-- A merge that has no sources left asks for nothing. -/
  asks : m.sourcesLeft = 0 → made = 0
  grants_le : m'.grants ≤ m.grants + made
  grants_eq : m'.sourcesLeft = m.sourcesLeft → m'.grants = m.grants + made
  /-- A source that is gone has counted something, unless the merge has ended before it
  has asked for anything. -/
  forgets : m'.sourcesLeft < m.sourcesLeft →
    m'.grants < m.grants + made ∨ m'.sourcesLeft = 0 ∧ m.grants + made = 0

omit [ItemOrder O α] in
theorem Counted.trans (h : Counted m made m₁) (k : Counted m₁ made' m') :
    Counted m (made + made') m' := by
  obtain ⟨h₁, h₂, h₃, h₄, h₅⟩ := h
  obtain ⟨k₁, k₂, k₃, k₄, k₅⟩ := k
  constructor <;> omega

omit [ItemOrder O α] in
theorem Counted.of_intakes (hruns : m'.runs = m.runs)
    (hlen : m'.intakes.length = m.intakes.length) (hgrants : m'.grants = m.grants + made)
    (hnone : m.intakes = [] → made = 0) : Counted m made m' where
  left_le := Nat.le_of_eq (by rw [sourcesLeft, sourcesLeft, hruns, hlen])
  asks hzero := hnone (List.length_eq_zero_iff.mp (Nat.eq_zero_of_add_eq_zero_left hzero))
  grants_le := Nat.le_of_eq hgrants
  grants_eq _ := hgrants
  forgets hlt := absurd hlt (by rw [sourcesLeft, sourcesLeft, hruns, hlen]; exact Nat.lt_irrefl _)

omit [ItemOrder O α] in
theorem Counted.refl (m : Merge O α) : Counted m 0 m := .of_intakes rfl rfl rfl fun _ => rfl

omit [ItemOrder O α] in
theorem Counted.of_same (h : Counted m made m₁) (hruns : m'.runs = m₁.runs)
    (hintakes : m'.intakes = m₁.intakes) : Counted m made m' := by
  have hgrants : m'.grants = m₁.grants := by rw [grants, grants, hintakes]
  exact h.trans (.of_intakes hruns (congrArg _ hintakes) hgrants fun _ => rfl)

omit [ItemOrder O α] in
theorem counted_retire (h : ∀ s ∈ m.intakes, s.Counting) :
    Counted m 0 { m with intakes := retire m.intakes } where
  left_le := Nat.add_le_add_left (List.length_filter_le _ _) _
  asks _ := rfl
  grants_le := total_retire_le _ m.intakes
  grants_eq hsame := by
    have hlen : (retire m.intakes).length = m.intakes.length := Nat.add_left_cancel hsame
    have hall : retire m.intakes = m.intakes := List.filter_sublist.eq_of_length hlen
    exact congrArg (total (·.grants)) hall
  forgets hlt := .inl (grants_retire_lt h (Nat.lt_of_add_lt_add_left hlt))

omit [ItemOrder O α] in
/-- A merge that ends has no sources left and no count. -/
theorem counted_conclude (n : Merge O α) (phase : MergePhase) (e : Ending)
    (hnone : m.intakes = [] → made = 0) : Counted m made (n.conclude w phase e).state.1 := by
  have hleft : (n.conclude w phase e).state.1.sourcesLeft = 0 := rfl
  have hgrants : (n.conclude w phase e).state.1.grants = 0 := rfl
  have hasks : m.sourcesLeft = 0 → m.grants + made = 0 := by
    intro hzero
    have hi : m.intakes = [] :=
      List.length_eq_zero_iff.mp (Nat.eq_zero_of_add_eq_zero_left hzero)
    rw [hnone hi, grants, hi]
    rfl
  constructor <;> omega

/-! ## Turns -/

/-- How often streams are asked for more in one turn. -/
def grantsInTurn (s : Merge O α × W) : Nat :=
  if s.1.supply.canSend then grantedBy s.1.ahead (retire s.1.intakes) else 0

theorem kept_counting : Kept fun _ (s : Intake (RunStream α) α) => s.Counting where
  refill hs := refill_keeps hs hs.topUp
  takeFirst ht hs := hs.takeFirst ht

/-- A merge of intakes that count, and that wait for nothing but what they have asked
for. -/
structure Accountable (m : Merge O α) : Prop where
  attentive : m.Attentive
  counting : m.Each fun _ s => s.Counting

theorem Accountable.turn (h : m.Accountable) : (Merge.turn (m, w)).state.1.Accountable :=
  ⟨h.attentive.turn, (h.counting.turn kept_counting).2⟩

omit [ItemOrder O α] [SpillStore W] in
theorem grantsInTurn_of_nil (hi : m.intakes = []) : grantsInTurn (m, w) = 0 := by
  rw [grantsInTurn, hi]
  exact ite_self 0

theorem Accountable.turn_counted (h : m.Accountable) :
    Counted m (grantsInTurn (m, w)) (Merge.turn (m, w)).state.1 := by
  have hretire := counted_retire h.counting
  have hrefill : ∀ {ready ss}, m.supply.canSend = true →
      refillAll m.ahead (retire m.intakes) = .ok (ready, ss) →
      Counted m (grantsInTurn (m, w)) { m with intakes := ss } := by
    intro ready ss hc hr
    obtain ⟨hlen, hgrants⟩ := refillAll_grants hr fun s hs => h.counting s (mem_of_mem_retire hs)
    have hmade : grantsInTurn (m, w) = grantedBy m.ahead (retire m.intakes) := if_pos hc
    rw [hmade, ← Nat.zero_add (grantedBy _ _)]
    refine hretire.trans (.of_intakes rfl hlen hgrants fun hnil => ?_)
    exact congrArg (grantedBy m.ahead) hnil
  have ht := turn_turns m w
  generalize Merge.turn (m, w) = t at ht
  cases ht with
  | ends n phase e => exact counted_conclude n phase e grantsInTurn_of_nil
  | unasked hc =>
      have hmade : grantsInTurn (m, w) = 0 := if_neg (by simp [hc])
      rw [hmade]
      exact hretire
  | waits hc hr => exact (hrefill hc hr).of_same rfl rfl
  | noWinner hr hne ht => exact absurd ⟨_, hr, hne, ht⟩ h.attentive.finds_winner
  | @sends ss ts a hc hr ht =>
      have hleft := (hrefill hc hr).trans (counted_retire (h.counting.refilled kept_counting hr))
      have htaken : Counted { m with intakes := retire ss } 0
          { m with intakes := ts, phase := .sending, supply := (m.supply.send a).1 } :=
        .of_intakes rfl (length_takeLeast ht) (total_takeLeast (fun _ _ => rfl) ht) fun _ => rfl
      exact hleft.trans htaken

/-! ## Drives -/

/-- How often streams are asked for more in one drive. -/
def grantsInDrive (s : Merge O α × W) : Nat :=
  (s.1.entry s.2).elim 0
    (Turn.sumOver grantsInTurn turn (fun s => boundAll s.1.intakes) turn_shrinks)

theorem length_courses (decode : List UInt8 → Except Cause α) (w : W) (runs : List (Run α)) :
    (courses decode w runs).length = runs.length := by
  induction runs generalizing w with
  | nil => rfl
  | cons run runs ih =>
      cases run with
      | memory items => exact congrArg (· + 1) (ih w)
      | file f =>
          rw [courses]
          split
          · exact congrArg (· + 1) (ih _)
          · exact congrArg (· + 1) (ih _)

omit [ItemOrder O α] in
theorem counted_opened {ss : List (Intake (RunStream α) α)}
    (h : (openRuns m.decode m.chunk w m.runs).1 = .ok ss) :
    Counted m 0 { m with runs := [], intakes := m.intakes ++ ss } := by
  have hlen : ss.length = m.runs.length := by
    have hopened := openRuns_opened m.decode m.chunk w m.runs
    rw [h] at hopened
    rw [← length_courses m.decode w m.runs, ← hopened.2, List.length_map]
  have hgrants : total (·.grants) ss = 0 :=
    List.sum_eq_zero (List.forall_mem_map.mpr (openRuns_fresh (fun _ _ => rfl) h))
  have hleft : sourcesLeft { m with runs := [], intakes := m.intakes ++ ss } = m.sourcesLeft := by
    simp [sourcesLeft, hlen, Nat.add_comm]
  have hsame : grants { m with runs := [], intakes := m.intakes ++ ss } = m.grants := by
    simp only [grants, total, List.map_append, List.sum_append] at hgrants ⊢
    omega
  exact ⟨Nat.le_of_eq hleft, fun _ => rfl, Nat.le_of_eq hsame, fun _ => hsame,
    fun hlt => absurd hlt (Nat.not_lt.mpr (Nat.le_of_eq hleft.symm))⟩

theorem Accountable.run_counted (h : m.Accountable) :
    Counted m (Turn.sumOver grantsInTurn Merge.turn (fun s => boundAll s.1.intakes) turn_shrinks
      (m, w)) (m.run w).1.1 := by
  refine Turn.iterate_sumOver (I := fun s : Merge O α × W => s.1.Accountable)
    (R := fun s made t => Counted s.1 made t.1) ?_ ?_ .trans (s := (m, w)) h
  · rintro ⟨m, w⟩ hs
    exact hs.turn
  · rintro ⟨m, w⟩ hs
    exact hs.turn_counted

omit [ItemOrder O α] in
theorem Accountable.enters (h : m.Accountable) : m.Enters (fun _ s => s.Counting) w :=
  ⟨h.counting, fun _ hopen => openRuns_fresh (fun _ hs => Intake.counting_ofStream hs) hopen⟩

theorem Accountable.drive (h : m.Accountable) (hm : m.InStep) : (m.drive w).1.1.Accountable :=
  ⟨(h.attentive.drive_progress hm).1, (h.enters.drive kept_counting hm).2⟩

omit [ItemOrder O α] in
theorem Accountable.entry (h : m.Accountable) {e : Merge O α × W} (he : m.entry w = some e) :
    e.1.Accountable ∧ Counted m 0 e.1 := by
  obtain ⟨ha, hengaged⟩ := h.attentive.enters.entry he
  refine ⟨⟨⟨ha ▸ h.attentive.ahead_pos, hengaged⟩, (h.enters.entry he).2⟩, ?_⟩
  rw [Merge.entry] at he
  split at he
  · exact absurd he (by simp)
  split at he
  · split at he
    · exact absurd he (by simp)
    · next ss w' ho =>
      obtain rfl := Option.some.inj he
      exact counted_opened (congrArg Prod.fst ho)
  · obtain rfl := Option.some.inj he
    exact .refl m

theorem Accountable.drive_counted (h : m.Accountable) (w : W) :
    Counted m (grantsInDrive (m, w)) (m.drive w).1.1 := by
  rcases drive_entry m w with ⟨e, he, hd⟩ | ⟨hnone, -, hd⟩ | ⟨f, w', hnone, hd⟩
  · obtain ⟨hacc, hentry⟩ := h.entry he
    have hmade : grantsInDrive (m, w) = _ := congrArg (Option.elim · _ _) he
    rw [hmade, hd, ← Nat.zero_add (Option.elim _ _ _)]
    exact hentry.trans hacc.run_counted
  · have hmade : grantsInDrive (m, w) = 0 := congrArg (Option.elim · _ _) hnone
    rw [hmade, hd]
    exact .refl m
  · rw [hd]
    have hmade : grantsInDrive (m, w) = 0 := congrArg (Option.elim · _ _) hnone
    exact counted_conclude m _ _ fun _ => hmade

/-! ## Schedules -/

/-- How often streams are asked for more while some commands are performed. -/
def grantsAlong (s : Merge O α × W) (cs : List (Command α)) : Nat :=
  (Command.performAll ({ stream := s } : Watched (grantsInDrive (O := O) (α := α) (W := W)))
    cs).1.count

theorem performAll_counted {s : Merge O α × W} (hm : s.1.InStep) (h : s.1.Accountable)
    (cs : List (Command α)) : (Command.performAll s cs).1.1.InStep ∧
      (Command.performAll s cs).1.1.Accountable ∧
      Counted s.1 (grantsAlong s cs) (Command.performAll s cs).1.1 := by
  let start : Watched (grantsInDrive (O := O) (α := α) (W := W)) := { stream := s }
  let P (x : Watched (grantsInDrive (O := O) (α := α) (W := W))) : Prop :=
    x.stream.1.InStep ∧ x.stream.1.Accountable ∧ Counted s.1 x.count x.stream.1
  have hchange : ∀ x (o : Supply α), P x → o.isOpen = x.stream.1.supply.isOpen →
      P (Producer.withSupply x o) := by
    rintro x o ⟨hm, h, hcounted⟩ ho
    exact ⟨⟨hm.phase.trans (congrArg _ ho.symm), hm.released⟩,
      ⟨⟨h.attentive.ahead_pos, h.attentive.engaged⟩, h.counting⟩, hcounted.of_same rfl rfl⟩
  suffices hall : P (Command.performAll start cs).1 by
    rw [← start.performAll_stream cs]
    exact hall
  refine Command.performAll_induction (P := fun x _ => P x) ?_ ?_ ?_ ⟨hm, h, .refl s.1⟩ cs
  · intro x k _ hx
    exact hchange x _ hx (Supply.isOpen_subscribe x.stream.1.supply k)
  · intro x d _ hx
    exact hchange x _ hx rfl
  · rintro x _ ⟨hm, h, hcounted⟩
    exact ⟨drive_inStep hm, h.drive hm, hcounted.trans (h.drive_counted x.stream.2)⟩

/-- Whatever is asked of a merge, and however often its files are not ready: it shows as many
fills as streams were asked for more exactly if none of its sources is gone, or if it has
not asked for anything; otherwise it shows too few.  The fills that it shows are up by
those that are added as long as no further source is gone, and a merge that has ended
shows none. -/
theorem grants_counted (order : O) (decode : List UInt8 → Except Cause α) (runs : List (Run α))
    (ahead chunk : Nat) (w : W) (cs ds : List (Command α)) :
    let start := (((ofRuns order decode runs).withAhead ahead).withChunk chunk, w)
    let s := (Command.performAll start cs).1
    let t := (Command.performAll s ds).1
    (s.1.grants = grantsAlong start cs ↔
        s.1.sourcesLeft = runs.length ∨ grantsAlong start cs = 0) ∧
      s.1.grants ≤ grantsAlong start cs ∧
      (t.1.sourcesLeft = s.1.sourcesLeft → t.1.grants = s.1.grants + grantsAlong s ds) ∧
      (s.1.phase.isFinal = true → s.1.grants = 0) := by
  intro start s t
  have hatWork := ofRuns_atWork order decode runs ahead chunk
  have hacc : start.1.Accountable := ⟨hatWork.attentive, fun _ hs => absurd hs List.not_mem_nil⟩
  obtain ⟨hm, hs, hcounted⟩ : s.1.InStep ∧ s.1.Accountable ∧
      Counted start.1 (grantsAlong start cs) s.1 := performAll_counted hatWork.inStep hacc cs
  obtain ⟨-, -, hlater⟩ := performAll_counted hm hs ds
  have hnone : start.1.grants = 0 := rfl
  have hleft : start.1.sourcesLeft = runs.length := rfl
  obtain ⟨hle, -, hgrants, heq, hforgets⟩ := hcounted
  rw [hnone, hleft] at *
  refine ⟨by omega, by omega, hlater.grants_eq, ?_⟩
  intro hfinal
  rw [grants, (hm.released hfinal).2.1]
  rfl

/-- The only run is asked twice.  With its second item it has ended, and the merge with
it: the fills that it shows are back at none. -/
theorem grants_fall_back :
    let start := ((ofRuns (PlainOrder.natural UInt8) (fun _ => .error (.text "no file"))
      [.memory [1, 2]]).withAhead 1, ({} : PlannedStore))
    let asked (n : Nat) : List (Command UInt8) := .subscribe {} :: List.replicate n (.fetch 1)
    let shown (n : Nat) := (Command.performAll start (asked n)).1.1.grants
    shown 0 = 0 ∧ shown 1 = 1 ∧ shown 2 = 0 ∧
      grantsAlong start (asked 1) = 1 ∧ grantsAlong start (asked 2) = 2 := by
  decide +kernel

end Merge

end ExternalSort
