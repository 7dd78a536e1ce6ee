/-
Filling an intake and taking from it.

An intake that lacks something asks its stream for it once.  Until that has
come, or the stream has ended, filling it again asks for nothing more: it joins
the fill that is under way and drives the stream on.  What is left of a demand
stays with the stream while items are taken, so what is held and what is still
asked for never come to more than the target; and whatever the stream has let
out was taken or is held, in order (`fills_coalesce`).
-/
import ExternalSort.Proofs.Merge.Bounds
import ExternalSort.Proofs.Stream.Delivery

namespace ExternalSort.Intake

variable {S α : Type} [Producer S α] {s t : Intake S α} {n : Nat} {a : α} {stream : S}

/-! ## One fill -/

theorem topUp_of_waiting (hw : s.waiting = true) : s.topUp n = s.advance.updateWaiting := by
  have hask : s.ask n = s := by simp [ask, hw]
  rw [topUp, hask]
  exact if_pos hw

theorem topUp_of_lack (hw : s.waiting = false) (hl : s.buffer.length < n) (hh : s.heard = none) :
    s.topUp n =
      { s with
        stream := Producer.request s.stream (n - s.buffer.length)
        waiting := true
        grants := s.grants + 1 : Intake S α }.advance.updateWaiting := by
  have hlack : 0 < n - s.buffer.length := Nat.sub_pos_of_lt hl
  have hask : s.ask n = { s with
      stream := Producer.request s.stream (n - s.buffer.length)
      waiting := true
      grants := s.grants + 1 } := by
    simp [ask, hw, hlack, hh]
  rw [topUp, hask]
  rfl

theorem topUp_of_no_lack (hw : s.waiting = false) (hl : ¬(s.buffer.length < n ∧ s.heard = none)) :
    s.topUp n = s.updateWaiting := by
  have hask : s.ask n = s := by
    rw [ask]
    refine if_neg ?_
    intro hc
    simp only [Bool.and_eq_true, decide_eq_true_eq, Option.isNone_iff_eq_none] at hc
    exact hl ⟨Nat.lt_of_sub_pos hc.1.2, hc.2⟩
  rw [topUp, hask]
  exact if_neg (by simp [hw])

theorem exists_topUp_eq (n : Nat) (s : Intake S α) :
    ∃ u : Intake S α, s.topUp n = u.updateWaiting := by
  rw [topUp]
  split
  · exact ⟨_, rfl⟩
  · exact ⟨_, rfl⟩

theorem waiting_topUp (h : (s.topUp n).waiting = true) :
    (s.topUp n).heard = none ∧ (Producer.demand (s.topUp n).stream).isPositive = true := by
  obtain ⟨u, hu⟩ := exists_topUp_eq n s
  rw [hu] at h ⊢
  exact waiting_updateWaiting h

/-! ## Sessions -/

/-- What is done with an intake. -/
inductive Call where
  | fill
  | take
deriving DecidableEq, Repr

/-- What an intake that is filled up to `n` items does with its stream. -/
def orders (n : Nat) (s : Intake S α) : List (Command α) :=
  if s.waiting then [.drive]
  else if s.buffer.length < n ∧ s.heard = none then
    [.request ((n - s.buffer.length : Nat) : Int), .drive]
  else []

/-- An intake and its past: the items that were taken from it, and what it has done
with its stream. -/
structure Session (S α : Type) where
  intake : Intake S α
  taken : List α := []
  commands : List (Command α)

/-- A fill does to the stream what was ordered, and holds what the stream lets out
meanwhile. -/
theorem topUp_orders (n : Nat) (s : Intake S α) :
    (s.topUp n).stream = (Command.performAll s.stream (s.orders n)).1 ∧
      (s.topUp n).buffer =
        s.buffer ++ Event.items (Command.performAll s.stream (s.orders n)).2 := by
  rw [orders]
  cases hw : s.waiting with
  | true =>
      rw [topUp_of_waiting hw, if_pos rfl]
      simp [Command.performAll, Command.perform, updateWaiting, advance, hear]
  | false =>
      rw [if_neg (by simp)]
      by_cases hl : s.buffer.length < n ∧ s.heard = none
      · have hrequest : Demand.ofRequest ((n - s.buffer.length : Nat) : Int) =
            .ok (n - s.buffer.length) := by
          rw [Demand.ofRequest, if_neg (by omega)]
          rfl
        rw [topUp_of_lack hw hl.1 hl.2, if_pos hl]
        simp [Command.performAll, Command.perform, hrequest, Except.toOption, updateWaiting,
          advance, hear]
      · rw [topUp_of_no_lack hw hl, if_neg hl]
        simp [Command.performAll, updateWaiting]

namespace Session

/-- A new intake has subscribed to its stream. -/
def ofStream (stream : S) : Session S α :=
  { intake := .ofStream stream, commands := [.subscribe {}] }

def call (n : Nat) (x : Session S α) : Call → Session S α
  | .fill =>
    { x with intake := x.intake.topUp n, commands := x.commands ++ x.intake.orders n }
  | .take =>
    match x.intake.takeFirst with
    | none => x
    | some (a, s) => { x with intake := s, taken := x.taken ++ [a] }

def calls (n : Nat) (x : Session S α) (cs : List Call) : Session S α := cs.foldl (call n) x

/-- A session with a stream, in which the intake is filled up to `n` items.  The fields
tell what every call keeps. -/
structure Sound (n : Nat) (stream : S) (x : Session S α) : Prop where
  within : x.intake.Within n
  listening : x.intake.Listening
  waits : x.intake.waiting = true →
    x.intake.heard = none ∧ (Producer.demand x.intake.stream).isPositive = true
  stream_eq : x.intake.stream = (Command.performAll stream x.commands).1
  conserves : x.taken ++ x.intake.buffer =
    Event.items (Command.performAll stream x.commands).2

variable [OrderlyProducer S α] {x : Session S α}

theorem sound_ofStream (hn : n < wordMax) (hd : (Producer.demand stream).amount = 0)
    (hu : (Producer.supply stream).Unheard) : Sound n stream (ofStream stream) where
  within := within_ofStream hn hd
  listening := listening_ofStream stream hu
  waits h := absurd h (by simp [ofStream, Intake.ofStream, hear])
  stream_eq := rfl
  conserves := by
    simp [ofStream, Intake.ofStream, hear, Command.performAll, Command.perform]

theorem Sound.fill (h : Sound n stream x) : Sound n stream (x.call n .fill) where
  within := h.within.topUp
  listening := listening_topUp h.listening
  waits := waiting_topUp
  stream_eq := by
    show (x.intake.topUp n).stream = (Command.performAll stream (x.commands ++ _)).1
    rw [Command.performAll_append, (topUp_orders n x.intake).1, h.stream_eq]
  conserves := by
    show x.taken ++ (x.intake.topUp n).buffer =
      Event.items (Command.performAll stream (x.commands ++ _)).2
    rw [Command.performAll_append, Event.items_append, (topUp_orders n x.intake).2,
      ← List.append_assoc, h.conserves, h.stream_eq]

omit [OrderlyProducer S α] in
theorem Sound.take (h : Sound n stream x) : Sound n stream (x.call n .take) := by
  rw [call]
  split
  · exact h
  · next a s ht =>
    have hw := h.within.takeFirst ht
    have hl := listening_takeFirst h.listening ht
    obtain ⟨rest, hb, rfl⟩ := takeFirst_eq_some.mp ht
    refine ⟨hw, hl, h.waits, h.stream_eq, ?_⟩
    rw [← h.conserves, hb, List.append_assoc]
    rfl

theorem Sound.calls (h : Sound n stream x) (cs : List Call) : Sound n stream (x.calls n cs) := by
  induction cs generalizing x with
  | nil => exact h
  | cons c cs ih =>
      cases c with
      | fill => exact ih h.fill
      | take => exact ih h.take

/-- How an intake stands with its stream at some point of a session. -/
structure Coalesces (n : Nat) (stream : S) (x : Session S α) : Prop where
  /-- What is held and what is still asked for stay within the target. -/
  room : x.intake.buffer.length + (Producer.demand x.intake.stream).amount ≤ n
  /-- A fill is under way exactly as long as a stream that has not ended is still asked
  for something. -/
  under_way : x.intake.waiting = true ↔
    0 < (Producer.demand x.intake.stream).amount ∧
      (Producer.supply x.intake.stream).ending? = none
  /-- Meanwhile another fill asks for nothing, and drives the stream. -/
  joins : x.intake.waiting = true →
    (x.intake.topUp n).stream = (Producer.drive x.intake.stream).1 ∧
      (x.intake.topUp n).grants = x.intake.grants
  /-- If none is under way, a fill asks for what is missing, unless the stream has ended. -/
  asks : x.intake.waiting = false →
    (x.intake.topUp n).stream =
      if x.intake.buffer.length < n ∧ (Producer.supply x.intake.stream).ending? = none then
        (Producer.drive (Producer.request x.intake.stream (n - x.intake.buffer.length))).1
      else x.intake.stream
  /-- After a fill the intake is ready, unless it holds nothing and more may come. -/
  pending : (x.intake.topUp n).isReady = false ↔
    (x.intake.topUp n).buffer = [] ∧ (Producer.supply (x.intake.topUp n).stream).ending? = none
  stream_eq : x.intake.stream = (Command.performAll stream x.commands).1
  /-- What was taken and what is held is what the stream has let out. -/
  conserves : x.taken ++ x.intake.buffer =
    Event.items (Command.performAll stream x.commands).2

theorem Sound.coalesces (h : Sound n stream x) : Coalesces n stream x where
  room := h.within.room
  under_way := by
    rw [← h.listening.heard]
    constructor
    · intro hw
      obtain ⟨hh, hd⟩ := h.waits hw
      exact ⟨of_decide_eq_true hd, hh⟩
    rintro ⟨hd, hh⟩
    cases hw : x.intake.waiting with
    | true => rfl
    | false => exact absurd (h.within.settled hw hh) (Nat.pos_iff_ne_zero.mp hd)
  joins hw := by
    rw [topUp_of_waiting hw]
    exact ⟨rfl, rfl⟩
  asks hw := by
    rw [← h.listening.heard]
    split
    · next hl =>
      rw [topUp_of_lack hw hl.1 hl.2]
      rfl
    · next hl =>
      rw [topUp_of_no_lack hw hl]
      rfl
  pending := by
    rw [← (listening_topUp h.listening).heard]
    simp [isReady, and_comm]
  stream_eq := h.stream_eq
  conserves := h.conserves

end Session

/-- However a stream of which nothing was asked before goes on, and in whichever order
its intake is filled up to `n` items and emptied: what is held and what is still asked
for never come to more than `n`; there is one fill at a time, which later ones join; a
fill leaves the intake waiting exactly if it holds nothing and the stream goes on; and the
items taken and those held are what the stream has let out. -/
theorem fills_coalesce [OrderlyProducer S α] (stream : S) (n : Nat) (hn : n < wordMax)
    (hdemand : (Producer.demand stream).amount = 0) (hu : (Producer.supply stream).Unheard)
    (cs : List Call) : ((Session.ofStream stream).calls n cs).Coalesces n stream :=
  ((Session.sound_ofStream hn hdemand hu).calls cs).coalesces

/-- Two items are asked for and one is there.  It is taken, and the other one comes when
the intake is filled again, which asks for nothing. -/
theorem fill_joined_after_take :
    let stream : ScriptStream UInt8 := .ofCues [.item 1, .rest, .item 2, .item 3]
    let x := (Session.ofStream stream).calls 2 [.fill, .take, .fill]
    2 < wordMax ∧ (Producer.demand stream).amount = 0 ∧ (Producer.supply stream).Unheard ∧
      x.taken = [1] ∧ x.intake.buffer = [2] ∧ x.intake.grants = 1 ∧ x.Coalesces 2 stream := by
  intro stream x
  have hn : 2 < wordMax := by decide
  have hu : (Producer.supply stream).Unheard := .inl rfl
  refine ⟨hn, rfl, hu, ?_, ?_, ?_, fills_coalesce stream 2 hn rfl hu [.fill, .take, .fill]⟩
  · decide +kernel
  · decide +kernel
  · decide +kernel

end ExternalSort.Intake
