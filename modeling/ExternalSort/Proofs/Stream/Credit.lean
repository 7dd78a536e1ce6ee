/-
What a consumer has asked for, and not got yet.

The history of a stream tells in order what was done with it and what was
heard of it.  An `Account` is kept of the history alone: requests add to the
credit, a pause takes it back, asking for everything makes it infinite, and
each item takes one off before its consumer reacts to it.

The demand of a stream is a counter that several parties change, and it stops
at the largest word.  It agrees with the account as long as no finite credit
gets there (`Account.Fits`), and then no item comes without credit
(`Command.keepsToDemand`).
-/
import ExternalSort.Proofs.Stream.Commands
import Mathlib.Data.ENat.Basic
import Mathlib.Data.List.Infix

namespace ExternalSort

/-! ## Credit -/

namespace Demand

/-- A credit after one change of the demand. -/
def Change.apply (c : ℕ∞) : Change → ℕ∞
  | pause => 0
  | unlimit => ⊤
  | request n => c + n

/-- What is asked for, where the largest word stands for everything. -/
def credit (d : Demand) : ℕ∞ := if d.isUnlimited then ⊤ else d.amount

theorem credit_eq_zero {d : Demand} : d.credit = 0 ↔ d.isPositive = false := by
  have hmax : 0 < wordMax := by decide
  rw [credit, isUnlimited, isPositive]
  by_cases hu : d.amount = wordMax
  · simp [hu, hmax]
  · simp [hu]

/-- A credit that a word can tell from an infinite one. -/
def Fits (c : ℕ∞) : Prop := c = ⊤ ∨ c < wordMax

instance (c : ℕ∞) : Decidable (Fits c) := inferInstanceAs (Decidable (_ ∨ _))

/-- The word for a credit. -/
def word : ℕ∞ → Nat := ENat.recTopCoe wordMax (min · wordMax)

variable {d : Demand} {c : ℕ∞}

theorem word_change (h : d.amount = word c) (ch : Change) :
    (d.change ch).amount = word (ch.apply c) := by
  cases ch with
  | pause => rfl
  | unlimit => rfl
  | request n =>
      show min (d.amount + n) wordMax = word (c + n)
      rw [h]
      cases c with
      | top => exact Nat.min_eq_right (Nat.le_add_right ..)
      | coe m =>
          show min (min m wordMax + n) wordMax = min (m + n) wordMax
          omega

theorem word_changes (h : d.amount = word c) (chs : List Change) :
    (d.changes chs).amount = word (chs.foldl Change.apply c) := by
  induction chs generalizing d c with
  | nil => exact h
  | cons ch chs ih => exact ih (word_change h ch)

theorem fits_cases (h : d.amount = word c) (hc : Fits c) :
    c = ⊤ ∧ d.isUnlimited = true ∨ ∃ n : ℕ, c = n ∧ d.amount = n ∧ d.isUnlimited = false := by
  rcases hc with rfl | hc
  · exact .inl ⟨rfl, by simp [isUnlimited, h, word]⟩
  · lift c to ℕ using ne_top_of_lt hc
    have hlt : c < wordMax := Nat.cast_lt.mp hc
    have hword : d.amount = c := h.trans (Nat.min_eq_left (Nat.le_of_lt hlt))
    exact .inr ⟨c, rfl, hword, by simpa [isUnlimited, hword] using Nat.ne_of_lt hlt⟩

theorem credit_of_word (h : d.amount = word c) (hc : Fits c) : d.credit = c := by
  rcases fits_cases h hc with ⟨rfl, hu⟩ | ⟨n, rfl, hn, hu⟩
  · rw [credit, if_pos hu]
  · rw [credit, if_neg (by simp [hu]), hn]

theorem word_consume (h : d.amount = word c) (hc : Fits c) :
    d.consume.amount = word (c - 1) := by
  rcases fits_cases h hc with ⟨rfl, hu⟩ | ⟨n, rfl, hn, hu⟩
  · rw [consume, if_pos hu]
    exact h
  · have hle := d.amount_le
    rw [consume, if_neg (by simp [hu])]
    show d.amount - 1 = min (n - 1) wordMax
    omega

theorem isPositive_iff (h : d.amount = word c) : d.isPositive = true ↔ 0 < c := by
  rw [isPositive, h, decide_eq_true_iff]
  cases c with
  | top => exact iff_of_true (by decide) ENat.top_pos
  | coe m =>
      have hcast : (0 : ℕ∞) < m ↔ 0 < m := by norm_cast
      have hmax : 0 < wordMax := by decide
      rw [hcast]
      show 0 < min m wordMax ↔ 0 < m
      omega

end Demand

/-! ## Accounts -/

/-- One thing that happens between a stream and its consumer. -/
inductive Dealing (α : Type) where
  | command (c : Command α)
  | event (e : Event α)

namespace Command

variable {S α : Type} [Producer S α]

/-- What happens when several things are done with a stream. -/
def history (s : S) : List (Command α) → List (Dealing α)
  | [] => []
  | c :: cs => .command c :: (perform s c).2.map .event ++ history (perform s c).1 cs

end Command

/-- What is known of the dealings with a stream: the credit that is left, who
is subscribed, and how many items that one has got. -/
structure Account (α : Type) where
  credit : ℕ∞ := 0
  subscriber : Option (Subscriber α) := none
  received : Nat := 0

namespace Account

variable {α : Type}

/-- Notes one more dealing.  An item takes one off the credit, and then its
consumer may change it. -/
def note (a : Account α) : Dealing α → Account α
  | .command (.subscribe h) => { a with subscriber := some h, received := 0 }
  | .command c => { a with credit := c.changes.foldl Demand.Change.apply a.credit }
  | .event (.item x) =>
    { a with
      credit := (a.subscriber.elim [] (·.react a.received x)).foldl Demand.Change.apply
        (a.credit - 1)
      received := a.received + 1 }
  | .event (.ending _) => a

/-- The account after some dealings. -/
def after (a : Account α) (ds : List (Dealing α)) : Account α := ds.foldl note a

/-- Whether the credit fits a word all the time. -/
def Fits (a : Account α) (ds : List (Dealing α)) : Prop :=
  ∀ before, before <+: ds → Demand.Fits (a.after before).credit

instance (a : Account α) (ds : List (Dealing α)) : Decidable (a.Fits ds) :=
  decidable_of_iff (∀ before ∈ ds.inits, Demand.Fits (a.after before).credit)
    (by simp only [List.mem_inits, Fits])

/-- Whether each item comes out of some credit. -/
def Covers (a : Account α) (ds : List (Dealing α)) : Prop :=
  ∀ before x, before ++ [.event (.item x)] <+: ds → 0 < (a.after before).credit

variable {a : Account α} {d : Dealing α} {ds es : List (Dealing α)}

theorem after_append : a.after (ds ++ es) = (a.after ds).after es := List.foldl_append

theorem Fits.head (h : a.Fits ds) : Demand.Fits a.credit := h [] (List.nil_prefix ..)

theorem Fits.right (h : a.Fits (ds ++ es)) : (a.after ds).Fits es := by
  intro before hb
  rw [← after_append]
  exact h _ ((List.prefix_append_right_inj ds).mpr hb)

theorem Fits.tail (h : a.Fits (d :: ds)) : (a.note d).Fits ds := by
  intro before hb
  exact h (d :: before) ((List.prefix_cons_inj d).mpr hb)

theorem Fits.left (h : a.Fits (ds ++ es)) : a.Fits ds := by
  intro before hb
  exact h before (hb.trans (List.prefix_append ..))

theorem Covers.nil : a.Covers [] := by
  intro before x hb
  exact absurd (List.prefix_nil.mp hb) (by simp)

theorem Covers.append (h : a.Covers ds) (k : (a.after ds).Covers es) : a.Covers (ds ++ es) := by
  intro before x hb
  rcases List.prefix_or_prefix_of_prefix hb (List.prefix_append ds es) with hl | hr
  · exact h before x hl
  · rcases List.prefix_concat_iff.mp hr with rfl | ⟨rest, rfl⟩
    · exact h before x List.prefix_rfl
    · rw [List.append_assoc, List.prefix_append_right_inj] at hb
      rw [after_append]
      exact k rest x hb

theorem Covers.cons (h : ∀ x, d = .event (.item x) → 0 < a.credit) (k : (a.note d).Covers ds) :
    a.Covers (d :: ds) := by
  intro before x hb
  cases before with
  | nil =>
      obtain ⟨rfl, -⟩ := List.cons_prefix_cons.mp hb
      exact h x rfl
  | cons c before =>
      obtain ⟨rfl, hp⟩ := List.cons_prefix_cons.mp hb
      exact k before x hp

theorem Covers.command (c : Command α) (h : (a.note (.command c)).Covers ds) :
    a.Covers (.command c :: ds) :=
  .cons (fun _ h => absurd h (by simp)) h

theorem after_of_no_items {evs : List (Event α)} (h : Event.items evs = []) :
    a.after (evs.map .event) = a ∧ a.Covers (evs.map .event) := by
  induction evs with
  | nil => exact ⟨rfl, .nil⟩
  | cons e evs ih =>
      cases e with
      | item x => exact absurd h (by simp [Event.items, Event.item?])
      | ending e =>
          obtain ⟨ha, hc⟩ := ih h
          exact ⟨ha, .cons (fun _ h => absurd h (by simp)) hc⟩

/-! ## Accounts and supplies -/

/-- An account that agrees with a supply that was not torn down. -/
structure Agrees (a : Account α) (o : Supply α) : Prop where
  demand : o.demand.amount = Demand.word a.credit
  subscriber : a.subscriber = o.subscriber
  received : a.received = o.received
  status : o.status ≠ .closed

variable {o o' : Supply α}

theorem Agrees.send (h : a.Agrees o) (hf : Demand.Fits a.credit) (hc : o.canSend = true) (x : α) :
    (a.note (.event (.item x))).Agrees (o.send x).1 ∧ 0 < a.credit := by
  obtain ⟨-, hs, hp⟩ := Supply.canSend_iff.mp hc
  obtain ⟨s, hs⟩ := Option.isSome_iff_exists.mp hs
  refine ⟨?_, (Demand.isPositive_iff h.demand).mp hp⟩
  have hreact : a.subscriber.elim [] (·.react a.received x) = s.react o.received x := by
    rw [h.subscriber, h.received, hs]
    rfl
  refine ⟨?_, h.subscriber.trans (Supply.send_subscriber o x).symm, ?_, ?_⟩
  · rw [Supply.send, hs, note, hreact]
    exact Demand.word_changes (Demand.word_consume h.demand hf) _
  · rw [Supply.send, hs, note, h.received]
  · rw [Supply.send_status]
    exact h.status

theorem Agrees.finish (h : a.Agrees o) (e : Ending) : a.Agrees (o.finish e).1 := by
  rcases Supply.finish_fst o e with heq | heq <;> rw [heq]
  · exact h
  · refine ⟨h.demand, h.subscriber, h.received, ?_⟩
    dsimp only [Supply.raisedTo]
    split <;> simp

theorem Agrees.subscribe (h : a.Agrees o) (s : Subscriber α) :
    (a.note (.command (.subscribe s))).Agrees (o.subscribe s).1 := by
  rw [Supply.subscribe]
  split
  · next hs => exact ⟨h.demand, rfl, rfl, h.status⟩
  · exact ⟨h.demand, rfl, rfl, by simp⟩
  · exact ⟨h.demand, rfl, rfl, h.status⟩
  · next hs => exact absurd hs h.status

/-- Whatever a stream does with its supply, the account agrees with it, and the
items come out of credit. -/
theorem Agrees.steps {evs : List (Event α)} (h : a.Agrees o) (hs : Supply.Steps o evs o')
    (hf : a.Fits (evs.map .event)) :
    (a.after (evs.map .event)).Agrees o' ∧ a.Covers (evs.map .event) := by
  induction hs generalizing a with
  | refl o => exact ⟨h, .nil⟩
  | send x hc _ ih =>
      rw [Supply.send_events hc, List.singleton_append, List.map_cons] at hf ⊢
      obtain ⟨ha, hpos⟩ := h.send hf.head hc x
      obtain ⟨ha, hcov⟩ := ih ha hf.tail
      exact ⟨ha, .cons (fun _ _ => hpos) hcov⟩
  | @finish o o' evs e _ ih =>
      obtain ⟨ha, hcov⟩ := after_of_no_items (a := a) (Supply.items_finish o e)
      rw [List.map_append] at hf ⊢
      have hfits := hf.right
      rw [ha] at hfits
      obtain ⟨hagrees, hrest⟩ := ih (h.finish e) hfits
      refine ⟨?_, .append hcov ?_⟩
      · rw [after_append, ha]
        exact hagrees
      · rw [ha]
        exact hrest

end Account

/-! ## Schedules -/

namespace Command

variable {S α ρ : Type} [Producer S α]

theorem note_work (a : Account α) (c : Command α) (hc : c.move = .work) :
    a.note (.command c) = { a with credit := c.changes.foldl Demand.Change.apply a.credit } := by
  cases c with
  | subscribe h => exact absurd hc (by simp [move])
  | fetch n => rfl
  | request n => rfl
  | pause => rfl
  | resume => rfl
  | drive => rfl

theorem perform_agrees [OrderlyProducer S α] {a : Account α} {s : S}
    (h : a.Agrees (Producer.supply s)) (c : Command α)
    (hf : a.Fits (.command c :: (perform s c).2.map .event)) :
    (a.after (.command c :: (perform s c).2.map .event)).Agrees
        (Producer.supply (perform s c).1) ∧
      a.Covers (.command c :: (perform s c).2.map .event) := by
  rcases perform_cases s c with ⟨k, rfl⟩ | ⟨hc, t, ht, hp⟩
  · obtain ⟨ha, hcov⟩ := Account.after_of_no_items
      (a := a.note (.command (.subscribe k))) (Supply.items_subscribe (Producer.supply s) k)
    refine ⟨?_, .command _ hcov⟩
    show (Account.after (a.note (.command (.subscribe k))) _).Agrees _
    rw [show (perform s (.subscribe k)).2 = ((Producer.supply s).subscribe k).2 from rfl, ha]
    rw [show (perform s (.subscribe k)).1 = (Producer.subscribe s k).1 from rfl,
      OrderlyProducer.supply_subscribe]
    exact h.subscribe k
  · have hs : Producer.supply t = { Producer.supply s with
        demand := (Producer.supply s).demand.changes c.changes } := by
      rcases ht with ⟨rfl, hd⟩ | ⟨d, hd, rfl⟩
      · rw [hd]
      · rw [hd]
        exact OrderlyProducer.supply_changeDemand s d
    have ht : (a.note (.command c)).Agrees (Producer.supply t) := by
      rw [note_work a c hc, hs]
      exact ⟨Demand.word_changes h.demand _, h.subscriber, h.received, h.status⟩
    rcases hp with hp | hp <;> rw [hp] at hf ⊢
    · exact ⟨ht, .command c .nil⟩
    · obtain ⟨ha, hcov⟩ := ht.steps (OrderlyProducer.drive_steps t) hf.tail
      exact ⟨ha, .command c hcov⟩

theorem performAll_agrees [OrderlyProducer S α] {a : Account α} {s : S}
    (h : a.Agrees (Producer.supply s)) (cs : List (Command α)) (hf : a.Fits (history s cs)) :
    (a.after (history s cs)).Agrees (Producer.supply (performAll s cs).1) ∧
      a.Covers (history s cs) := by
  induction cs generalizing a s with
  | nil => exact ⟨h, .nil⟩
  | cons c cs ih =>
      rw [history] at hf ⊢
      obtain ⟨ha, hcov⟩ := perform_agrees h c hf.left
      obtain ⟨ha, hcov'⟩ := ih ha hf.right
      rw [Account.after_append]
      exact ⟨ha, .append hcov hcov'⟩

/-- A stream that keeps to the demand of its consumer, whatever is done with it,
as long as the credit fits a word.  `reading` is what it reads from. -/
structure KeepsToDemand (reading : S → ρ) (s : S) : Prop where
  /-- Each item comes out of some credit. -/
  covered : ∀ cs, ({} : Account α).Fits (history s cs) → ({} : Account α).Covers (history s cs)
  /-- The demand is the credit that is left. -/
  tracked : ∀ cs, ({} : Account α).Fits (history s cs) →
    (Producer.demand (performAll s cs).1).credit =
      (({} : Account α).after (history s cs)).credit
  /-- Without credit a drive hands nothing over and reads nothing. -/
  rests : ∀ cs, ({} : Account α).Fits (history s cs) →
    (({} : Account α).after (history s cs)).credit = 0 →
    Event.items (Producer.drive (performAll s cs).1).2 = [] ∧
      reading (Producer.drive (performAll s cs).1).1 = reading (performAll s cs).1

/-- A new stream keeps to the demand if it does not read without any. -/
theorem keepsToDemand [OrderlyProducer S α] {reading : S → ρ} {s : S}
    (fresh : Producer.supply s = {})
    (idle : ∀ t : S, (Producer.supply t).demand.credit = 0 →
      reading (Producer.drive t).1 = reading t) : KeepsToDemand reading s := by
  have hagrees : ({} : Account α).Agrees (Producer.supply s) := by
    rw [fresh]
    exact ⟨rfl, rfl, rfl, by simp⟩
  constructor
  · intro cs hf
    exact (performAll_agrees hagrees cs hf).2
  · intro cs hf
    exact Demand.credit_of_word (performAll_agrees hagrees cs hf).1.demand (hf _ List.prefix_rfl)
  · intro cs hf h0
    have hd := (performAll_agrees hagrees cs hf).1.demand
    have hz : (Producer.demand (performAll s cs).1).credit = 0 :=
      (Demand.credit_of_word hd (hf _ List.prefix_rfl)).trans h0
    exact ⟨(OrderlyProducer.drive_steps _).items_of_no_demand (Demand.credit_eq_zero.mp hz),
      idle _ hz⟩

end Command

end ExternalSort
