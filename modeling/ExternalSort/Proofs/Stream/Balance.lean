/-
What is handed over and what is still asked for.

Whoever takes items without touching the demand gets one for each that is no
longer asked for.  So at every point of a drive the items handed over so far and
the demand that is left make up the demand at its beginning
(`Producer.Metered.passes`).
-/
import ExternalSort.Proofs.Stream.Commands

namespace ExternalSort

variable {S α : Type} {n : Nat}

namespace Supply

variable {o o' : Supply α} {es : List (Event α)}

theorem Steps.open_of_open (h : Steps o es o') (ho : o'.status = .open) : o.status = .open := by
  cases hop : o.isOpen with
  | true => exact isOpen_iff.mp hop
  | false =>
      obtain ⟨-, rfl⟩ := h.of_not_open hop
      exact ho

theorem Steps.sent_eq (h : Steps o es o') : o'.sent = o.sent + (Event.items es).length := by
  induction h with
  | refl o => rfl
  | @send o o' es a hc _ ih =>
      have hone : (o.send a).1.sent = o.sent + 1 := by
        obtain ⟨-, hs, -⟩ := canSend_iff.mp hc
        obtain ⟨k, hk⟩ := Option.isSome_iff_exists.mp hs
        rw [Supply.send, hk]
      rw [ih, hone, send_events hc, Event.items_append, Event.items_item, List.length_append,
        List.length_singleton, Nat.add_assoc]
  | @finish o o' es e _ ih =>
      have hsame : (o.finish e).1.sent = o.sent := by
        rcases finish_fst o e with heq | heq <;> rw [heq]
      rw [ih, hsame, Event.items_append, items_finish, List.nil_append]

theorem Moved.sent_eq {m : Move α} (h : o.Moved m es o') (hm : m ≠ .close) :
    o'.sent = o.sent + (Event.items es).length := by
  cases m with
  | subscribe k =>
      have hitems := h.items_subscribe
      obtain rfl : (o.subscribe k).1 = o' := congrArg Prod.fst h
      rw [hitems, Supply.subscribe]
      split <;> rfl
  | work =>
      obtain ⟨d, hsteps⟩ := h
      exact hsteps.sent_eq
  | close => exact absurd rfl hm

/-- Each item takes one off a demand that has a limit, if its taker leaves the demand
alone. -/
theorem Steps.balance (h : Steps o es o') (hs : o.status = .open → o.subscriber = some {})
    (hd : o.demand.amount < wordMax) :
    (Event.items es).length + o'.demand.amount = o.demand.amount := by
  induction h with
  | refl o => exact Nat.zero_add _
  | @send o o' es a hc _ ih =>
      obtain ⟨ho, -, hp⟩ := canSend_iff.mp hc
      have hpos : 0 < o.demand.amount := of_decide_eq_true hp
      have hsent : (o.send a).1.demand.amount = o.demand.amount - 1 := by
        have hlim : o.demand.isUnlimited = false := beq_eq_false_iff_ne.mpr (Nat.ne_of_lt hd)
        rw [Supply.send]
        simp [hs ho, Demand.changes, Demand.consume, hlim]
      have hrest := ih (fun _ => (send_subscriber o a).trans (hs ho)) (by omega)
      rw [send_events hc, Event.items_append, Event.items_item, List.length_append,
        List.length_singleton]
      omega
  | @finish o o' es e hsteps _ =>
      -- An ending is no item, and nothing comes after it.
      obtain ⟨rfl, rfl⟩ := hsteps.of_not_open (finish_isOpen o e)
      have hdemand : (o.finish e).1.demand = o.demand := by
        rcases finish_fst o e with heq | heq <;> rw [heq]
      rw [Event.items_append, items_finish, hdemand]
      exact Nat.zero_add _

theorem length_finish (o : Supply α) (e : Ending) : (o.finish e).2.length ≤ 1 := by
  cases ho : o.isOpen with
  | false => simp [finish_of_not_open ho]
  | true =>
      rw [(finish_of_open (isOpen_iff.mp ho) e).2]
      rcases heardBy_cases o.subscriber e with h | h <;> simp [h]

/-- Steps can be taken up to any of their events, and then the others. -/
theorem Steps.split {fs gs : List (Event α)} (h : Steps o es o') (he : es = fs ++ gs) :
    ∃ p, Steps o fs p ∧ Steps p gs o' := by
  induction h generalizing fs with
  | refl o =>
      obtain ⟨rfl, rfl⟩ := List.append_eq_nil_iff.mp he.symm
      exact ⟨o, .refl o, .refl o⟩
  | @send o o' es a hc hsteps ih =>
      cases fs with
      | nil =>
          rw [List.nil_append] at he
          exact ⟨o, .refl o, he ▸ .send a hc hsteps⟩
      | cons e fs =>
          rw [send_events hc, List.singleton_append, List.cons_append] at he
          obtain ⟨rfl, hrest⟩ := List.cons.inj he
          obtain ⟨p, hfs, hgs⟩ := ih hrest
          refine ⟨p, ?_, hgs⟩
          rw [← List.singleton_append, ← send_events hc a]
          exact .send a hc hfs
  | @finish o o' es e hsteps _ =>
      obtain ⟨rfl, rfl⟩ := hsteps.of_not_open (finish_isOpen o e)
      rw [List.append_nil] at he
      have hone : Steps o (fs ++ gs) (o.finish e).1 := he ▸ .one_finish o e
      have hlen := length_finish o e
      rw [he, List.length_append] at hlen
      cases fs with
      | nil => exact ⟨o, .refl o, hone⟩
      | cons x fs =>
          obtain rfl : gs = [] := List.length_eq_zero_iff.mp (by simp at hlen; omega)
          rw [List.append_nil] at hone
          exact ⟨_, hone, .refl _⟩

end Supply

namespace Producer

variable [Producer S α]

/-- In a drive of the stream `i`, when the events `fs` are out, its supply is `o`. -/
def Passes (i : S) (fs : List (Event α)) (o : Supply α) : Prop :=
  ∃ gs, (drive i).2 = fs ++ gs ∧ Supply.Steps (supply i) fs o ∧
    Supply.Steps o gs (supply (drive i).1)

/-- A stream of which a limited number of items is asked.  Who hears them, if it
still goes on, leaves the demand alone. -/
structure Metered (i : S) : Prop where
  listener : (supply i).status = .open → (supply i).subscriber = some {}
  limited : (demand i).amount < wordMax

variable {i : S}

theorem Metered.passes (h : Metered i) {fs : List (Event α)} {o : Supply α} (hp : Passes i fs o) :
    (Event.items fs).length + o.demand.amount = (demand i).amount := by
  obtain ⟨gs, -, hsteps, -⟩ := hp
  exact hsteps.balance h.listener h.limited

variable [OrderlyProducer S α]

theorem exists_passes {fs gs : List (Event α)} (h : (drive i).2 = fs ++ gs) :
    ∃ o, Passes i fs o := by
  obtain ⟨o, hfs, hgs⟩ := (OrderlyProducer.drive_steps i).split h
  exact ⟨o, gs, h, hfs, hgs⟩

theorem Metered.drive (h : Metered i) : Metered (Producer.drive i).1 ∧
    (Event.items (Producer.drive i).2).length + (demand (Producer.drive i).1).amount =
      (demand i).amount := by
  have hsteps := OrderlyProducer.drive_steps i
  have hb := hsteps.balance h.listener h.limited
  refine ⟨⟨fun ho => ?_, ?_⟩, hb⟩
  · exact hsteps.subscriber_eq.trans (h.listener (hsteps.open_of_open ho))
  · exact Nat.lt_of_le_of_lt (Nat.le.intro ((Nat.add_comm _ _).trans hb)) h.limited

/-- Who asks for something when nothing is asked for asks for just that. -/
theorem Metered.request (h : Metered i) (hd : (demand i).amount = 0) (hn : n < wordMax) :
    Metered (Producer.request i n) ∧ (demand (Producer.request i n)).amount = n := by
  have hs := OrderlyProducer.supply_changeDemand i (.request n)
  have hamount : (demand (Producer.request i n)).amount = n := by
    show (supply (changeDemand i (.request n))).demand.amount = n
    rw [hs]
    show min ((demand i).amount + n) wordMax = n
    omega
  refine ⟨⟨fun ho => ?_, by rwa [hamount]⟩, hamount⟩
  have hopen : (supply i).status = .open := (congrArg Supply.status hs).symm.trans ho
  exact (congrArg Supply.subscriber hs).trans (h.listener hopen)

theorem metered_subscribe (hd : (demand i).amount < wordMax) :
    Metered (subscribe i ({} : Subscriber α)).1 ∧
      demand (subscribe i ({} : Subscriber α)).1 = demand i := by
  have hs := OrderlyProducer.supply_subscribe i ({} : Subscriber α)
  have hdemand : ((supply i).subscribe {}).1.demand = (supply i).demand := by
    rw [Supply.subscribe]
    split <;> rfl
  have hsame : demand (subscribe i ({} : Subscriber α)).1 = demand i :=
    (congrArg Supply.demand hs).trans hdemand
  refine ⟨⟨fun ho => ?_, by rwa [hsame]⟩, hsame⟩
  rw [hs] at ho ⊢
  have hopen : (supply i).status = .open :=
    Supply.isOpen_iff.mp ((Supply.isOpen_subscribe (supply i) {}).symm.trans
      (Supply.isOpen_iff.mpr ho))
  exact (Supply.subscribe_of_open hopen {}).1

end Producer

end ExternalSort
