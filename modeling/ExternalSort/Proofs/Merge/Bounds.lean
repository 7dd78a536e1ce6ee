/-
How much a merge holds.

An intake asks for what it lacks, and asks again only when that has come or its
stream has ended.  So what it holds and what it still asks for never come to more
than what it is filled up to (`Intake.Within`), however its stream stops and goes
on.
-/
import Mathlib.Algebra.Order.BigOperators.Group.List
import Mathlib.Algebra.Order.Group.Nat
import ExternalSort.Proofs.Merge.Progress
import ExternalSort.Proofs.Stream.Balance

namespace ExternalSort

open Producer (Metered Passes)

/-! ## Intakes -/

namespace Intake

variable {S α : Type} [Producer S α] {s t : Intake S α} {n : Nat} {a : α}

/-- Nothing is left of what an intake has asked for, unless it waits for it or its
stream has ended. -/
def Settled (s : Intake S α) : Prop :=
  s.waiting = false → s.heard = none → (Producer.demand s.stream).amount = 0

theorem Settled.takeFirst (h : s.Settled) (ht : s.takeFirst = some (a, t)) : t.Settled := by
  obtain ⟨rest, -, rfl⟩ := takeFirst_eq_some.mp ht
  exact h

theorem Settled.ask (h : s.Settled) : (s.ask n).Settled := by
  rw [Intake.ask]
  split
  · exact fun hw => absurd hw (by simp)
  · exact h

theorem settled_updateWaiting (h : s.waiting = false → s.Settled) : s.updateWaiting.Settled := by
  intro hw he
  have he : s.heard = none := he
  cases hs : s.waiting with
  | false => exact h hs hs he
  | true =>
      have hdone : ¬0 < (Producer.demand s.stream).amount := by
        simpa [updateWaiting, hs, he, Demand.isPositive] using hw
      exact Nat.eq_zero_of_not_pos hdone

theorem settled_advance (hw : s.waiting = true) : s.advance.updateWaiting.Settled :=
  settled_updateWaiting fun hn => absurd (hn.symm.trans hw) (by simp)

theorem Settled.topUp (h : s.Settled) : (s.topUp n).Settled := by
  rw [Intake.topUp]
  split
  · next hw => exact settled_advance hw
  · exact settled_updateWaiting fun _ => h.ask

/-- An intake that is filled up to `n` items.  What it holds and what it asks for stay
within that, and if it waits for nothing it asks for nothing, unless its stream has
ended. -/
structure Within (n : Nat) (s : Intake S α) : Prop where
  limited : n < wordMax
  metered : Metered s.stream
  room : s.buffer.length + (Producer.demand s.stream).amount ≤ n
  settled : s.waiting = false → s.heard = none → (Producer.demand s.stream).amount = 0

theorem Within.takeFirst (h : s.Within n) (ht : s.takeFirst = some (a, t)) :
    t.Within n := by
  obtain ⟨rest, hb, rfl⟩ := takeFirst_eq_some.mp ht
  refine ⟨h.limited, h.metered, ?_, h.settled⟩
  have hroom := h.room
  rw [hb, List.length_cons] at hroom
  show rest.length + (Producer.demand s.stream).amount ≤ n
  omega

variable [OrderlyProducer S α]

theorem within_ofStream {stream : S} (hn : n < wordMax)
    (hd : (Producer.demand stream).amount = 0) : (ofStream stream).Within n := by
  obtain ⟨hm, hsame⟩ := Producer.metered_subscribe (i := stream) (by rw [hd]; decide)
  have hnone : (Producer.demand (ofStream stream).stream).amount = 0 :=
    (congrArg Demand.amount hsame).trans hd
  refine ⟨hn, hm, ?_, fun _ _ => hnone⟩
  have hbuffer : (ofStream stream).buffer = [] := Supply.items_subscribe _ _
  rw [hbuffer, hnone]
  exact Nat.zero_le n

/-- An intake asks for no more than it lacks, and for nothing while it waits. -/
theorem Within.ask (h : s.Within n) : (s.ask n).Within n := by
  rw [Intake.ask]
  split
  · next hc =>
    simp only [Bool.and_eq_true, Bool.not_eq_true', Option.isNone_iff_eq_none] at hc
    have hlt : n - s.buffer.length < wordMax := Nat.lt_of_le_of_lt (Nat.sub_le _ _) h.limited
    obtain ⟨hm, hd⟩ := h.metered.request (h.settled hc.1.1 hc.2) hlt
    refine ⟨h.limited, hm, ?_, fun hw => absurd hw (by simp)⟩
    have hroom := h.room
    show s.buffer.length + _ ≤ n
    rw [hd]
    omega
  · exact h

theorem Within.advance (h : s.Within n) (hw : s.waiting = true) :
    s.advance.updateWaiting.Within n := by
  obtain ⟨hm, hd⟩ := h.metered.drive
  refine ⟨h.limited, hm, ?_, settled_advance hw⟩
  have hroom := h.room
  show (s.buffer ++ Event.items (Producer.drive s.stream).2).length +
    (Producer.demand (Producer.drive s.stream).1).amount ≤ n
  rw [List.length_append]
  omega

theorem Within.topUp (h : s.Within n) : (s.topUp n).Within n := by
  have ha := h.ask
  rw [Intake.topUp]
  split
  · next hw => exact ha.advance hw
  · exact ⟨ha.limited, ha.metered, ha.room, settled_updateWaiting fun _ => ha.settled⟩

/-- At every point of a drive, what is held, what has come meanwhile and what is still
asked for stay within the target. -/
theorem Within.passes (h : s.Within n) {fs : List (Event α)} {o : Supply α}
    (hp : Passes (s.ask n).stream fs o) :
    s.buffer.length + (Event.items fs).length + o.demand.amount ≤ n := by
  have ha := h.ask
  have hbuffer : (s.ask n).buffer = s.buffer := by
    rw [Intake.ask]
    split <;> rfl
  have hb := ha.metered.passes hp
  have hroom := ha.room
  rw [hbuffer] at hroom
  omega

end Intake

/-! ## Merges -/

namespace Merge

variable {O α W : Type} [ItemOrder O α] [SpillStore W] {m : Merge O α} {w : W} {n : Nat}

theorem kept_within : Kept fun n (s : Intake (RunStream α) α) => s.Within n where
  refill hs := refill_keeps hs hs.topUp
  takeFirst ht hs := hs.takeFirst ht

/-- A merge that fills each of its intakes up to `n` items. -/
structure Within (n : Nat) (m : Merge O α) : Prop where
  limited : n < wordMax
  ahead_eq : m.ahead = n
  each : m.Each fun n s => s.Within n

section Within

variable (h : m.Within n)
include h

omit [ItemOrder O α] in
theorem Within.enters : m.Enters (fun n s => s.Within n) w :=
  ⟨h.each, fun _ hopen => openRuns_fresh
    (fun stream hs => Intake.within_ofStream (h.ahead_eq ▸ h.limited) (by
      show (Producer.supply stream).demand.amount = 0
      rw [hs]
      rfl)) hopen⟩

theorem Within.takesTurn {u : Merge O α × W} (hu : m.TakesTurn w u) : u.1.Within n := by
  obtain ⟨ha, he⟩ := h.enters.takesTurn kept_within hu
  exact ⟨h.limited, ha.trans h.ahead_eq, he⟩

theorem Within.drive (hm : m.InStep) : (m.drive w).1.1.Within n := by
  obtain ⟨ha, he⟩ := h.enters.drive (w := w) kept_within hm
  exact ⟨h.limited, ha.trans h.ahead_eq, he⟩

omit [ItemOrder O α] [SpillStore W] in
theorem Within.room {s : Intake (RunStream α) α} (hs : s ∈ m.intakes) :
    s.buffer.length + (Producer.demand s.stream).amount ≤ n := by
  have hw := h.each s hs
  rw [h.ahead_eq] at hw
  exact hw.room

omit [ItemOrder O α] [SpillStore W] in
theorem Within.held_le : m.held ≤ n * m.intakes.length := by
  have hle := List.sum_le_card_nsmul (m.intakes.map (·.buffer.length)) n
    (List.forall_mem_map.mpr fun _ hs => Nat.le_trans (Nat.le_add_right ..) (h.room hs))
  rwa [List.length_map, Nat.nsmul_eq_mul, Nat.mul_comm] at hle

end Within

end Merge

end ExternalSort
