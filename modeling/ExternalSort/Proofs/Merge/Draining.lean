/-
Who drains a merge is handed the rest of it.

A drive after which a merge may still send something has met a source that was
not ready, and the sources of the intakes say so only so often (`turn_delays`).
The first drive opens the runs, with all that their sources are still to say, so it
counts for more than any later one (`remaining`).
-/
import Mathlib.Data.Prod.Lex
import ExternalSort.Proofs.Merge.Progress
import ExternalSort.Proofs.Stream.Draining

namespace ExternalSort.Merge

open DiligentProducer (refusals)

/-! ## How often intakes are still to wait -/

section Intakes

variable {S α : Type} [FiniteProducer S α] [DiligentProducer S α] {ss ts : List (Intake S α)}
  {target : Nat} {a : α}

/-- How often the sources of some intakes are still to say that they are not
ready. -/
def delays (ss : List (Intake S α)) : Nat := total (fun s => refusals s.stream) ss

theorem delays_retire (ss : List (Intake S α)) : delays (retire ss) ≤ delays ss :=
  total_retire_le _ ss

theorem delays_refill (target : Nat) (ss : List (Intake S α)) :
    delays (ss.map (refill target)) ≤ delays ss := by
  induction ss with
  | nil => exact Nat.le_refl 0
  | cons s ss ih => exact Nat.add_le_add (refusals_refill target s) ih

theorem delays_refill_lt {s : Intake S α} (hs : s ∈ ss)
    (h : refusals (refill target s).stream < refusals s.stream) :
    delays (ss.map (refill target)) < delays ss := by
  obtain ⟨before, after, rfl⟩ := List.append_of_mem hs
  have hb := delays_refill target before
  have ha := delays_refill target after
  simp only [delays, total, List.map_append, List.map_cons, List.sum_append, List.sum_cons] at *
  omega

theorem delays_takeLeast {cmp : α → α → Except OrderError Ordering}
    (h : takeLeast cmp ss = .ok (some (a, ts))) : delays ts = delays ss :=
  total_takeLeast (fun _ _ => rfl) h

end Intakes

variable {O α W : Type} [ItemOrder O α] [SpillStore W] {m : Merge O α} {w : W}

/-! ## Turns -/

/-- A turn brings no refusals back, and one that is refused brings their number
down. -/
theorem turn_delays (m : Merge O α) (w : W) :
    delays (turn (m, w)).state.1.intakes ≤ delays m.intakes ∧
      (m.IsRefused → delays (turn (m, w)).state.1.intakes < delays m.intakes) := by
  have hretire := delays_retire m.intakes
  have hrefill := delays_refill m.ahead (retire m.intakes)
  have hrefused : m.IsRefused →
      delays ((retire m.intakes).map (refill m.ahead)) < delays m.intakes := by
    rintro ⟨-, -, -, -, s, hs, hlt⟩
    exact Nat.lt_of_lt_of_le (delays_refill_lt hs hlt) hretire
  have ht := turn_turns m w
  generalize turn (m, w) = t at ht
  cases ht with
  | ends n phase e =>
      refine ⟨Nat.zero_le _, ?_⟩
      intro hr
      exact Nat.lt_of_le_of_lt (Nat.zero_le _) (hrefused hr)
  | unasked hc => exact ⟨hretire, fun hr => absurd (hr.1.symm.trans hc) (by simp)⟩
  | waits hc hr =>
      obtain ⟨rfl, -, -⟩ := refillAll_eq hr
      exact ⟨Nat.le_trans hrefill hretire, hrefused⟩
  | noWinner hr =>
      obtain ⟨rfl, -, -⟩ := refillAll_eq hr
      have hleft := delays_retire ((retire m.intakes).map (refill m.ahead))
      exact ⟨Nat.le_trans hleft (Nat.le_trans hrefill hretire),
        fun h => Nat.lt_of_le_of_lt hleft (hrefused h)⟩
  | sends hc hr ht =>
      obtain ⟨rfl, -, -⟩ := refillAll_eq hr
      have hleft := delays_retire ((retire m.intakes).map (refill m.ahead))
      rw [← delays_takeLeast ht] at hleft
      exact ⟨Nat.le_trans hleft (Nat.le_trans hrefill hretire),
        fun h => Nat.lt_of_le_of_lt hleft (hrefused h)⟩

theorem Attentive.waits (h : m.Attentive) (hl : (Merge.turn (m, w)).again = false)
    (hc : (Merge.turn (m, w)).state.1.supply.canSend = true) :
    (Merge.turn (m, w)).state.1.phase = .waiting ∧ m.IsRefused := by
  refine ⟨?_, (h.stops hl).resolve_left (by simp [hc])⟩
  have ht := turn_turns m w
  generalize Merge.turn (m, w) = t at ht hl hc
  cases ht with
  | ends n phase e => exact absurd (hc.symm.trans (Supply.canSend_finish _ _)) (by simp)
  | unasked hn => exact absurd (hc.symm.trans hn) (by simp)
  | waits => rfl
  | noWinner => rfl
  | sends => exact absurd hl (by simp)

/-! ## Drives -/

/-- How far a merge is from its end: whether its runs are still to be opened, and how
often the sources of its intakes are still to say that they are not ready. -/
def remaining (m : Merge O α) : ℕ ×ₗ ℕ := toLex (if m.phase = .idle then 1 else 0, delays m.intakes)

omit [ItemOrder O α] in
theorem remaining_lt (m : Merge O α) (n : Nat) : m.remaining < toLex (n + 2, 0) := by
  rw [remaining, Prod.Lex.toLex_lt_toLex]
  refine .inl ?_
  dsimp only
  split <;> omega

/-- A drive after which something may still be sent has brought the merge nearer to
its end. -/
theorem Attentive.drive_remaining (h : m.Attentive) (hm : m.InStep)
    (hc : (m.drive w).1.1.supply.canSend = true) :
    (m.drive w).1.1.remaining < m.remaining := by
  rcases drive_cases hm w with ⟨e, he, hd⟩ | ⟨-, ho, -⟩
  · obtain ⟨u, hu, hlast, hr⟩ := run_takes e.1 e.2
    rw [hd, hr] at hc ⊢
    obtain ⟨hwait, hrefused⟩ := (h.takesTurn ⟨e, he, hu⟩).waits hlast hc
    have hle : delays u.1.intakes ≤ delays e.1.intakes :=
      hu.keeps (P := fun u => delays u.1.intakes ≤ delays e.1.intakes)
        (fun u hu _ => Nat.le_trans (turn_delays u.1 u.2).1 hu) (Nat.le_refl _)
    have hlt := Nat.lt_of_lt_of_le ((turn_delays u.1 u.2).2 hrefused) hle
    rw [remaining, remaining, Prod.Lex.toLex_lt_toLex, hwait]
    by_cases hi : m.phase = .idle
    · exact .inl (by simp [hi])
    · obtain rfl : (m, w) = e := by
        rw [entry, if_neg hi] at he
        split at he
        · exact absurd he (by simp)
        · exact Option.some.inj he
      exact .inr ⟨by simp [hi], hlt⟩
  · rw [Supply.canSend_of_not_open ho] at hc
    exact absurd hc (by simp)

/-! ## Schedules -/

/-- A merge whose phase fits its supply, of intakes that wait for nothing else than
their sources. -/
structure AtWork (m : Merge O α) : Prop where
  inStep : m.InStep
  attentive : m.Attentive

omit [ItemOrder O α] in
theorem AtWork.withSupply (h : m.AtWork) {o : Supply α} (ho : o.isOpen = m.supply.isOpen) :
    AtWork { m with supply := o } where
  inStep := ⟨h.inStep.phase.trans (congrArg _ ho.symm), h.inStep.released⟩
  attentive := ⟨h.attentive.ahead_pos, h.attentive.engaged⟩

theorem AtWork.drive (h : m.AtWork) (w : W) : (m.drive w).1.1.AtWork where
  inStep := drive_inStep h.inStep
  attentive := (h.attentive.drive_progress h.inStep).1

theorem performAll_atWork {s : Merge O α × W} (h : s.1.AtWork) (cs : List (Command α)) :
    (Command.performAll s cs).1.1.AtWork := by
  refine Command.performAll_induction (P := fun (s : Merge O α × W) _ => s.1.AtWork) ?_ ?_ ?_ h cs
  · intro s k _ h
    exact h.withSupply (Supply.isOpen_subscribe s.1.supply k)
  · intro s d _ h
    exact h.withSupply rfl
  · intro s _ h
    exact h.drive s.2

omit [ItemOrder O α] in
theorem ofRuns_atWork (order : O) (decode : List UInt8 → Except Cause α) (runs : List (Run α))
    (ahead chunk : Nat) : (((ofRuns order decode runs).withAhead ahead).withChunk chunk).AtWork where
  inStep := inStep_of_open rfl rfl
  attentive :=
    { ahead_pos := Nat.lt_of_lt_of_le Nat.zero_lt_one (Nat.le_max_right _ _)
      engaged := fun _ hs => absurd hs List.not_mem_nil }

/-- Who drains a merge is handed the rest of the greedy merge of what its runs hold,
or the error by which the merge ends. -/
theorem drainsRest (order : O) (decode : List UInt8 → Except Cause α) (runs : List (Run α))
    (ahead chunk : Nat) (w : W) :
    Command.DrainsRest (((ofRuns order decode runs).withAhead ahead).withChunk chunk, w)
      fun out e => ∃ phase, Outcome order (courses decode w runs) out phase e := by
  refine Command.drainsRest (fun s => s.1.remaining) ?_ ?_
  · intro cs t hc
    have h : t.1.AtWork := performAll_atWork (ofRuns_atWork order decode runs ahead chunk) cs
    exact h.attentive.drive_remaining h.inStep hc
  · intro cs e he
    let m := ((ofRuns order decode runs).withAhead ahead).withChunk chunk
    have h : Tracks order (courses decode w runs) [] m w :=
      .fresh rfl (ofRuns_fresh order decode runs ahead chunk w)
    exact ⟨_, (h.performAll (s := (m, w)) cs).outcome he⟩

end ExternalSort.Merge
