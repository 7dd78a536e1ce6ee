/-
A merge deals with its supply in order.

Whatever a turn does, items are handed over when they may be, and the merge
ends by ending its supply (`turn_steps`).  The phase of a merge is a final
one exactly when its supply is not open any more (`InStep`), so a merge that
has ended does nothing.
-/
import ExternalSort.Proofs.Merge.Decisions

namespace ExternalSort.Merge

variable {O α W : Type} [ItemOrder O α] [SpillStore W] {m : Merge O α} {w : W}

omit [ItemOrder O α] in
theorem conclude_steps (m : Merge O α) (w : W) (phase : MergePhase) (e : Ending) :
    Supply.Steps m.supply (Heard.events (m.conclude w phase e).events)
      (m.conclude w phase e).state.1.supply := by
  rw [conclude, closeAll]
  dsimp only
  rw [Heard.events_ofEvents]
  exact .one_finish _ e

theorem turn_steps (s : Merge O α × W) :
    Supply.Steps s.1.supply (Heard.events (turn s).events) (turn s).state.1.supply := by
  obtain ⟨m, w⟩ := s
  obtain ⟨d, hd, ht⟩ := turn_decides (W := W) m
  rw [ht w]
  cases hd with
  | rest h =>
      rw [← h.supply_eq]
      exact .refl _
  | conclude h =>
      rw [← h.supply_eq]
      exact conclude_steps _ w _ _
  | send h hc =>
      rw [← h.supply_eq] at hc ⊢
      rw [Decision.carryOut, Heard.events_ofEvents]
      exact .one_send hc _

theorem run_steps (m : Merge O α) (w : W) :
    Supply.Steps m.supply (Heard.events (m.run w).2) (m.run w).1.1.supply := by
  refine Turn.iterate_trace
    (R := fun s es t => Supply.Steps s.1.supply (Heard.events es) t.1.supply)
    (fun _ => .refl _) ?_ turn_steps (m, w)
  intro s t u es fs h k
  rw [Heard.events_append]
  exact h.trans k

/-! ## Drives -/

theorem drive_of_final (h : m.phase.isFinal = true) : m.drive w = ((m, w), []) := by
  rw [drive, if_pos h]

theorem drive_of_idle (h : m.phase = .idle) : m.drive w =
    match openRuns m.decode m.chunk w m.runs with
    | (.error f, w) => ((m.failWith w (.io f)).state, (m.failWith w (.io f)).events)
    | (.ok intakes, w) => run { m with runs := [], intakes := m.intakes ++ intakes } w := by
  have hf : ¬m.phase.isFinal = true := by simp [h, MergePhase.isFinal]
  exact (if_neg hf).trans (if_pos h)

theorem drive_of_working (h : m.phase.isFinal = false) (hi : m.phase ≠ .idle) :
    m.drive w = m.run w := by
  rw [drive, if_neg (by simp [h]), if_neg hi]

theorem drive_steps (m : Merge O α) (w : W) :
    Supply.Steps m.supply (Heard.events (m.drive w).2) (m.drive w).1.1.supply := by
  rw [drive]
  split
  · exact .refl _
  split
  · split
    · next f w' _ => exact conclude_steps m w' _ _
    · next intakes w' _ => exact run_steps { m with runs := [], intakes := m.intakes ++ intakes } w'
  · exact run_steps m w

instance : OrderlyProducer (Merge O α × W) α where
  supply_changeDemand _ _ := rfl
  supply_subscribe _ _ := rfl
  drive_steps s := drive_steps s.1 s.2

/-! ## Phases -/

omit [ItemOrder O α] in
theorem conclude_inStep {m : Merge O α} {w : W} {phase : MergePhase} {e : Ending}
    (hp : phase.isFinal = true) : InStep (m.conclude w phase e).state.1 where
  phase := by
    show phase.isFinal = !(m.supply.finish e).1.isOpen
    rw [hp, Supply.finish_isOpen]
    rfl
  released _ := ⟨rfl, rfl, rfl⟩

theorem turn_inStep (s : Merge O α × W) (h : InStep s.1) : InStep (turn s).state.1 := by
  obtain ⟨m, w⟩ := s
  obtain ⟨d, hd, ht⟩ := turn_decides (W := W) m
  rw [ht w]
  cases hd with
  | rest hg => exact hg.inStep h
  | conclude hg hp => exact conclude_inStep hp
  | send hg hc hp =>
      rw [← hg.supply_eq] at hc
      have ho := (Supply.canSend_iff.mp hc).1
      exact inStep_of_open hp (Supply.isOpen_iff.mpr ((Supply.send_status _ _).trans ho))

theorem run_inStep (h : InStep m) : InStep (m.run w).1.1 :=
  Turn.iterate_induction (fun s _ => InStep s.1) (fun s _ hs => turn_inStep s hs) (m, w) h

theorem drive_inStep (h : InStep m) : InStep (m.drive w).1.1 := by
  cases hf : m.phase.isFinal with
  | true =>
      rw [drive_of_final hf]
      exact h
  | false =>
      have ho : m.supply.isOpen = true := by simpa [hf] using h.phase
      by_cases hi : m.phase = .idle
      · rw [drive_of_idle hi]
        split
        · exact conclude_inStep rfl
        · exact run_inStep (inStep_of_open hf ho)
      · rw [drive_of_working hf hi]
        exact run_inStep h

theorem drive_of_not_open (h : InStep m) (ho : m.supply.isOpen = false) :
    m.drive w = ((m, w), []) := by
  refine drive_of_final ?_
  rw [h.phase, ho]
  rfl

/-! ## Ending once -/

theorem turn_again : Turn.StopsWhenOver turn fun s : Merge O α × W => s.1.supply := by
  intro s
  obtain ⟨m, w⟩ := s
  obtain ⟨d, hd, ht⟩ := turn_decides (W := W) m
  rw [ht w]
  intro h
  cases hd with
  | rest hg => exact absurd h (by simp [Decision.carryOut])
  | conclude hg hp => exact absurd h (by simp [Decision.carryOut])
  | send hg hc hp =>
      rw [← hg.supply_eq] at hc
      have ho := (Supply.canSend_iff.mp hc).1
      exact Supply.isOpen_iff.mpr ((Supply.send_status _ _).trans ho)

/-- What a merge works on: everything but its supply. -/
def work (s : Merge O α × W) : Merge O α × W := ({ s.1 with supply := {} }, s.2)

theorem lawful : (Command.conduct (work (O := O) (α := α) (W := W))).Lawful fun s => InStep s.1 := by
  refine Command.lawful ?_ (fun s h => drive_inStep h) (fun _ _ => rfl) ?_
  · intro s o h ho
    exact ⟨h.phase.trans (congrArg _ ho.symm), h.released⟩
  · intro s h ho
    show work (drive s.1 s.2).1 = work s
    rw [drive_of_not_open h ho]

end ExternalSort.Merge
