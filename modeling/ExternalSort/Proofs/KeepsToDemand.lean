/-
Every stream keeps to the demand of its consumer.

A process that is asked for nothing takes no turn but the one that finds this
out, and in that turn it reads nothing (`Turn.RestsUnasked`).  As the demand is
looked at in every turn, this holds in the middle of a drive as well, when a
consumer has just taken back what it asked for.  So no drive without credit
reads anything, and the rest holds of every stream that deals with its supply
in order.
-/
import ExternalSort.Proofs.Frame.Course
import ExternalSort.Proofs.Sorter.Actions
import ExternalSort.Proofs.Stream.Credit
import ExternalSort.Proofs.Table.Rows
import ExternalSort.Proofs.EndsOnce
import ExternalSort.Store.Planned

namespace ExternalSort

/-! ## Turns without credit -/

theorem Supply.canSend_of_no_credit {α : Type} {o : Supply α} (h : o.demand.credit = 0) :
    o.canSend = false := by
  rw [canSend, Demand.credit_eq_zero.mp h, Bool.and_false]

/-- Without credit, the turn of a process is its last, hands nothing over and
reads nothing. -/
def Turn.RestsUnasked {σ ε α ρ : Type} (turn : σ → Turn σ ε) (event : ε → Event α)
    (supply : σ → Supply α) (reading : σ → ρ) : Prop :=
  ∀ s, (supply s).demand.credit = 0 →
    (turn s).again = false ∧ Event.items ((turn s).events.map event) = [] ∧
      reading (turn s).state = reading s

namespace Turn

variable {σ ε α ρ : Type} {turn : σ → Turn σ ε} {event : ε → Event α} {supply : σ → Supply α}
  {reading : σ → ρ}

theorem restsUnasked_of_rest (h : ∀ s, (supply s).canSend = false → turn s = .rest s) :
    RestsUnasked turn event supply reading := by
  intro s hs
  rw [h s (Supply.canSend_of_no_credit hs)]
  exact ⟨rfl, rfl, rfl⟩

/-- What a process does not read in a turn without credit, it does not read at
all. -/
theorem RestsUnasked.iterate (h : RestsUnasked turn event supply reading) {size : σ → Nat}
    {shrinks : ∀ s, (turn s).again = true → size (turn s).state < size s} {s : σ}
    (hs : (supply s).demand.credit = 0) :
    reading (Turn.iterate turn size shrinks s).1 = reading s := by
  obtain ⟨ha, -, hr⟩ := h s hs
  rw [iterate_of_last ha]
  exact hr

end Turn

/-! ## Streams over a source -/

theorem ListStream.turn_of_no_credit {α : Type} {s : ListStream α}
    (h : s.supply.demand.credit = 0) : ∃ o es, turn s = { state := ⟨s.items, o⟩, events := es } := by
  rw [turn]
  split
  · exact ⟨_, _, rfl⟩
  · split
    · exact ⟨_, _, rfl⟩
    · rw [if_pos (by simp [Supply.canSend_of_no_credit h])]
      exact ⟨_, _, rfl⟩

theorem ListStream.turn_unasked {α : Type} :
    Turn.RestsUnasked turn id supply (items (α := α)) := by
  intro s hs
  obtain ⟨o, es, ht⟩ := turn_of_no_credit hs
  refine ⟨by rw [ht], ?_, by rw [ht]⟩
  rw [List.map_id]
  exact (turn_steps s).items_of_no_demand (Demand.credit_eq_zero.mp hs)

theorem FrameStream.turn_unasked {α : Type} :
    Turn.RestsUnasked turn id supply (work (α := α)) := by
  refine Turn.restsUnasked_of_rest ?_
  intro r hc
  rw [turn, if_pos (by simp [hc])]

theorem Table.RowStream.turn_unasked : Turn.RestsUnasked turn id supply work := by
  refine Turn.restsUnasked_of_rest ?_
  intro r hc
  rw [turn, if_pos (by simp [hc])]

/-! ## Merges -/

namespace Merge

variable {O α W : Type} [ItemOrder O α] [SpillStore W] {m : Merge O α} {w : W}

/-- The intakes that a merge has still to take something from. -/
def live (s : Merge O α × W) : List (Intake (RunStream α) α) := retire s.1.intakes

/-- The intakes that a merge has still to take something from when its runs are
opened, each as it is opened. -/
def sources (s : Merge O α × W) : List (Intake (RunStream α) α) :=
  if s.1.phase = .idle then
    match (openRuns s.1.decode s.1.chunk s.2 s.1.runs).1 with
    | .ok opened => retire (s.1.intakes ++ opened)
    | .error _ => []
  else live s

omit [ItemOrder O α] [SpillStore W] in
theorem retire_retire (ss : List (Intake (RunStream α) α)) : retire (retire ss) = retire ss := by
  simp [retire, List.filter_filter]

/-- Without credit a merge lets go of the intakes that are spent, and it ends
if no other is left. -/
theorem turn_of_no_credit (h : m.supply.demand.credit = 0) :
    live (m, w) = [] ∧ turn (m, w) = conclude { m with intakes := [] } w .ended .ended ∨
      turn (m, w) = .rest ({ m with intakes := live (m, w) }, w) := by
  by_cases he : live (m, w) = []
  · refine .inl ⟨he, ?_⟩
    rw [← he]
    exact if_pos (List.isEmpty_iff.mpr he)
  · refine .inr ((if_neg (mt List.isEmpty_iff.mp he)).trans ?_)
    exact if_pos (by simp [Supply.canSend_of_no_credit h])

theorem turn_unasked :
    Turn.RestsUnasked turn Heard.event (fun s : Merge O α × W => s.1.supply) live := by
  rintro ⟨m, w⟩ h
  refine ⟨?_, (turn_steps (m, w)).items_of_no_demand (Demand.credit_eq_zero.mp h), ?_⟩
  · rcases turn_of_no_credit (w := w) h with ⟨-, ht⟩ | ht
    · rw [ht, conclude_again]
    · rw [ht, Turn.rest_again]
  · rcases turn_of_no_credit (w := w) h with ⟨hl, ht⟩ | ht
    · rw [ht, hl]
      rfl
    · rw [ht]
      exact retire_retire m.intakes

omit [ItemOrder O α] in
theorem sources_of_opened (h : m.phase = .idle → m.runs = []) : sources (m, w) = live (m, w) := by
  rw [sources]
  split
  · next hi => simp [h hi, openRuns, live]
  · rfl

theorem run_unasked (h : m.supply.demand.credit = 0) (hr : m.phase = .idle → m.runs = []) :
    sources (m.run w).1 = live (m, w) := by
  obtain ⟨ha, -, hl⟩ := turn_unasked (m, w) h
  have hs : (m.run w).1 = (turn (m, w)).state := congrArg Prod.fst (Turn.iterate_of_last ha)
  rw [hs, ← hl]
  refine sources_of_opened ?_
  rcases turn_of_no_credit (w := w) h with ⟨-, ht⟩ | ht
  · intro _
    rw [ht]
    rfl
  · rw [ht]
    exact hr

theorem drive_unasked (h : m.supply.demand.credit = 0) :
    sources (m.drive w).1 = sources (m, w) := by
  cases hf : m.phase.isFinal with
  | true => rw [drive_of_final hf]
  | false =>
      by_cases hi : m.phase = .idle
      · have hr : sources (m, w) = match (openRuns m.decode m.chunk w m.runs).1 with
            | .ok opened => retire (m.intakes ++ opened)
            | .error _ => [] := if_pos hi
        rw [drive_of_idle hi, hr]
        obtain ⟨r, w'⟩ := openRuns m.decode m.chunk w m.runs
        cases r with
        | error f => rfl
        | ok opened =>
            refine run_unasked (m := { m with runs := [], intakes := m.intakes ++ opened }) h ?_
            intro _
            rfl
      · have hr : m.phase = .idle → m.runs = [] := by
          intro k
          exact absurd k hi
        rw [drive_of_working hf hi, run_unasked h hr, sources_of_opened hr]

end Merge

/-! ## Sorts -/

namespace Sorter

variable {S O α W : Type} [FiniteProducer S α] [ItemOrder O α] [SpillStore W]

/-- What a sort reads from: its input, and the intakes of its merge. -/
def sources (t : Sorter S O α × W) : S × List (Intake (RunStream α) α) :=
  (t.1.input, match t.1.stage with
    | .merging m => Merge.sources (m, t.2)
    | .collecting .. | .failed _ | .closed _ => [])

theorem turn_unasked :
    Turn.RestsUnasked turn Heard.event (fun t : Sorter S O α × W => t.1.supply) sources :=
  Turn.restsUnasked_of_rest turn_of_not_canSend

theorem drive_unasked {s : Sorter S O α} {w : W} (h : s.supply.demand.credit = 0) :
    sources (s.drive w).1 = sources (s, w) := by
  obtain ⟨settings, codec, input, stage, itemsRead, files, runs⟩ := s
  cases stage with
  | collecting heard b o => exact turn_unasked.iterate h
  | merging m => exact congrArg (Prod.mk input) (Merge.drive_unasked h)
  | failed o => rfl
  | closed d => rfl

end Sorter

/-! ## Every stream -/

/-- Each kind of stream keeps to the demand of its consumer, whatever is done
with it and in whichever order, as long as no finite credit grows to the largest
word: an item comes only out of credit, of which it takes one before its consumer
reacts; the demand is the credit that is left, for a sort from the reading of
its input to the end of its merge; and without credit, also in the middle of a
drive, nothing is handed over and nothing is read. -/
theorem streams_keep_to_demand :
    (∀ α : Type,
      Turn.RestsUnasked ListStream.turn id ListStream.supply (ListStream.items (α := α)) ∧
      ∀ items : List α, Command.KeepsToDemand ListStream.items (.ofList items)) ∧
    (∀ α : Type,
      Turn.RestsUnasked FrameStream.turn id FrameStream.supply (FrameStream.work (α := α)) ∧
      ∀ (source : Source) (decode : List UInt8 → Except Cause α) (chunk : Nat),
        Command.KeepsToDemand FrameStream.work (.ofSource source decode chunk)) ∧
    (Turn.RestsUnasked Table.RowStream.turn id Table.RowStream.supply Table.RowStream.work ∧
      ∀ (source : Source) (columns : List String),
        Command.KeepsToDemand Table.RowStream.work { source, columns }) ∧
    (∀ (O α W : Type) [ItemOrder O α] [SpillStore W],
      Turn.RestsUnasked Merge.turn Heard.event (fun s : Merge O α × W => s.1.supply) Merge.live ∧
      ∀ (order : O) (decode : List UInt8 → Except Cause α) (runs : List (Run α))
        (ahead chunk : Nat) (w : W),
        Command.KeepsToDemand Merge.sources
          (((Merge.ofRuns order decode runs).withAhead ahead).withChunk chunk, w)) ∧
    ∀ (S O α W : Type) [FiniteProducer S α] [ItemOrder O α] [SpillStore W],
      Turn.RestsUnasked Sorter.turn Heard.event (fun t : Sorter S O α × W => t.1.supply)
        Sorter.sources ∧
      ∀ (w w' : W) (settings : Settings) (codec : Codec α) (order : O) (tag : UInt32) (input : S)
        (s : Sorter S O α), Sorter.start w settings codec order tag input = (.ok s, w') →
        Command.KeepsToDemand Sorter.sources (s, w') := by
  refine ⟨?_, ?_, ?_, ?_, ?_⟩
  · intro α
    refine ⟨ListStream.turn_unasked, ?_⟩
    intro items
    refine Command.keepsToDemand rfl ?_
    intro t h
    exact ListStream.turn_unasked.iterate h
  · intro α
    refine ⟨FrameStream.turn_unasked, ?_⟩
    intro source decode chunk
    refine Command.keepsToDemand rfl ?_
    intro t h
    exact FrameStream.turn_unasked.iterate h
  · refine ⟨Table.RowStream.turn_unasked, ?_⟩
    intro source columns
    refine Command.keepsToDemand rfl ?_
    intro t h
    exact Table.RowStream.turn_unasked.iterate h
  · intro O α W _ _
    refine ⟨Merge.turn_unasked, ?_⟩
    intro order decode runs ahead chunk w
    refine Command.keepsToDemand rfl ?_
    intro t h
    exact Merge.drive_unasked h
  · intro S O α W _ _ _
    refine ⟨Sorter.turn_unasked, ?_⟩
    intro w w' settings codec order tag input s hs
    obtain ⟨-, -, rfl⟩ := Sorter.start_ok.mp hs
    refine Command.keepsToDemand rfl ?_
    intro t h
    exact Sorter.drive_unasked h

/-- Somebody asks for three items and pauses with the first one. -/
def changeOfMind : List (Command UInt8) :=
  [.subscribe { react := fun i _ => if i = 0 then [.pause] else [] }, .drive, .fetch 3, .drive]

/-- The sort goes from its input to its merge when it is asked, and it obeys
there the pause of the consumer that it was given before. -/
theorem sort_of_list_keeps_to_demand :
    ∃ (s : Sorter (ListStream UInt8) (PlainOrder UInt8) UInt8) (w : PlannedStore),
      Sorter.start {} (.standard ⟨"runs"⟩) byteCodec (PlainOrder.natural UInt8) 7
        (.ofList [3, 1, 2]) = (.ok s, w) ∧
      ({} : Account UInt8).Fits (Command.history (s, w) changeOfMind) ∧
      Event.items (Command.performAll (s, w) changeOfMind).2 = [1] ∧
      (({} : Account UInt8).after (Command.history (s, w) changeOfMind)).credit = 0 ∧
      Command.KeepsToDemand Sorter.sources (s, w) := by
  refine ⟨_, _, rfl, ?_, ?_, ?_, ?_⟩
  · decide +kernel
  · decide +kernel
  · decide +kernel
  · exact (streams_keep_to_demand.2.2.2.2 _ _ _ _).2 {} _ (.standard ⟨"runs"⟩) byteCodec
      (PlainOrder.natural UInt8) 7 (.ofList [3, 1, 2]) _ rfl

end ExternalSort
