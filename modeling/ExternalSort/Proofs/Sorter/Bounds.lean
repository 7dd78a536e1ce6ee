/-
How much a sort holds.

While a sort reads its input, whatever the input hands over is taken in at once,
and no more than one batch is asked for; the generator spills what it holds before
it comes to too much.  While the sort merges, its intakes stay within what they
are filled up to.  So at every point of every drive what is held is bounded by the
settings alone (`buffers_stay_bounded`).
-/
import ExternalSort.Proofs.Merge.Bounds
import ExternalSort.Proofs.Sorter.Verdict

namespace ExternalSort

open Producer (Metered Passes)

/-- A merge of which each intake, with what it still asks for, stays within `n` items. -/
structure Merge.FilledTo {O α : Type} (n : Nat) (m : Merge O α) : Prop where
  ahead_eq : m.ahead = n
  room : ∀ s ∈ m.intakes, s.buffer.length + (Producer.demand s.stream).amount ≤ n
  held_le : m.held ≤ n * m.intakes.length

theorem Merge.Within.filledTo {O α : Type} {n : Nat} {m : Merge O α} (h : m.Within n) :
    m.FilledTo n := ⟨h.ahead_eq, fun _ hs => h.room hs, h.held_le⟩

namespace Sorter

variable {S O α W : Type} [FiniteProducer S α] [ItemOrder O α] [SpillStore W]

/-- What a sort holds between two drives.  All that its input has let out was taken
in, the generator is below its threshold, and the intakes of the merge are filled up
to what the settings say at most. -/
structure BoundedAtRest (input : S) (settings : Settings) (t : Sorter S O α × W) : Prop where
  demand_le : ∀ heard b o, t.1.stage = .collecting heard b o →
    (Producer.demand t.1.input).amount ≤ batchSize
  emptied : ∀ heard b o, t.1.stage = .collecting heard b o → ∃ n,
    t.1.input = (letOut input n).1 ∧ b.added = (Event.items (letOut input n).2).length
  below : ∀ heard b o, t.1.stage = .collecting heard b o → b.heldSize < settings.threshold
  filled : ∀ m, t.1.stage = .merging m → m.FilledTo settings.ahead

/-- What a sort holds at any point of a drive.  While its input hands a batch over,
that is what has come of the batch with what is still to come; in the turns of the
merge it is what the intakes hold, and for each intake that is topped up what has come
for it with what is still to come. -/
structure BoundedInDrive (settings : Settings) (t : Sorter S O α × W) : Prop where
  batch_le : ∀ u, Turn.Takes turn t u → (∃ heard b o, u.1.stage = .collecting heard b o) →
    ∀ fs o, Passes u.1.askInput fs o →
      (Event.items fs).length + o.demand.amount ≤ batchSize
  filled : ∀ v, TakesMergeTurn t v → v.1.FilledTo settings.ahead
  topped_up : ∀ v, TakesMergeTurn t v → ∀ s ∈ v.1.intakes, ∀ fs o,
    Passes (s.ask settings.ahead).stream fs o →
      s.buffer.length + (Event.items fs).length + o.demand.amount ≤ settings.ahead

/-! ## The input -/

section Input

variable [OrderlyProducer S α] {input : S}

theorem ask_metered (h : Metered input) (hd : (Producer.demand input).amount ≤ batchSize) :
    let asked :=
      if (Producer.demand input).isPositive then input else Producer.request input batchSize
    Metered asked ∧ (Producer.demand asked).amount ≤ batchSize := by
  intro asked
  by_cases hp : (Producer.demand input).isPositive
  · rw [show asked = input from if_pos hp]
    exact ⟨h, hd⟩
  · rw [show asked = Producer.request input batchSize from if_neg hp]
    have hzero : (Producer.demand input).amount = 0 := by
      simpa [Demand.isPositive] using hp
    obtain ⟨hm, hamount⟩ := h.request hzero (by decide : batchSize < wordMax)
    exact ⟨hm, Nat.le_of_eq hamount⟩

theorem letOut_metered (hd : (Producer.demand input).amount = 0) (n : Nat) :
    Metered (letOut input n).1 ∧ (Producer.demand (letOut input n).1).amount ≤ batchSize := by
  induction n with
  | zero =>
      obtain ⟨hm, hsame⟩ := Producer.metered_subscribe (i := input) (by rw [hd]; decide)
      refine ⟨hm, ?_⟩
      show (Producer.demand (Producer.subscribe input ({} : Subscriber α)).1).amount ≤ batchSize
      rw [hsame, hd]
      exact Nat.zero_le _
  | succ n ih =>
      obtain ⟨hm, hle⟩ := ask_metered ih.1 ih.2
      obtain ⟨hdriven, hb⟩ := hm.drive
      rw [letOut_succ]
      exact ⟨hdriven, Nat.le_trans (Nat.le.intro ((Nat.add_comm _ _).trans hb)) hle⟩

end Input

/-! ## The merge -/

/-- A sort whose merge, once there is one, fills its intakes up to `n` items. -/
def Within (n : Nat) (s : Sorter S O α) : Prop :=
  match s.stage with
  | .collecting .. => s.settings.ahead = n ∧ 0 < n ∧ n < wordMax
  | .merging m => m.Within n
  | .failed _ | .closed _ => True

variable {s : Sorter S O α} {w : W} {t u : Sorter S O α × W} {n : Nat}

theorem Begins.within {m : Merge O α} (h : Begins t m w) (ht : t.1.Within n) : m.Within n := by
  have hall : ∀ {s : Sorter S O α} {heard : Option Ending} {b b' : RunGenerator O α}
      {o : Supply α} (runs : List (Run α)), s.stage = .collecting heard b o → s.Within n →
        (s.mergeOf b' o runs).Within n := by
    intro s heard b b' o runs hst hs
    rw [Within, hst] at hs
    obtain ⟨rfl, hpos, hlt⟩ := hs
    exact ⟨hlt, Nat.max_eq_left hpos, fun _ hs => absurd hs List.not_mem_nil⟩
  cases h with
  | heard hst => exact hall _ hst ht
  | read hst => exact hall _ hst ht

theorem Within.turn (h : t.1.Within n) : (Sorter.turn t).state.1.Within n := by
  obtain ⟨⟨settings, codec, input, stage, itemsRead, files, runs⟩, w⟩ := t
  cases stage with
  | collecting heard b o =>
      let s : Sorter S O α := ⟨settings, codec, input, .collecting heard b o, itemsRead, files, runs⟩
      have ht : Turns (s, w) (Sorter.turn (s, w)) := turn_turns rfl w
      show (Sorter.turn (s, w)).state.1.Within n
      generalize Sorter.turn (s, w) = v at ht
      cases ht with
      | unasked => exact h
      | fails s' w' e => exact trivial
      | begins input' itemsRead' files' runs' hb => exact (hb.within h).drive hb.attentive.2
      | goesOn => exact h
  | merging m => exact h
  | failed o => exact h
  | closed d => exact h

theorem Within.drive (h : s.Within n) (hs : InStep s) : (s.drive w).1.1.Within n := by
  cases hst : s.stage with
  | collecting heard b o =>
      rw [Sorter.drive, hst]
      exact Turn.iterate_induction (fun t _ => t.1.Within n) (fun _ _ ht => ht.turn) (s, w) h
  | merging m =>
      rw [Within, hst] at h
      rw [InStep, hst] at hs
      rw [Sorter.drive, hst]
      exact h.drive hs
  | failed o =>
      rw [Sorter.drive, hst]
      exact h
  | closed d =>
      rw [Sorter.drive, hst]
      exact h

omit [FiniteProducer S α] [ItemOrder O α] in
theorem Within.withSupply (h : s.Within n) (o : Supply α) : (s.withSupply o).Within n := by
  obtain ⟨settings, codec, input, stage, itemsRead, files, runs⟩ := s
  cases stage with
  | collecting heard b p => exact h
  | merging m =>
      have h : m.Within n := h
      exact ⟨h.limited, h.ahead_eq, h.each⟩
  | failed p => trivial
  | closed d => trivial

theorem actAll_within (h : t.1.Within n) (hs : InStep t.1) (acts : List (Action α)) :
    (actAll act t acts).1.1.Within n ∧ InStep (actAll act t acts).1.1 := by
  refine actAll_of_deeds (P := fun (t : Sorter S O α × W) _ => t.1.Within n ∧ InStep t.1) ?_
    ⟨h, hs⟩
  -- A drive needs that the merge is in step, so both go through the induction together.
  rintro d - t - ⟨h, hs⟩
  cases d with
  | subscribe k =>
      exact ⟨h.withSupply _, withSupply_inStep hs (Supply.isOpen_subscribe t.1.supply k)⟩
  | change d => exact ⟨h.withSupply _, withSupply_inStep hs rfl⟩
  | drive => exact ⟨h.drive hs, drive_inStep hs⟩
  | close => exact ⟨trivial, trivial⟩

theorem Within.takesMergeTurn (h : t.1.Within n) {v : Merge O α × W} (hv : TakesMergeTurn t v) :
    v.1.Within n := by
  obtain ⟨m, w, hm, hv⟩ := hv
  cases hm with
  | merging hst =>
      rw [Within, hst] at h
      exact h.takesTurn hv
  | begun hu hb =>
      have hu := hu.keeps (P := fun u => u.1.Within n) (fun _ hs _ => hs.turn) h
      exact (hb.within hu).takesTurn hv

/-! ## Drives -/

theorem takes_collecting (h : Turn.Takes turn t u) {heard : Option Ending} {b : RunGenerator O α}
    {o : Supply α} (hu : u.1.stage = .collecting heard b o) :
    ∃ heard b o, t.1.stage = .collecting heard b o := by
  cases h with
  | first => exact ⟨_, _, _, hu⟩
  | later ha =>
      obtain ⟨⟨settings, codec, input, stage, itemsRead, files, runs⟩, w⟩ := t
      cases stage with
      | collecting heard b o => exact ⟨_, _, _, rfl⟩
      | _ => exact absurd ha (by simp [turn])

section Bounded

variable [OrderlyProducer S α] {input : S} {asks : Subscriber α → Prop} {settings : Settings}
  {codec : Codec α} {order : O} {tag : UInt32} {hs : List (Heard W α)}

/-- While a sort reads, the batch that is on its way is the only thing that it does not
count as held. -/
theorem Reading.batch_le {b : RunGenerator O α} (h : Reading input b w asks n t)
    (hd : (Producer.demand input).amount = 0) {fs : List (Event α)} {o : Supply α}
    (hp : Passes t.1.askInput fs o) :
    (Event.items fs).length + o.demand.amount ≤ batchSize := by
  obtain ⟨hm, hle⟩ := letOut_metered hd n
  rw [← h.input_eq] at hm hle
  obtain ⟨hasked, hamount⟩ := ask_metered hm hle
  exact Nat.le_trans (Nat.le_of_eq (hasked.passes hp)) hamount

theorem Stands.boundedAtRest
    (h : Stands input { settings, codec, order, tag } w asks n t hs)
    (ht : t.1.Within settings.ahead) (hd : (Producer.demand input).amount = 0)
    (hpos : 0 < settings.threshold) : BoundedAtRest input settings t := by
  have htook : ∀ heard b o, t.1.stage = .collecting heard b o →
      RunGenerator.Took { settings, codec, order, tag } (Event.items (letOut input n).2) b := by
    intro heard b o hst
    exact RunGenerator.took_of_addAll ((h.reads hst).1.of_collecting hst).1 hpos
  refine ⟨?_, ?_, fun heard b o hst => (htook heard b o hst).below, ?_⟩
  · intro heard b o hst
    rw [h.input_eq]
    exact (letOut_metered hd n).2
  · intro heard b o hst
    exact ⟨n, h.input_eq, (htook heard b o hst).added_eq.trans (Nat.zero_add _)⟩
  · intro m hst
    rw [Within, hst] at ht
    exact ht.filledTo

omit [OrderlyProducer S α] in
theorem Stands.reads_in_drive {b b' : RunGenerator O α} {demand : Demand} {heard : Option Ending}
    {o : Supply α} (h : Stands input b w asks n t hs)
    (hu : Turn.Takes turn (t.1.withSupply { t.1.supply with demand }, t.2) u)
    (hst : u.1.stage = .collecting heard b' o) : ∃ n, Reading input b w asks n u := by
  cases ht : t.1.stage with
  | collecting heard b₀ o₀ =>
      refine hu.keeps (P := fun u => ∃ n, Reading input b w asks n u) ?_
        ⟨n, (h.reads ht).1.withDemand demand⟩
      rintro u ⟨n, hr⟩ ha
      exact ⟨n + 1, (hr.turn.1 ha).1⟩
  | _ =>
      obtain ⟨_, _, _, hcol⟩ := takes_collecting hu hst
      exact absurd hcol (by simp [withSupply, ht])

theorem Stands.boundedInDrive
    (h : Stands input { settings, codec, order, tag } w asks n t hs)
    (ht : t.1.Within settings.ahead) (hd : (Producer.demand input).amount = 0) (demand : Demand) :
    BoundedInDrive settings (Producer.withSupply t { Producer.supply t with demand }) := by
  have hall : ∀ v, TakesMergeTurn (Producer.withSupply t { Producer.supply t with demand }) v →
      v.1.Within settings.ahead := by
    intro v hv
    exact Within.takesMergeTurn (t := (_, t.2)) (ht.withSupply _) hv
  refine ⟨?_, fun v hv => (hall v hv).filledTo, ?_⟩
  · rintro u hu ⟨heard, b, o, hst⟩ fs p hp
    obtain ⟨n, hr⟩ := h.reads_in_drive hu hst
    exact hr.batch_le hd hp
  · intro v hv i hi fs o hp
    have heach := (hall v hv).each i hi
    rw [(hall v hv).ahead_eq] at heach
    exact heach.passes hp

end Bounded

/-- Whatever is done with a sort of an input of which nothing was asked before, and
however its input and its files stop and go on, what it holds is bounded by its
settings.

Between two drives all that the input has let out was taken in, and the generator
holds less than its threshold.  At any point of a drive, what has come of a batch
with what is still asked for is no more than one batch; and each intake of the merge,
with what it still asks for, stays within what the settings say. -/
theorem buffers_stay_bounded [OrderlyProducer S α] (w w₁ : W) (settings : Settings)
    (codec : Codec α) (order : O) (tag : UInt32) (input : S) (s : Sorter S O α)
    (hahead : settings.ahead < wordMax) (hdemand : (Producer.demand input).amount = 0)
    (h : start w settings codec order tag input = (.ok s, w₁)) (acts : List (Action α))
    (demand : Demand) :
    let t := (actAll act (s, w₁) acts).1
    BoundedAtRest input settings t ∧
      BoundedInDrive settings (Producer.withSupply t { Producer.supply t with demand }) := by
  intro t
  obtain ⟨hcheck, -, hs⟩ := start_ok.mp h
  have hpos : 0 < settings.threshold ∧ 0 < settings.ahead := by
    rw [Settings.check] at hcheck
    split at hcheck
    · exact absurd hcheck (by simp)
    split at hcheck
    · exact absurd hcheck (by simp)
    · omega
  have hstart : Within settings.ahead s := by
    rw [hs]
    exact ⟨rfl, hpos.2, hahead⟩
  obtain ⟨hwithin, -⟩ := actAll_within (t := (s, w₁)) hstart (start_inStep h) acts
  obtain ⟨n, hstands⟩ := actAll_stands h acts
  exact ⟨hstands.boundedAtRest hwithin hdemand hpos.1,
    hstands.boundedInDrive hwithin hdemand demand⟩

/-- Four items, of which two come at a time. -/
def haltingInput : FrameStream UInt8 :=
  .ofSource [.data [0, 0, 0, 1, 3, 0, 0, 0, 1, 1], .fault .wouldBlock,
    .data [0, 0, 0, 1, 4, 0, 0, 0, 1, 2]] byteCodec.decode 16

/-- Each two items go into a file, and one item of each file is held. -/
theorem buffers_stay_bounded_halting :
    ∃ (s : Sorter (FrameStream UInt8) (PlainOrder UInt8) UInt8) (w : PlannedStore),
      1 < wordMax ∧ (Producer.demand haltingInput).amount = 0 ∧
      start {} { Settings.standard ⟨"runs"⟩ with threshold := 2, ahead := 1 } byteCodec
        (PlainOrder.natural UInt8) 7 haltingInput = (.ok s, w) ∧
      ∀ acts demand, let t := (actAll act (s, w) acts).1
        BoundedAtRest haltingInput
            { Settings.standard ⟨"runs"⟩ with threshold := 2, ahead := 1 } t ∧
          BoundedInDrive { Settings.standard ⟨"runs"⟩ with threshold := 2, ahead := 1 }
            (Producer.withSupply t { Producer.supply t with demand }) := by
  refine ⟨_, _, by decide, rfl, rfl, ?_⟩
  exact buffers_stay_bounded ({} : PlannedStore) _
    { Settings.standard ⟨"runs"⟩ with threshold := 2, ahead := 1 } byteCodec
    (PlainOrder.natural UInt8) 7 haltingInput _ (by decide) rfl rfl

end Sorter

end ExternalSort
