/-
What a merge can do in one turn.

In a turn a merge gets on with its intakes, and then it rests, or it ends, or
it hands one item over.  Which of these it does is a matter of the merge
alone: the store has no say in it (`turn_decides`).  Everything that turns
keep is proved from this, decision by decision.
-/
import ExternalSort.Merge.Basic
import ExternalSort.Proofs.Stream.Commands

namespace ExternalSort.Merge

variable {O α W : Type} [ItemOrder O α] [SpillStore W] {m m' : Merge O α}

/-! ## Phases -/

/-- A merge is in a final phase when its supply is not open any more, and
then it has given up everything it held. -/
structure InStep (m : Merge O α) : Prop where
  phase : m.phase.isFinal = !m.supply.isOpen
  released : m.phase.isFinal = true → m.runs = [] ∧ m.intakes = [] ∧ m.files = []

omit [ItemOrder O α] in
theorem inStep_of_open (hp : m.phase.isFinal = false) (ho : m.supply.isOpen = true) :
    InStep m where
  phase := by
    rw [hp, ho]
    rfl
  released h := absurd (hp.symm.trans h) (by simp)

omit [ItemOrder O α] in
theorem InStep.working (h : InStep m) (ho : m.supply.isOpen = true) : m.phase.isFinal = false := by
  rw [h.phase, ho]
  rfl

/-! ## Decisions -/

/-- How a turn of a merge can end. -/
inductive Decision (O α : Type) where
  | rest (m : Merge O α)
  | conclude (m : Merge O α) (phase : MergePhase) (e : Ending)
  /-- An item is handed over, and another turn is taken. -/
  | send (m : Merge O α) (a : α)

/-- The turn that ends in this way. -/
def Decision.carryOut (w : W) : Decision O α → Turn (Merge O α × W) (Heard W α)
  | .rest m => .rest (m, w)
  | .conclude m phase e => m.conclude w phase e
  | .send m a =>
    { state := ({ m with supply := (m.supply.send a).1 }, w)
      events := Heard.ofEvents w (m.supply.send a).2
      again := true }

/-- A merge got on with its intakes, and `m'` is what it is then. -/
structure GoesOn (m m' : Merge O α) : Prop where
  supply_eq : m'.supply = m.supply
  files_eq : m'.files = m.files
  inStep : InStep m → InStep m'

/-- What a merge may decide to do. -/
inductive MayDecide (m : Merge O α) : Decision O α → Prop
  | rest {n : Merge O α} : GoesOn m n → MayDecide m (.rest n)
  | conclude {n : Merge O α} {phase : MergePhase} {e : Ending} : GoesOn m n →
      phase.isFinal = true → MayDecide m (.conclude n phase e)
  | send {n : Merge O α} {a : α} : GoesOn m n → m.supply.canSend = true →
      n.phase.isFinal = false → MayDecide m (.send n a)

/-- A turn that a merge decides on before it looks at the store. -/
def Decides (m : Merge O α) (turn : W → Turn (Merge O α × W) (Heard W α)) : Prop :=
  ∃ d, MayDecide m d ∧ ∀ w, turn w = d.carryOut w

omit [ItemOrder O α] in
theorem GoesOn.refl (m : Merge O α) : GoesOn m m := ⟨rfl, rfl, id⟩

omit [ItemOrder O α] in
theorem GoesOn.trans {m'' : Merge O α} (h : GoesOn m m') (k : GoesOn m' m'') : GoesOn m m'' where
  supply_eq := k.supply_eq.trans h.supply_eq
  files_eq := k.files_eq.trans h.files_eq
  inStep hm := k.inStep (h.inStep hm)

omit [ItemOrder O α] in
theorem GoesOn.of_canSend (hc : m.supply.canSend = true) {phase : MergePhase}
    (hp : phase.isFinal = false) (intakes : List (Intake (RunStream α) α)) :
    GoesOn m { m with intakes, phase } where
  supply_eq := rfl
  files_eq := rfl
  inStep _ := inStep_of_open hp (Supply.isOpen_iff.mpr (Supply.canSend_iff.mp hc).1)

omit [ItemOrder O α] in
theorem GoesOn.of_retire (m : Merge O α) : GoesOn m { m with intakes := retire m.intakes } where
  supply_eq := rfl
  files_eq := rfl
  inStep h := by
    refine ⟨h.phase, ?_⟩
    intro hf
    obtain ⟨hr, hi, hfs⟩ := h.released hf
    exact ⟨hr, by simp [hi, retire], hfs⟩

omit [ItemOrder O α] in
theorem Decides.after {turn : W → Turn (Merge O α × W) (Heard W α)} (h : Decides m' turn)
    (hg : GoesOn m m') : Decides m turn := by
  obtain ⟨d, hd, ht⟩ := h
  refine ⟨d, ?_, ht⟩
  cases hd with
  | rest k => exact .rest (hg.trans k)
  | conclude k hp => exact .conclude (hg.trans k) hp
  | send k hc hp => exact .send (hg.trans k) (hg.supply_eq ▸ hc) hp

/-! ## Turns -/

theorem deliver_decides (hc : m.supply.canSend = true) :
    Decides m (m.deliver (W := W)) := by
  cases ht : takeLeast (ItemOrder.compare m.order) m.intakes with
  | error e =>
      refine ⟨.conclude m .errored (.failed (.ofCompare e)), .conclude (.refl m) rfl, ?_⟩
      intro w
      rw [deliver, ht]
      rfl
  | ok taken =>
      cases taken with
      | none =>
          refine ⟨.rest m, .rest (.refl m), ?_⟩
          intro w
          rw [deliver, ht]
          rfl
      | some taken =>
          obtain ⟨a, intakes⟩ := taken
          refine ⟨.send { m with intakes, phase := .sending } a,
            .send (.of_canSend hc rfl intakes) hc rfl, ?_⟩
          intro w
          rw [deliver, ht]
          rfl

omit [ItemOrder O α] in
theorem unlessOver_decides {next : W → Merge O α → Turn (Merge O α × W) (Heard W α)}
    (h : Decides { m with intakes := retire m.intakes } fun w =>
      next w { m with intakes := retire m.intakes }) :
    Decides m fun w => m.unlessOver w (next w) := by
  by_cases he : (retire m.intakes).isEmpty = true
  · refine ⟨.conclude { m with intakes := retire m.intakes } .ended .ended,
      .conclude (.of_retire m) rfl, ?_⟩
    intro w
    exact if_pos he
  · obtain ⟨d, hd, ht⟩ := h.after (.of_retire m)
    refine ⟨d, hd, ?_⟩
    intro w
    exact (if_neg he).trans (ht w)

theorem proceed_decides (m : Merge O α) : Decides m (m.proceed (W := W)) := by
  by_cases hc : m.supply.canSend = true
  · cases hr : refillAll m.ahead m.intakes with
    | error e =>
        refine ⟨.conclude m .errored (.failed e), .conclude (.refl m) rfl, ?_⟩
        intro w
        rw [proceed, if_neg (by simp [hc]), hr]
        rfl
    | ok refilled =>
        obtain ⟨ready, intakes⟩ := refilled
        have hg : GoesOn m { m with intakes, phase := .waiting } := .of_canSend hc rfl intakes
        cases ready with
        | true =>
            have hd : Decides { m with intakes, phase := .waiting } fun w : W =>
                { m with intakes, phase := .waiting }.unlessOver w fun m => m.deliver w :=
              unlessOver_decides (deliver_decides hc)
            obtain ⟨d, hd, ht⟩ := hd.after hg
            refine ⟨d, hd, ?_⟩
            intro w
            rw [proceed, if_neg (by simp [hc]), hr]
            exact ht w
        | false =>
            refine ⟨.rest { m with intakes, phase := .waiting }, .rest hg, ?_⟩
            intro w
            rw [proceed, if_neg (by simp [hc]), hr]
            rfl
  · refine ⟨.rest m, .rest (.refl m), ?_⟩
    intro w
    rw [proceed, if_pos (by simp [hc])]
    rfl

/-- In its turn a merge does what it may decide to do, the same over every
store. -/
theorem turn_decides (m : Merge O α) :
    ∃ d, MayDecide m d ∧ ∀ w : W, turn (m, w) = d.carryOut w :=
  unlessOver_decides (proceed_decides { m with intakes := retire m.intakes })

end ExternalSort.Merge
