/-
Merging runs into one stream.

As long as an item is asked for, every intake without an item at hand is
topped up, and then the least of the first items is handed over; of equal
ones the one from the earliest intake.  An intake that is not ready lets
the merge rest.  Intakes that have given all their items are retired, and
when none is left the merge ends.

The files of the runs belong to the merge.  They are removed when it ends,
well or not, before anybody hears of that, and also when it is given up.
-/
import ExternalSort.Merge.RunStream
import ExternalSort.Merge.Intake
import ExternalSort.Order.Basic
import ExternalSort.Run.Basic
import ExternalSort.Settings
import ExternalSort.Store.Basic
import ExternalSort.Stream.Heard
import ExternalSort.Total

namespace ExternalSort

/-- How far a merge has come. -/
inductive MergePhase where
  /-- Nothing was asked for yet. -/
  | idle
  /-- It waits for an intake. -/
  | waiting
  /-- It has handed an item over. -/
  | sending
  | ended
  | errored
deriving DecidableEq, Repr

namespace MergePhase

def isFinal (p : MergePhase) : Bool := p == ended || p == errored

def name : MergePhase → String
  | idle => "Idle"
  | waiting => "Filling"
  | sending => "Emitting"
  | ended => "Ended"
  | errored => "Errored"

end MergePhase

/-- A merge of runs of items ordered by `O`. -/
structure Merge (O α : Type) where
  order : O
  decode : List UInt8 → Except Cause α
  /-- Runs that have not been opened. -/
  runs : List (Run α)
  /-- Runs that are being read, in the order of the runs. -/
  intakes : List (Intake (RunStream α) α) := []
  /-- Files to be removed in the end. -/
  files : List Path
  /-- Items held of each intake. -/
  ahead : Nat := 10
  /-- Bytes asked of a file at a time. -/
  chunk : Nat := 8192
  phase : MergePhase := .idle
  supply : Supply α := {}

namespace Merge

variable {O α W : Type} [ItemOrder O α] [SpillStore W]

/-- A merge of runs, whose files it takes over. -/
def ofRuns (order : O) (decode : List UInt8 → Except Cause α) (runs : List (Run α)) :
    Merge O α :=
  { order, decode, runs, files := Run.paths runs }

/-- Holds `n` items of each intake, at least one. -/
def withAhead (m : Merge O α) (n : Nat) : Merge O α := { m with ahead := max n 1 }

/-- Asks for `n` bytes of a file at a time, at least one. -/
def withChunk (m : Merge O α) (n : Nat) : Merge O α := { m with chunk := max n 1 }

def withSettings (m : Merge O α) (s : Settings) : Merge O α :=
  (m.withAhead s.ahead).withChunk s.chunk

/-! ## Counters -/

/-- Items held, of all intakes. -/
def held (m : Merge O α) : Nat := total (·.buffer.length) m.intakes

/-- How often demand was granted to the intakes that are being read. -/
def grants (m : Merge O α) : Nat := total (·.grants) m.intakes

/-- Whether an intake has not yet met its demand. -/
def isWaiting (m : Merge O α) : Bool := m.intakes.any (·.waiting)

/-! ## The intakes -/

/-- Opens runs in order, up to the first one that fails. -/
def openRuns (decode : List UInt8 → Except Cause α) (chunk : Nat) (w : W) :
    List (Run α) → Except Fault (List (Intake (RunStream α) α)) × W
  | [] => (.ok [], w)
  | .memory items :: runs =>
    let (r, w) := openRuns decode chunk w runs
    (r.map (.ofStream (.memory (.ofList items)) :: ·), w)
  | .file f :: runs =>
    match SpillStore.openFile w f.path with
    | (.error e, w) => (.error e, w)
    | (.ok source, w) =>
      let (r, w) := openRuns decode chunk w runs
      (r.map (.ofStream (.file (.ofSource source decode chunk)) :: ·), w)

section Intakes

variable {S : Type} [FiniteProducer S α]

/-- Tops up one intake if it has no item at hand. -/
def refill (target : Nat) (s : Intake S α) : Intake S α :=
  if s.buffer.isEmpty && !s.isSpent then s.topUp target else s

/-- Tops up all intakes that have no item at hand, in order, up to the first
one that fails.  The result also tells whether all of them are ready. -/
def refillAll (target : Nat) :
    List (Intake S α) → Except Failure (Bool × List (Intake S α))
  | [] => .ok (true, [])
  | s :: ss =>
    let s := refill target s
    match s.failure? with
    | some e => .error e
    | none => (refillAll target ss).map fun (ready, ss) => (s.isReady && ready, s :: ss)

section Returning

variable [AbortableProducer S α]

/-- Whether topping up an intake comes back. -/
def refillReturns (target : Nat) (s : Intake S α) : Bool :=
  if s.buffer.isEmpty && !s.isSpent then s.topUpReturns target else true

/-- Whether topping up all intakes comes back.  Those behind one that fails are not
touched. -/
def refillAllReturns (target : Nat) : List (Intake S α) → Bool
  | [] => true
  | s :: ss =>
    refillReturns target s &&
      ((refill target s).failure?.isSome || refillAllReturns target ss)

end Returning

/-- The place of the least of the first items that stand from place `i`
on, given the least one before.  An item takes the lead only if it is
less. -/
def leastFrom (cmp : α → α → Except OrderError Ordering) (best : Option (Nat × α)) (i : Nat) :
    List (Intake S α) → Except OrderError (Option Nat)
  | [] => .ok (best.map Prod.fst)
  | s :: ss =>
    match s.buffer.head?, best with
    | none, _ => leastFrom cmp best (i + 1) ss
    | some a, none => leastFrom cmp (some (i, a)) (i + 1) ss
    | some a, some (j, b) =>
      match cmp a b with
      | .error e => .error e
      | .ok .lt => leastFrom cmp (some (i, a)) (i + 1) ss
      | .ok _ => leastFrom cmp (some (j, b)) (i + 1) ss

/-- Takes the first item of the intake at a place. -/
def takeAt : Nat → List (Intake S α) → Option (α × List (Intake S α))
  | _, [] => none
  | 0, s :: ss => s.takeFirst.map fun (a, s) => (a, s :: ss)
  | i + 1, s :: ss => (takeAt i ss).map fun (a, ss) => (a, s :: ss)

/-- Takes the least of the first items. -/
def takeLeast (cmp : α → α → Except OrderError Ordering) (ss : List (Intake S α)) :
    Except OrderError (Option (α × List (Intake S α))) :=
  (leastFrom cmp none 0 ss).map fun place => place.bind (takeAt · ss)

/-- The intakes that still have something to give. -/
def retire (ss : List (Intake S α)) : List (Intake S α) := ss.filter (!·.isSpent)

/-- No more items than this can still be taken. -/
def boundAll (ss : List (Intake S α)) : Nat := total Intake.bound ss

omit [FiniteProducer S α] in
/-- Retiring intakes makes no total of them larger. -/
theorem total_retire_le (quantity : Intake S α → Nat) (ss : List (Intake S α)) :
    total quantity (retire ss) ≤ total quantity ss := by
  induction ss with
  | nil => exact Nat.le_refl 0
  | cons s ss ih =>
    rw [retire, List.filter_cons]
    split
    · exact Nat.add_le_add_left ih _
    · exact Nat.le_trans ih (Nat.le_add_left ..)

theorem boundAll_retire (ss : List (Intake S α)) : boundAll (retire ss) ≤ boundAll ss :=
  total_retire_le Intake.bound ss

theorem bound_refill (target : Nat) (s : Intake S α) :
    (refill target s).bound ≤ s.bound := by
  unfold refill
  split
  · exact s.bound_topUp target
  · exact Nat.le_refl _

theorem boundAll_refillAll (target : Nat) {ss ts : List (Intake S α)} {ready : Bool}
    (h : refillAll target ss = .ok (ready, ts)) : boundAll ts ≤ boundAll ss := by
  induction ss generalizing ready ts with
  | nil => simp_all [refillAll]
  | cons s ss ih =>
    simp only [refillAll] at h
    split at h
    · simp at h
    · cases hr : refillAll target ss with
      | error e => simp [hr, Except.map] at h
      | ok r =>
        obtain ⟨ready', ts'⟩ := r
        simp only [hr, Except.map, Except.ok.injEq, Prod.mk.injEq] at h
        have := ih hr
        have := bound_refill target s
        simp only [boundAll, total, ← h.2, List.map_cons, List.sum_cons] at *
        omega

theorem boundAll_takeAt {i : Nat} {ss ts : List (Intake S α)} {a : α}
    (h : takeAt i ss = some (a, ts)) : boundAll ts + 1 = boundAll ss := by
  induction ss generalizing i ts with
  | nil => simp [takeAt] at h
  | cons s ss ih =>
    cases i with
    | zero =>
      simp only [takeAt, Option.map_eq_some_iff] at h
      obtain ⟨⟨b, t⟩, hp, he⟩ := h
      simp only [Prod.mk.injEq] at he
      have := Intake.bound_takeFirst hp
      simp only [boundAll, total, ← he.2, List.map_cons, List.sum_cons]
      omega
    | succ i =>
      simp only [takeAt, Option.map_eq_some_iff] at h
      obtain ⟨⟨b, us⟩, hp, he⟩ := h
      simp only [Prod.mk.injEq] at he
      have := ih (he.1 ▸ hp)
      simp only [boundAll, total, ← he.2, List.map_cons, List.sum_cons] at *
      omega

theorem boundAll_takeLeast {cmp : α → α → Except OrderError Ordering}
    {ss ts : List (Intake S α)} {a : α} (h : takeLeast cmp ss = .ok (some (a, ts))) :
    boundAll ts + 1 = boundAll ss := by
  unfold takeLeast at h
  cases hl : leastFrom cmp none 0 ss with
  | error e => simp [hl, Except.map] at h
  | ok place =>
    simp only [hl, Except.map, Except.ok.injEq, Option.bind_eq_some_iff] at h
    obtain ⟨i, _, hp⟩ := h
    exact boundAll_takeAt hp

end Intakes

/-! ## Driving -/

/-- Closes all intakes and removes all files. -/
def closeAll (m : Merge O α) (w : W) : Merge O α × W :=
  ({ m with intakes := [], runs := [], files := [] }, SpillStore.removeAll w m.files)

/-- Ends the merge. -/
def conclude (m : Merge O α) (w : W) (phase : MergePhase) (e : Ending) :
    Turn (Merge O α × W) (Heard W α) :=
  let (m, w) := m.closeAll w
  let (o, es) := m.supply.finish e
  { state := ({ m with phase, supply := o }, w), events := Heard.ofEvents w es }

omit [ItemOrder O α] in
@[simp] theorem conclude_again (m : Merge O α) (w : W) (phase : MergePhase) (e : Ending) :
    (m.conclude w phase e).again = false := rfl

/-- Ends the merge by an error. -/
def failWith (m : Merge O α) (w : W) (e : Failure) : Turn (Merge O α × W) (Heard W α) :=
  m.conclude w .errored (.failed e)

/-- Hands over the least of the first items of intakes that all have one
at hand. -/
def deliver (m : Merge O α) (w : W) : Turn (Merge O α × W) (Heard W α) :=
  match takeLeast (ItemOrder.compare m.order) m.intakes with
  | .error e => m.failWith w (.ofCompare e)
  | .ok none => .rest (m, w)
  | .ok (some (a, intakes)) =>
    let (o, es) := m.supply.send a
    { state := ({ m with intakes, phase := .sending, supply := o }, w)
      events := Heard.ofEvents w es
      again := true }

/-- Goes on if an intake is left, and ends the merge if not. -/
def unlessOver (m : Merge O α) (w : W) (next : Merge O α → Turn (Merge O α × W) (Heard W α)) :
    Turn (Merge O α × W) (Heard W α) :=
  let m := { m with intakes := retire m.intakes }
  if m.intakes.isEmpty then m.conclude w .ended .ended else next m

/-- Tops up the intakes, and hands over an item if all of them are ready. -/
def proceed (m : Merge O α) (w : W) : Turn (Merge O α × W) (Heard W α) :=
  if !m.supply.canSend then .rest (m, w)
  else
    match refillAll m.ahead m.intakes with
    | .error e => m.failWith w e
    | .ok (ready, intakes) =>
      let m := { m with intakes, phase := .waiting }
      if ready then m.unlessOver w fun m => m.deliver w else .rest (m, w)

/-- Hands over one item, or waits, or ends. -/
def turn (s : Merge O α × W) : Turn (Merge O α × W) (Heard W α) :=
  s.1.unlessOver s.2 fun m => m.proceed s.2

theorem deliver_shrinks (m : Merge O α) (w : W) (h : (m.deliver w).again = true) :
    boundAll (m.deliver w).state.1.intakes < boundAll m.intakes := by
  revert h
  unfold deliver
  split
  · simp [failWith]
  · simp
  · next hp =>
    have := boundAll_takeLeast hp
    intro _
    dsimp only
    omega

omit [ItemOrder O α] in
theorem unlessOver_shrinks (m : Merge O α) (w : W)
    (next : Merge O α → Turn (Merge O α × W) (Heard W α))
    (hn : ∀ m, (next m).again = true → boundAll (next m).state.1.intakes < boundAll m.intakes)
    (h : (m.unlessOver w next).again = true) :
    boundAll (m.unlessOver w next).state.1.intakes < boundAll m.intakes := by
  revert h
  unfold unlessOver
  dsimp only
  split
  · simp
  · intro h
    exact Nat.lt_of_lt_of_le (hn _ h) (boundAll_retire m.intakes)

theorem proceed_shrinks (m : Merge O α) (w : W) (h : (m.proceed w).again = true) :
    boundAll (m.proceed w).state.1.intakes < boundAll m.intakes := by
  revert h
  unfold proceed
  split
  · simp
  split
  · simp [failWith]
  · next hr =>
    have hb := boundAll_refillAll _ hr
    dsimp only
    split
    · intro h
      exact Nat.lt_of_lt_of_le
        (unlessOver_shrinks _ w _ (fun m h => deliver_shrinks m w h) h) hb
    · simp

theorem turn_shrinks (s : Merge O α × W) (h : (turn s).again = true) :
    boundAll (turn s).state.1.intakes < boundAll s.1.intakes :=
  unlessOver_shrinks s.1 s.2 _ (fun m h => proceed_shrinks m s.2 h) h

/-- Takes turns until the merge waits or ends. -/
def run (m : Merge O α) (w : W) : (Merge O α × W) × List (Heard W α) :=
  Turn.iterate turn (fun s => boundAll s.1.intakes) turn_shrinks (m, w)

/-- Goes on as far as the demand and the files allow.  The runs are opened
by the first drive. -/
def drive (m : Merge O α) (w : W) : (Merge O α × W) × List (Heard W α) :=
  if m.phase.isFinal then ((m, w), [])
  else if m.phase = .idle then
    match openRuns m.decode m.chunk w m.runs with
    | (.error f, w) =>
      let t := m.failWith w (.io f)
      (t.state, t.events)
    | (.ok intakes, w) => run { m with runs := [], intakes := m.intakes ++ intakes } w
  else run m w

/-- The merge in which a drive takes its first turn, with its runs opened. -/
def entry (m : Merge O α) (w : W) : Option (Merge O α × W) :=
  if m.phase.isFinal then none
  else if m.phase = .idle then
    match openRuns m.decode m.chunk w m.runs with
    | (.error _, _) => none
    | (.ok intakes, w) => some ({ m with runs := [], intakes := m.intakes ++ intakes }, w)
  else some (m, w)

/-- Whether the next turn comes back. -/
def turnReturns (m : Merge O α) : Bool :=
  !m.supply.canSend || refillAllReturns m.ahead (retire m.intakes)

/-- Whether the next drive comes back. -/
def returns (m : Merge O α) (w : W) : Bool :=
  (m.entry w).all
    (Turn.all turn (fun s => boundAll s.1.intakes) turn_shrinks fun s => s.1.turnReturns)

/-- Gives the merge up and removes its files. -/
def discard (m : Merge O α) (w : W) : W := SpillStore.removeAll w m.files

instance : Producer (Merge O α × W) α where
  supply s := s.1.supply
  withSupply s o := ({ s.1 with supply := o }, s.2)
  drive s := ((drive s.1 s.2).1, Heard.events (drive s.1 s.2).2)

instance : AbortableProducer (Merge O α × W) α := ⟨fun s => s.1.returns s.2⟩

/-- A description of the merge for people. -/
def describe (m : Merge O α) : String :=
  s!"MergeEngine \x7b state: {m.phase.name}, live_sources: {m.intakes.length}" ++
  s!", read_ahead: {m.ahead}, owned_files: {m.files.length}" ++
  s!", emitted: {m.supply.sent} \x7d"

end Merge

end ExternalSort
