/-
Stores that answer alike.

Two stores may differ in what removing a file does, as long as nothing was
removed, and give the same answers to all other calls (`Alike`).  A stream
that removes files only when it is over cannot tell one from the other: it
does the same things over both, and the same is heard (`Alike.Twins`).
-/
import ExternalSort.Proofs.Stream.Commands
import ExternalSort.Store.Planned
import ExternalSort.Stream.Heard

namespace ExternalSort

variable {W σ α : Type}

/-- A relation between stores that answer alike, except for removing files. -/
structure Alike (W : Type) [SpillStore W] where
  rel : W → W → Prop
  create : ∀ {w w' : W} (p : Path), rel w w' →
    (SpillStore.create w p).1 = (SpillStore.create w' p).1 ∧
      rel (SpillStore.create w p).2 (SpillStore.create w' p).2
  keep : ∀ {w w' : W} (p : Path) (sink : Sink), rel w w' →
    rel (SpillStore.keep w p sink) (SpillStore.keep w' p sink)
  openFile : ∀ {w w' : W} (p : Path), rel w w' →
    (SpillStore.openFile w p).1 = (SpillStore.openFile w' p).1 ∧
      rel (SpillStore.openFile w p).2 (SpillStore.openFile w' p).2
  ensure : ∀ {w w' : W} (p : Path), rel w w' →
    (SpillStore.ensureDirectory w p).1 = (SpillStore.ensureDirectory w' p).1 ∧
      rel (SpillStore.ensureDirectory w p).2 (SpillStore.ensureDirectory w' p).2

namespace PlannedStore

/-- A store with another plan for removing files. -/
def withRemoveFault (w : PlannedStore) (f : Nat → Option Fault) : PlannedStore :=
  { w with plan := { w.plan with removeFault := f } }

variable (w : PlannedStore) (f : Nat → Option Fault) (p : Path)

theorem create_withRemoveFault :
    (w.withRemoveFault f).create p = ((w.create p).1, (w.create p).2.withRemoveFault f) := by
  have hfault : (w.withRemoveFault f).plan.createFault ((w.withRemoveFault f).count .create) =
      w.plan.createFault (w.count .create) := rfl
  have hget : (w.withRemoveFault f).get? p = w.get? p := rfl
  unfold create
  dsimp only
  rw [hfault, hget]
  cases w.plan.createFault (w.count .create) with
  | some g => rfl
  | none =>
      cases (w.get? p).isSome with
      | true => rfl
      | false => rfl

theorem openFile_withRemoveFault :
    (w.withRemoveFault f).openFile p = ((w.openFile p).1, (w.openFile p).2.withRemoveFault f) := by
  have hfault : (w.withRemoveFault f).plan.openFault ((w.withRemoveFault f).count .openFile) =
      w.plan.openFault (w.count .openFile) := rfl
  have hget : (w.withRemoveFault f).get? p = w.get? p := rfl
  unfold openFile
  dsimp only
  rw [hfault, hget]
  cases w.plan.openFault (w.count .openFile) with
  | some g => rfl
  | none =>
      cases w.get? p with
      | none => rfl
      | some bs => rfl

theorem ensureDirectory_withRemoveFault :
    (w.withRemoveFault f).ensureDirectory p =
      ((w.ensureDirectory p).1, (w.ensureDirectory p).2.withRemoveFault f) := by
  have hfault : (w.withRemoveFault f).plan.ensureFault
      ((w.withRemoveFault f).count .ensureDirectory) =
        w.plan.ensureFault (w.count .ensureDirectory) := rfl
  unfold ensureDirectory
  rw [hfault]
  cases w.plan.ensureFault (w.count .ensureDirectory) with
  | some g => rfl
  | none => rfl

/-- Stores with the same plan, except for removing files, answer alike. -/
def alike : Alike PlannedStore where
  rel w w' := ∃ f, w' = w.withRemoveFault f
  create := by
    rintro w w' p ⟨f, rfl⟩
    have h := create_withRemoveFault w f p
    exact ⟨(congrArg Prod.fst h).symm, f, congrArg Prod.snd h⟩
  keep := by
    rintro w w' p sink ⟨f, rfl⟩
    exact ⟨f, rfl⟩
  openFile := by
    rintro w w' p ⟨f, rfl⟩
    have h := openFile_withRemoveFault w f p
    exact ⟨(congrArg Prod.fst h).symm, f, congrArg Prod.snd h⟩
  ensure := by
    rintro w w' p ⟨f, rfl⟩
    have h := ensureDirectory_withRemoveFault w f p
    exact ⟨(congrArg Prod.fst h).symm, f, congrArg Prod.snd h⟩

end PlannedStore

/-! ## Streams over stores that answer alike -/

section Twins

variable [SpillStore W] (A : Alike W) (supply : σ → Supply α)

/-- A stream has come to the same over two stores, which are still alike if
the stream is not over. -/
structure Alike.Twins (x y : (σ × W) × List (Heard W α)) : Prop where
  state : x.1.1 = y.1.1
  events : Heard.events x.2 = Heard.events y.2
  store : (supply x.1.1).isOpen = true → A.rel x.1.2 y.1.2

/-- A turn does the same over two stores. -/
structure Alike.TurnTwins (t u : Turn (σ × W) (Heard W α)) : Prop where
  again : t.again = u.again
  twins : A.Twins supply (t.state, t.events) (u.state, u.events)

variable {A supply}

theorem Alike.Twins.of_rel {s : σ} {w w' : W} (h : A.rel w w') :
    A.Twins supply ((s, w), []) ((s, w'), []) :=
  ⟨rfl, rfl, fun _ => h⟩

theorem Alike.Twins.of_over {s s' : σ} {w w' : W} {es : List (Event α)} (hs : s = s')
    (ho : (supply s).isOpen = false) :
    A.Twins supply ((s, w), Heard.ofEvents w es) ((s', w'), Heard.ofEvents w' es) := by
  refine ⟨hs, ?_, fun h => absurd (h.symm.trans ho) (by simp)⟩
  rw [Heard.events_ofEvents, Heard.events_ofEvents]

/-- A process whose turns do the same over two stores does so in all. -/
theorem Turn.iterate_twins {turn : σ × W → Turn (σ × W) (Heard W α)} {size : σ × W → Nat}
    {shrinks : ∀ s, (turn s).again = true → size (turn s).state < size s}
    (step : ∀ (s : σ) {w w' : W}, A.rel w w' →
      A.TurnTwins supply (turn (s, w)) (turn (s, w')))
    (stops : StopsWhenOver turn fun t => supply t.1) {s : σ} {w w' : W} (h : A.rel w w') :
    A.Twins supply (iterate turn size shrinks (s, w)) (iterate turn size shrinks (s, w')) := by
  have step : ∀ {t u : σ × W}, t.1 = u.1 ∧ A.rel t.2 u.2 → A.TurnTwins supply (turn t) (turn u) := by
    rintro ⟨s, w⟩ ⟨s', w'⟩ ⟨rfl, h⟩
    exact step s h
  have hend : ((iterate turn size shrinks (s, w)).1.1 = (iterate turn size shrinks (s, w')).1.1 ∧
      ((supply (iterate turn size shrinks (s, w)).1.1).isOpen = true →
        A.rel (iterate turn size shrinks (s, w)).1.2 (iterate turn size shrinks (s, w')).1.2)) ∧
      (iterate turn size shrinks (s, w)).2.map Heard.event =
        (iterate turn size shrinks (s, w')).2.map Heard.event :=
    iterate_related
      (R := fun t u => t.1 = u.1 ∧ A.rel t.2 u.2)
      (Q := fun t u => t.1 = u.1 ∧ ((supply t.1).isOpen = true → A.rel t.2 u.2))
      (fun _ _ h => (step h).again)
      (fun _ _ h => (step h).twins.events)
      (fun _ _ h ha => ⟨(step h).twins.state, (step h).twins.store (stops _ ha)⟩)
      (fun _ _ h _ => ⟨(step h).twins.state, (step h).twins.store⟩)
      (s := (s, w)) (t := (s, w')) ⟨rfl, h⟩
  obtain ⟨⟨hs, hw⟩, hes⟩ := hend
  exact ⟨hs, hes, hw⟩

end Twins

end ExternalSort
