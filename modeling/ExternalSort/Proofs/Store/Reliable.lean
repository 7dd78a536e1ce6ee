/-
Stores that do not fail.

A reliable store creates every file whose name is free, holds what was put
into it, and gives it back; the bytes may come in pieces, with interruptions
and with times when there is nothing to give.  A store whose faults are
planned is reliable if its plan holds no faults (`PlannedStore.reliable`).
-/
import ExternalSort.Proofs.Bytes.Writing
import ExternalSort.Proofs.Frame.Course
import ExternalSort.Store.Planned

namespace ExternalSort

/-- What a store that does not fail promises, in the states of `ok`, about
the files it holds. -/
structure Reliable (W : Type) [SpillStore W] where
  ok : W → Prop
  files : W → Path → Option (List UInt8)
  ensure : ∀ {w : W} (p : Path), ok w →
    ∃ w', SpillStore.ensureDirectory w p = (.ok (), w') ∧ ok w' ∧ files w' = files w
  create : ∀ {w : W} {p : Path}, ok w → files w p = none →
    ∃ sink w', SpillStore.create w p = (.ok sink, w') ∧ ok w' ∧ sink.plan.Takes ∧
      sink.bytes = [] ∧ ∀ q, q ≠ p → files w' q = files w q
  taken : ∀ {w : W} {p : Path}, ok w → files w p ≠ none →
    ∃ f w', SpillStore.create w p = (.error f, w') ∧ f.kind = .alreadyExists ∧ ok w' ∧
      files w' = files w
  keep : ∀ {w : W} (p : Path) (sink : Sink), ok w → ok (SpillStore.keep w p sink) ∧
    files (SpillStore.keep w p sink) p = some sink.bytes ∧
    ∀ q, q ≠ p → files (SpillStore.keep w p sink) q = files w q
  openFile : ∀ {w : W} {p : Path} {bs : List UInt8}, ok w → files w p = some bs →
    ∃ source w', SpillStore.openFile w p = (.ok source, w') ∧
      Source.content source = (bs, none) ∧ ok w' ∧ files w' = files w

namespace PlannedStore

theorem lookup_putFile (p q : Path) (bs : List UInt8) (fs : List (Path × List UInt8)) :
    (putFile p bs fs).lookup q = if q = p then some bs else fs.lookup q := by
  induction fs with
  | nil =>
      rw [putFile, List.lookup_cons]
      by_cases h : q = p
      · simp [h]
      · simp [h, beq_false_of_ne h]
  | cons f fs ih =>
      obtain ⟨r, cs⟩ := f
      rw [putFile]
      by_cases hr : r = p
      · rw [if_pos hr, hr, List.lookup_cons, List.lookup_cons]
        by_cases h : q = p
        · simp [h]
        · simp [h, beq_false_of_ne h]
      · rw [if_neg hr, List.lookup_cons, ih, List.lookup_cons]
        by_cases h : q = p
        · simp [h, beq_false_of_ne (Ne.symm hr)]
        · simp [h]

theorem get?_put (w : PlannedStore) (p q : Path) (bs : List UInt8) :
    (w.put p bs).get? q = if q = p then some bs else w.get? q :=
  lookup_putFile p q bs w.files

@[simp] theorem get?_record (w : PlannedStore) (a : StoreAction) (p q : Path) (b : Bool) :
    (w.record a p b).get? q = w.get? q := rfl

end PlannedStore

/-- A plan without faults; files may still be written and read in pieces. -/
structure StorePlan.Faultless (plan : StorePlan) : Prop where
  create : ∀ n, plan.createFault n = none
  sink : ∀ n, (plan.sinkPlan n).Takes
  openFile : ∀ n, plan.openFault n = none
  source : ∀ n bs, Source.content (plan.source n bs) = (bs, none)
  ensure : ∀ n, plan.ensureFault n = none

theorem StorePlan.faultless_default : StorePlan.Faultless {} where
  create _ := rfl
  sink _ := SinkPlan.takes_default
  openFile _ := rfl
  source _ bs := Source.content_ofBytes bs
  ensure _ := rfl

/-- A store whose plan holds no faults is reliable. -/
def PlannedStore.reliable : Reliable PlannedStore where
  ok w := w.plan.Faultless
  files := get?
  ensure {w} p h := by
    refine ⟨w.record .ensureDirectory p true, ?_, h, rfl⟩
    show PlannedStore.ensureDirectory w p = _
    rw [PlannedStore.ensureDirectory, h.ensure]
  create {w p} h hp := by
    refine ⟨{ plan := w.plan.sinkPlan (w.count .create) }, (w.record .create p true).put p [],
      ?_, h, h.sink _, rfl, ?_⟩
    · show PlannedStore.create w p = _
      simp [PlannedStore.create, h.create, hp]
    · intro q hq
      rw [get?_put, if_neg hq]
      rfl
  taken {w p} h hp := by
    refine ⟨PlannedStore.taken, w.record .create p false, ?_, rfl, h, rfl⟩
    show PlannedStore.create w p = _
    simp [PlannedStore.create, h.create, Option.isSome_iff_ne_none.mpr hp]
  keep {w} p sink h := by
    refine ⟨h, ?_, ?_⟩
    · show (w.put p sink.bytes).get? p = _
      rw [get?_put, if_pos rfl]
    · intro q hq
      show (w.put p sink.bytes).get? q = _
      rw [get?_put, if_neg hq]
  openFile {w p bs} h hp := by
    refine ⟨w.plan.source (w.count .openFile) bs, w.record .openFile p true, ?_, h.source _ bs,
      h, rfl⟩
    show PlannedStore.openFile w p = _
    simp [PlannedStore.openFile, h.openFile, hp]

end ExternalSort
