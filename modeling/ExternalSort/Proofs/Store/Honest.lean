/-
Stores that may fail but do not lie.

Any call to an honest store may fail.  If it does, no file has changed, and if it
does not, no file has changed but its own.  Every store whose faults are
planned is honest (`PlannedStore.honest`), and so is every store that does not
fail (`Reliable.honest`).  Whether files can be removed is another matter
(`Honest.Removes`).
-/
import ExternalSort.Proofs.Store.Ledger

namespace ExternalSort

/-- What a store that may fail still promises, in the states of `ok`, about the
files it holds. -/
structure Honest (W : Type) [SpillStore W] where
  ok : W → Prop
  files : W → Path → Option (List UInt8)
  /-- No file is created in the place of another. -/
  create : ∀ {w w' : W} {p : Path} {sink : Sink}, ok w →
    SpillStore.create w p = (.ok sink, w') →
      ok w' ∧ files w p = none ∧ sink.bytes = [] ∧ ∀ q, q ≠ p → files w' q = files w q
  refuse : ∀ {w w' : W} {p : Path} {f : Fault}, ok w →
    SpillStore.create w p = (.error f, w') → ok w' ∧ files w' = files w
  keep : ∀ {w : W} (p : Path) (sink : Sink), ok w → ok (SpillStore.keep w p sink) ∧
    files (SpillStore.keep w p sink) p = some sink.bytes ∧
    ∀ q, q ≠ p → files (SpillStore.keep w p sink) q = files w q

namespace Honest

variable {W : Type} [SpillStore W] {V : Honest W}

/-- Whatever file there is can be removed. -/
def Removes (V : Honest W) : Prop :=
  ∀ {w : W} {p : Path}, V.ok w → V.files w p ≠ none →
    ∃ w', SpillStore.remove w p = (.ok (), w') ∧ V.ok w' ∧ V.files w' p = none ∧
      ∀ q, q ≠ p → V.files w' q = V.files w q

theorem Removes.undo (h : V.Removes) {w w₁ : W} {p : Path} (sink : Sink) (hw : V.ok w₁)
    (hnone : V.files w p = none) (hothers : ∀ q, q ≠ p → V.files w₁ q = V.files w q) :
    V.ok (SpillStore.tryRemove (SpillStore.keep w₁ p sink) p).2 ∧
      V.files (SpillStore.tryRemove (SpillStore.keep w₁ p sink) p).2 = V.files w := by
  obtain ⟨hok, hkept, hothers'⟩ := V.keep p sink hw
  obtain ⟨w', hr, hw', hgone, hleft⟩ := h hok (p := p) (by simp [hkept])
  rw [SpillStore.tryRemove, hr]
  refine ⟨hw', ?_⟩
  funext q
  by_cases hq : q = p
  · rw [hq, hnone]
    exact hgone
  · exact (hleft q hq).trans ((hothers' q hq).trans (hothers q hq))

end Honest

/-- A store whose removals do not fail is honest, whatever else fails. -/
def PlannedStore.honest : Honest PlannedStore where
  ok w := ∀ n, w.plan.removeFault n = none
  files := get?
  create {w w' p sink} h hc := by
    have hsink : sink.bytes = [] := by
      have hc : PlannedStore.create w p = (.ok sink, w') := hc
      unfold create at hc
      dsimp only at hc
      split at hc
      · exact absurd (Prod.mk.inj hc).1 (by simp)
      split at hc
      · exact absurd (Prod.mk.inj hc).1 (by simp)
      · obtain rfl := Except.ok.inj (Prod.mk.inj hc).1
        rfl
    obtain ⟨hp, rfl⟩ := create_ok hc
    refine ⟨h, hp, hsink, ?_⟩
    intro q hq
    rw [get?_put, if_neg hq, get?_record]
  refuse h hc := by
    obtain rfl := create_error hc
    exact ⟨h, rfl⟩
  keep {w} p sink h := by
    refine ⟨h, ?_, ?_⟩
    · exact (get?_put w p p sink.bytes).trans (if_pos rfl)
    · intro q hq
      exact (get?_put w p q sink.bytes).trans (if_neg hq)

theorem PlannedStore.honest_removes : PlannedStore.honest.Removes := by
  intro w p h hp
  have hp : (w.get? p).isSome = true := Option.isSome_iff_ne_none.mpr hp
  refine ⟨(w.record .remove p true).erase p, ?_, h, ?_, ?_⟩
  · show PlannedStore.remove w p = _
    rw [PlannedStore.remove, h]
    simp [hp]
  · exact (get?_erase _ p p).trans (if_pos rfl)
  · intro q hq
    exact (get?_erase _ p q).trans (if_neg hq)

/-- A store that does not fail is honest. -/
def Reliable.honest {W : Type} [SpillStore W] (R : Reliable W) : Honest W where
  ok := R.ok
  files := R.files
  create {w w' p sink} h hc := by
    by_cases hp : R.files w p = none
    · obtain ⟨sink₁, w₁, hc₁, hw₁, -, hb, hothers⟩ := R.create h hp
      obtain ⟨hsink, rfl⟩ := Prod.mk.inj (hc₁.symm.trans hc)
      obtain rfl := Except.ok.inj hsink
      exact ⟨hw₁, hp, hb, hothers⟩
    · obtain ⟨f, w₁, hc₁, -⟩ := R.taken h hp
      exact absurd (Prod.mk.inj (hc₁.symm.trans hc)).1 (by simp)
  refuse {w w' p f} h hc := by
    by_cases hp : R.files w p = none
    · obtain ⟨sink₁, w₁, hc₁, -⟩ := R.create h hp
      exact absurd (Prod.mk.inj (hc₁.symm.trans hc)).1 (by simp)
    · obtain ⟨f₁, w₁, hc₁, -, hw₁, hfiles⟩ := R.taken h hp
      obtain ⟨-, rfl⟩ := Prod.mk.inj (hc₁.symm.trans hc)
      exact ⟨hw₁, hfiles⟩
  keep := R.keep

end ExternalSort
