/-
What becomes of the files that a stream creates.

A stream that works creates files, which are its own from then on, and opens
files; it removes none (`Works`).  All its files are removed at once, when
it is over, before anybody hears of that (`Fate`).  So whatever has happened
to a store is some work, and after it at most one release of all files that
came of the work.
-/
import ExternalSort.Proofs.Stream.Commands
import ExternalSort.Store.Basic
import ExternalSort.Stream.Heard

namespace ExternalSort

variable {W α : Type} [SpillStore W]

/-- `Works w ps w' ps'`: who had the files `ps` in the store `w` has created
and opened files, and has the files `ps'` in the store `w'`. -/
inductive Works : W → List Path → W → List Path → Prop
  | refl (w : W) (ps : List Path) : Works w ps w ps
  | refused {w w₁ w' : W} {ps ps' : List Path} {p : Path} {f : Fault} :
      SpillStore.create w p = (.error f, w₁) → Works w₁ ps w' ps' → Works w ps w' ps'
  | created {w w₁ w' : W} {ps ps' : List Path} {p : Path} {sink : Sink} (written : Sink) :
      SpillStore.create w p = (.ok sink, w₁) →
        Works (SpillStore.keep w₁ p written) (ps ++ [p]) w' ps' → Works w ps w' ps'
  | opened {w w₁ w' : W} {ps ps' : List Path} {p : Path} {r : Except Fault Source} :
      SpillStore.openFile w p = (r, w₁) → Works w₁ ps w' ps' → Works w ps w' ps'

variable {w w₁ w' : W} {ps ps₁ ps' qs : List Path}

theorem Works.trans (h : Works w ps w₁ ps₁) (k : Works w₁ ps₁ w' ps') : Works w ps w' ps' := by
  induction h with
  | refl => exact k
  | refused hc _ ih => exact .refused hc (ih k)
  | created written hc _ ih => exact .created written hc (ih k)
  | opened ho _ ih => exact .opened ho (ih k)

theorem SpillStore.tryRemove_snd (w : W) (p : Path) : (tryRemove w p).2 = (remove w p).2 := by
  rw [tryRemove]
  split
  · next h => rw [h]
  · next h => rw [h]

theorem SpillStore.removeAll_append (w : W) (ps qs : List Path) :
    removeAll w (ps ++ qs) = removeAll (removeAll w ps) qs :=
  List.foldl_append

/-- After some work all files were removed, in some order. -/
def Released (w : W) (ps : List Path) (w' : W) : Prop :=
  ∃ w₁ ps₁ qs, Works w ps w₁ ps₁ ∧ qs.Perm ps₁ ∧ w' = SpillStore.removeAll w₁ qs

theorem Released.of_files (w : W) (ps : List Path) :
    Released w ps (SpillStore.removeAll w ps) :=
  ⟨w, ps, ps, .refl w ps, .refl ps, rfl⟩

theorem Released.after (k : Released w₁ ps₁ w') (h : Works w ps w₁ ps₁) : Released w ps w' := by
  obtain ⟨w₂, ps₂, qs, hw, hp, rfl⟩ := k
  exact ⟨w₂, ps₂, qs, h.trans hw, hp, rfl⟩

/-! ## Fates -/

/-- Nobody hears of an ending. -/
def Heard.Unended (hs : List (Heard W α)) : Prop := ∀ h ∈ hs, h.event.ending? = none

/-- What has become of a stream that had the files `ps` in the store `w`.
Either it goes on, or it is over and its files were removed before its
ending was heard. -/
inductive Fate (w : W) (ps : List Path) (hs : List (Heard W α)) (o : Supply α) (w' : W)
    (ps' : List Path) : Prop
  | goesOn : Works w ps w' ps' → o.isOpen = true → Heard.Unended hs → Fate w ps hs o w' ps'
  | finished : Released w ps w' → o.isOpen = false → ps' = [] →
      (∀ h ∈ hs, h.event.ending? ≠ none → h.store = w') → Fate w ps hs o w' ps'

variable {hs ks : List (Heard W α)} {o : Supply α}

namespace Fate

theorem rest (w : W) (ps : List Path) (h : o.isOpen = true) :
    Fate w ps ([] : List (Heard W α)) o w ps :=
  .goesOn (.refl w ps) h fun _ hm => absurd hm List.not_mem_nil

theorem after (k : Fate w₁ ps₁ ks o w' ps') (h : Works w ps w₁ ps₁) (hu : Heard.Unended hs) :
    Fate w ps (hs ++ ks) o w' ps' := by
  cases k with
  | goesOn hw ho hk =>
      refine .goesOn (h.trans hw) ho ?_
      intro e he
      rcases List.mem_append.mp he with he | he
      · exact hu e he
      · exact hk e he
  | finished hr ho hp hk =>
      refine .finished (hr.after h) ho hp ?_
      intro e he hne
      rcases List.mem_append.mp he with he | he
      · exact absurd (hu e he) hne
      · exact hk e he hne

theorem finish (h : Released w ps w') (o : Supply α) (e : Ending) :
    Fate w ps (Heard.ofEvents w' (o.finish e).2) (o.finish e).1 w' [] := by
  refine .finished h (o.finish_isOpen e) rfl ?_
  intro k hk _
  obtain ⟨ev, -, rfl⟩ := List.mem_map.mp hk
  rfl

theorem send (h : Works w ps w' ps') (ho : o.isOpen = true) (a : α) :
    Fate w ps (Heard.ofEvents w' (o.send a).2) (o.send a).1 w' ps' := by
  refine .goesOn h ?_ ?_
  · rw [Supply.isOpen_iff] at ho ⊢
    exact (o.send_status a).trans ho
  · intro k hk
    obtain ⟨ev, hev, rfl⟩ := List.mem_map.mp hk
    rw [Supply.send] at hev
    split at hev
    · exact absurd hev List.not_mem_nil
    · rw [List.mem_singleton.mp hev]
      rfl

end Fate

/-- A process that goes on only as long as its supply is open has the fate
that its turns have. -/
theorem Turn.iterate_fate {σ : Type} {turn : σ → Turn σ (Heard W α)} {size : σ → Nat}
    {shrinks : ∀ s, (turn s).again = true → size (turn s).state < size s} {store : σ → W}
    {files : σ → List Path} {supply : σ → Supply α}
    (step : ∀ s, (supply s).isOpen = true →
      Fate (store s) (files s) (turn s).events (supply (turn s).state) (store (turn s).state)
        (files (turn s).state))
    (stops : StopsWhenOver turn supply) (s : σ) (ho : (supply s).isOpen = true) :
    Fate (store s) (files s) (iterate turn size shrinks s).2
      (supply (iterate turn size shrinks s).1) (store (iterate turn size shrinks s).1)
      (files (iterate turn size shrinks s).1) := by
  refine iterate_last
    (P := fun t hs => Works (store s) (files s) (store t) (files t) ∧ (supply t).isOpen = true ∧
      Heard.Unended hs)
    (Q := fun t hs => Fate (store s) (files s) hs (supply t) (store t) (files t))
    ?_ ?_ s ⟨.refl _ _, ho, fun _ hm => absurd hm List.not_mem_nil⟩
  · rintro t hs ⟨hw, ho, hu⟩ ha
    cases (step t ho).after hw hu with
    | goesOn hw ho hu => exact ⟨hw, ho, hu⟩
    | finished _ ho => exact absurd ((stops t ha).symm.trans ho) (by simp)
  · rintro t hs ⟨hw, ho, hu⟩ _
    exact (step t ho).after hw hu

end ExternalSort
