/-
What an owner does to a store that it shares.

Work creates files in nobody's place and changes no other file (`Works.grows`);
a release removes the files that came of it and no other (`Released.deals`).
So whatever an owner does, what is left is its own, the files of everybody
else are as they were, and so are those that it keeps (`Honest.Deals`).  This
takes a store that does not lie and that removes what it is told to.
-/
import ExternalSort.Proofs.Run.Custody
import ExternalSort.Proofs.Store.Honest

namespace ExternalSort

variable {α W : Type} [SpillStore W] {V : Honest W} {w w₁ w' : W} {ps ps₁ ps' qs : List Path}

namespace Honest

/-- Opening a file changes none, and what is read of the file is what is in it,
up to the first fault. -/
def Opens (V : Honest W) : Prop :=
  ∀ {w w' : W} {p : Path} {r : Except Fault Source}, V.ok w →
    SpillStore.openFile w p = (r, w') → V.ok w' ∧ V.files w' = V.files w ∧
      ∀ source, r = .ok source → ∃ bs, V.files w p = some bs ∧
        (Source.content source).1 <+: bs ∧
        ((Source.content source).2 = none → (Source.content source).1 = bs)

/-- A call for the directory, whether or not it fails, breaks no promise. -/
def Prepares (V : Honest W) : Prop :=
  ∀ {w w' : W} {p : Path} {r : Except Fault Unit}, V.ok w →
    SpillStore.ensureDirectory w p = (r, w') → V.ok w'

/-- Some files, each of them once, are in the store. -/
structure Has (V : Honest W) (w : W) (ps : List Path) : Prop where
  nodup : ps.Nodup
  present : ∀ p ∈ ps, V.files w p ≠ none

/-- The owner of the files `ps` has created some more. -/
structure Grows (V : Honest W) (w : W) (ps : List Path) (w' : W) (ps' : List Path) : Prop where
  ok : V.ok w'
  has : V.Has w' ps'
  unchanged : ∀ p, V.files w p ≠ none → V.files w' p = V.files w p
  subset : ps ⊆ ps'
  fresh : ∀ p ∈ ps', p ∈ ps ∨ V.files w p = none

/-- The owner of the files `ps` has dealt with the store, and has the files
`ps'` then. -/
structure Deals (V : Honest W) (w : W) (ps : List Path) (w' : W) (ps' : List Path) : Prop where
  ok : V.ok w'
  has : V.Has w' ps'
  others : ∀ p, V.files w p ≠ none → p ∉ ps → V.files w' p = V.files w p
  kept : ∀ p ∈ ps, p ∈ ps' → V.files w' p = V.files w p
  fresh : ∀ p ∈ ps', p ∈ ps ∨ V.files w p = none

theorem Has.nil (V : Honest W) (w : W) : V.Has w [] :=
  ⟨.nil, fun _ h => absurd h List.not_mem_nil⟩

/-! ## Work -/

theorem Grows.refl (hw : V.ok w) (h : V.Has w ps) : V.Grows w ps w ps :=
  ⟨hw, h, fun _ _ => rfl, List.Subset.refl ps, fun _ => .inl⟩

theorem Grows.trans (h : V.Grows w ps w₁ ps₁) (k : V.Grows w₁ ps₁ w' ps') :
    V.Grows w ps w' ps' where
  ok := k.ok
  has := k.has
  unchanged p hp := by
    have hp₁ := h.unchanged p hp
    exact (k.unchanged p (hp₁ ▸ hp)).trans hp₁
  subset := List.Subset.trans h.subset k.subset
  fresh p hp := by
    rcases k.fresh p hp with hp | hnone
    · exact h.fresh p hp
    · refine .inr ?_
      by_contra hp
      exact (h.unchanged p hp ▸ hp) hnone

theorem Grows.of_files (hw : V.ok w₁) (hfiles : V.files w₁ = V.files w) (h : V.Has w ps) :
    V.Grows w ps w₁ ps where
  ok := hw
  has := ⟨h.nodup, fun p hp => hfiles ▸ h.present p hp⟩
  unchanged p _ := congrFun hfiles p
  subset := List.Subset.refl ps
  fresh _ := .inl

/-- A file that is created is one more, and is in nobody's place. -/
theorem Grows.of_create (hw : V.ok w) (h : V.Has w ps) {p : Path} {sink : Sink}
    (hc : SpillStore.create w p = (.ok sink, w₁)) (written : Sink) :
    V.Grows w ps (SpillStore.keep w₁ p written) (ps ++ [p]) := by
  obtain ⟨hw₁, hnone, -, hothers⟩ := V.create hw hc
  obtain ⟨hok, hkept, hothers'⟩ := V.keep p written hw₁
  have hunchanged : ∀ q, V.files w q ≠ none →
      V.files (SpillStore.keep w₁ p written) q = V.files w q := by
    intro q hq
    have hne : q ≠ p := by
      rintro rfl
      exact hq hnone
    exact (hothers' q hne).trans (hothers q hne)
  have hnew : p ∉ ps := fun hp => h.present p hp hnone
  refine ⟨hok, ⟨?_, ?_⟩, hunchanged, List.subset_append_left ps [p], ?_⟩
  · refine List.nodup_append.mpr ⟨h.nodup, List.pairwise_singleton _ p, ?_⟩
    rintro q hq r hr rfl
    exact hnew (List.mem_singleton.mp hr ▸ hq)
  · intro q hq
    rcases List.mem_append.mp hq with hq | hq
    · exact hunchanged q (h.present q hq) ▸ h.present q hq
    · rw [List.mem_singleton.mp hq, hkept]
      exact Option.some_ne_none _
  · intro q hq
    rcases List.mem_append.mp hq with hq | hq
    · exact .inl hq
    · exact .inr (List.mem_singleton.mp hq ▸ hnone)

theorem Grows.deals (h : V.Grows w ps w' ps') (hhas : V.Has w ps) : V.Deals w ps w' ps' where
  ok := h.ok
  has := h.has
  others p hp _ := h.unchanged p hp
  kept p hp _ := h.unchanged p (hhas.present p hp)
  fresh := h.fresh

/-! ## Removal -/

/-- Files that are removed are gone, and no others. -/
theorem Removes.removeAll (hr : V.Removes) (hw : V.ok w) (h : V.Has w qs) :
    V.ok (SpillStore.removeAll w qs) ∧ (∀ p ∈ qs, V.files (SpillStore.removeAll w qs) p = none) ∧
      ∀ p, p ∉ qs → V.files (SpillStore.removeAll w qs) p = V.files w p := by
  induction qs generalizing w with
  | nil => exact ⟨hw, fun _ hp => absurd hp List.not_mem_nil, fun _ _ => rfl⟩
  | cons q qs ih =>
      obtain ⟨hq, hnodup⟩ := List.nodup_cons.mp h.nodup
      obtain ⟨w₁, hremove, hw₁, hgone, hothers⟩ := hr hw (h.present q List.mem_cons_self)
      have hcons : SpillStore.removeAll w (q :: qs) = SpillStore.removeAll w₁ qs := by
        rw [SpillStore.removeAll, List.foldl_cons, SpillStore.tryRemove_snd, hremove]
        rfl
      have hne : ∀ p ∈ qs, p ≠ q := by
        rintro p hp rfl
        exact hq hp
      have hhas : V.Has w₁ qs :=
        ⟨hnodup, fun p hp => hothers p (hne p hp) ▸ h.present p (List.mem_cons_of_mem q hp)⟩
      obtain ⟨hok, hall, hleft⟩ := ih hw₁ hhas
      rw [hcons]
      refine ⟨hok, List.forall_mem_cons.mpr ⟨(hleft q hq).trans hgone, hall⟩, ?_⟩
      intro p hp
      rw [List.mem_cons, not_or] at hp
      exact (hleft p hp.2).trans (hothers p hp.1)

theorem Grows.remove (h : V.Grows w ps w₁ (ps' ++ qs)) (hhas : V.Has w ps) (hr : V.Removes) :
    V.Deals w ps (SpillStore.removeAll w₁ qs) ps' := by
  obtain ⟨hleft, hremoved, hapart⟩ := List.nodup_append.mp h.has.nodup
  have hqs : V.Has w₁ qs := ⟨hremoved, fun p hp => h.has.present p (List.mem_append_right ps' hp)⟩
  obtain ⟨hok, -, hothers⟩ := hr.removeAll h.ok hqs
  have hstays : ∀ p ∈ ps', p ∉ qs := fun p hp hq => hapart p hp p hq rfl
  refine ⟨hok, ⟨hleft, ?_⟩, ?_, ?_, ?_⟩
  · intro p hp
    rw [hothers p (hstays p hp)]
    exact h.has.present p (List.mem_append_left qs hp)
  · intro p hp hnot
    have hq : p ∉ qs := fun hq =>
      (h.fresh p (List.mem_append_right ps' hq)).elim hnot hp
    exact (hothers p hq).trans (h.unchanged p hp)
  · intro p hp hp'
    exact (hothers p (hstays p hp')).trans (h.unchanged p (hhas.present p hp))
  · exact fun p hp => h.fresh p (List.mem_append_left qs hp)

end Honest

/-! ## What streams do -/

theorem Works.grows (h : Works w ps w' ps') (hw : V.ok w) (hhas : V.Has w ps) (ho : V.Opens) :
    V.Grows w ps w' ps' := by
  induction h with
  | refl w ps => exact .refl hw hhas
  | refused hc _ ih =>
      obtain ⟨hw₁, hfiles⟩ := V.refuse hw hc
      have h₁ := Honest.Grows.of_files hw₁ hfiles hhas
      exact h₁.trans (ih h₁.ok h₁.has)
  | created written hc _ ih =>
      have h₁ := Honest.Grows.of_create hw hhas hc written
      exact h₁.trans (ih h₁.ok h₁.has)
  | opened hopen _ ih =>
      obtain ⟨hw₁, hfiles, -⟩ := ho hw hopen
      have h₁ := Honest.Grows.of_files hw₁ hfiles hhas
      exact h₁.trans (ih h₁.ok h₁.has)

section Deals

variable (hw : V.ok w) (hhas : V.Has w ps) (hr : V.Removes) (ho : V.Opens)
include hw hhas hr ho

theorem Released.deals (h : Released w ps w') : V.Deals w ps w' [] := by
  obtain ⟨w₁, ps₁, qs, hworks, hperm, rfl⟩ := h
  have hgrows := hworks.grows hw hhas ho
  -- The order in which they are removed does not matter to the files.
  have hgrows : V.Grows w ps w₁ ([] ++ qs) :=
    { ok := hgrows.ok
      has := ⟨hperm.nodup_iff.mpr hgrows.has.nodup,
        fun p hp => hgrows.has.present p (hperm.subset hp)⟩
      unchanged := hgrows.unchanged
      subset := List.Subset.trans hgrows.subset hperm.symm.subset
      fresh := fun p hp => hgrows.fresh p (hperm.subset hp) }
  exact hgrows.remove hhas hr

theorem Fate.deals {hs : List (Heard W α)} {o : Supply α} (h : Fate w ps hs o w' ps') :
    V.Deals w ps w' ps' := by
  cases h with
  | goesOn hworks => exact (hworks.grows hw hhas ho).deals hhas
  | finished hreleased _ hnone =>
      rw [hnone]
      exact hreleased.deals hw hhas hr ho

theorem RunGenerator.Leaves.deals {O : Type} {r : Except Failure Unit} {b : RunGenerator O α}
    (h : Leaves w ps r b w') : V.Deals w ps w' b.owned := by
  cases r with
  | ok u => exact (Works.grows h hw hhas ho).deals hhas
  | error e =>
      obtain ⟨w₁, qs, hworks, rfl⟩ := h
      exact (hworks.grows hw hhas ho).remove hhas hr

end Deals

/-! ## A store that gives what it has -/

/-- What is read of a file is what is in it, up to the first fault. -/
def StorePlan.Candid (plan : StorePlan) : Prop :=
  ∀ n bs, (Source.content (plan.source n bs)).1 <+: bs ∧
    ((Source.content (plan.source n bs)).2 = none → (Source.content (plan.source n bs)).1 = bs)

namespace PlannedStore

/-- A store whose removals do not fail, and whose files give what is in them. -/
def candid : Honest PlannedStore where
  ok w := honest.ok w ∧ w.plan.Candid
  files := get?
  create h hc := by
    obtain ⟨hok, hrest⟩ := honest.create h.1 hc
    obtain ⟨-, rfl⟩ := create_ok hc
    exact ⟨⟨hok, h.2⟩, hrest⟩
  refuse h hc := by
    obtain rfl := create_error hc
    exact ⟨h, rfl⟩
  keep p sink h := ⟨h, (honest.keep p sink h.1).2⟩

theorem plan_remove (w : PlannedStore) (p : Path) : (SpillStore.remove w p).2.plan = w.plan := by
  show (PlannedStore.remove w p).2.plan = w.plan
  rw [PlannedStore.remove]
  split
  · rfl
  split <;> rfl

theorem candid_removes : candid.Removes := by
  intro w p h hp
  obtain ⟨w', hremove, hok, hrest⟩ := honest_removes h.1 hp
  have hplan := plan_remove w p
  rw [hremove] at hplan
  exact ⟨w', hremove, ⟨hok, hplan ▸ h.2⟩, hrest⟩

theorem candid_opens : candid.Opens := by
  intro w w' p r h hopen
  obtain ⟨b, rfl⟩ := openFile_eq hopen
  refine ⟨h, rfl, ?_⟩
  rintro source rfl
  have hopen : PlannedStore.openFile w p = (.ok source, w.record .openFile p b) := hopen
  unfold openFile at hopen
  dsimp only at hopen
  split at hopen
  · exact absurd (Prod.mk.inj hopen).1 (by simp)
  split at hopen
  · exact absurd (Prod.mk.inj hopen).1 (by simp)
  next bs hbs =>
  obtain rfl := Except.ok.inj (Prod.mk.inj hopen).1
  exact ⟨bs, hbs, h.2 _ bs⟩

theorem candid_prepares : candid.Prepares := by
  intro w w' p r h he
  have he : PlannedStore.ensureDirectory w p = (r, w') := he
  rw [ensureDirectory] at he
  split at he
  · exact (Prod.mk.inj he).2 ▸ h
  · exact (Prod.mk.inj he).2 ▸ h

end PlannedStore

end ExternalSort
