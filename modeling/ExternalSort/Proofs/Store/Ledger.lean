/-
The calls to a store, and the files in it, as a ledger.

Of the files that a stream has created some are its own, and the others were
removed.  The ledger of a store whose faults are planned says what is in the
store and how often each file was created and removed.  Work enters files
into it, and their removal moves them to the other side (`Ledger.works`,
`Ledger.removeAll`).
-/
import ExternalSort.Proofs.Store.Custody
import ExternalSort.Proofs.Store.Reliable

namespace ExternalSort

namespace PlannedStore

/-- How often a file was created. -/
def creations (w : PlannedStore) (p : Path) : Nat := w.calls.countP (· == ⟨.create, p, true⟩)

/-- How often it was tried to remove a file. -/
def removals (w : PlannedStore) (p : Path) : Nat :=
  w.calls.countP fun c => c.action == .remove && c.path == p

variable {w w' : PlannedStore} {p q : Path}

/-! ## Calls -/

theorem creations_record (w : PlannedStore) (a : StoreAction) (p q : Path) (b : Bool) :
    (w.record a p b).creations q =
      w.creations q + if a = .create ∧ p = q ∧ b = true then 1 else 0 := by
  simp [creations, record, Array.countP_push]

theorem removals_record (w : PlannedStore) (a : StoreAction) (p q : Path) (b : Bool) :
    (w.record a p b).removals q = w.removals q + if a = .remove ∧ p = q then 1 else 0 := by
  simp [removals, record, Array.countP_push]

theorem create_error {f : Fault} (h : SpillStore.create w p = (.error f, w')) :
    w' = w.record .create p false := by
  have h : PlannedStore.create w p = (.error f, w') := h
  unfold create at h
  dsimp only at h
  split at h
  · exact (Prod.mk.inj h).2.symm
  split at h
  · exact (Prod.mk.inj h).2.symm
  · exact absurd (Prod.mk.inj h).1 (by simp)

theorem create_ok {sink : Sink} (h : SpillStore.create w p = (.ok sink, w')) :
    w.get? p = none ∧ w' = (w.record .create p true).put p [] := by
  have h : PlannedStore.create w p = (.ok sink, w') := h
  unfold create at h
  dsimp only at h
  split at h
  · exact absurd (Prod.mk.inj h).1 (by simp)
  split at h
  · exact absurd (Prod.mk.inj h).1 (by simp)
  · next hp => exact ⟨by simpa using hp, (Prod.mk.inj h).2.symm⟩

theorem openFile_eq {r : Except Fault Source} (h : SpillStore.openFile w p = (r, w')) :
    ∃ b, w' = w.record .openFile p b := by
  have h : PlannedStore.openFile w p = (r, w') := h
  unfold openFile at h
  dsimp only at h
  split at h
  · exact ⟨false, (Prod.mk.inj h).2.symm⟩
  split at h
  · exact ⟨false, (Prod.mk.inj h).2.symm⟩
  · exact ⟨true, (Prod.mk.inj h).2.symm⟩

theorem ensureDirectory_eq {r : Except Fault Unit}
    (h : SpillStore.ensureDirectory w p = (r, w')) : ∃ b, w' = w.record .ensureDirectory p b := by
  have h : PlannedStore.ensureDirectory w p = (r, w') := h
  rw [ensureDirectory] at h
  split at h
  · exact ⟨false, (Prod.mk.inj h).2.symm⟩
  · exact ⟨true, (Prod.mk.inj h).2.symm⟩

theorem get?_erase (w : PlannedStore) (p q : Path) :
    (w.erase p).get? q = if q = p then none else w.get? q := by
  unfold get? erase
  dsimp only
  induction w.files with
  | nil => simp
  | cons f fs ih =>
      obtain ⟨r, bs⟩ := f
      by_cases hr : r = p
      · rw [List.filter_cons_of_neg (by simp [hr]), ih, List.lookup_cons]
        by_cases h : q = p
        · simp [h]
        · simp [h, hr, beq_false_of_ne h]
      · rw [List.filter_cons_of_pos (by simp [hr]), List.lookup_cons, ih, List.lookup_cons]
        by_cases h : q = p
        · simp [h, beq_false_of_ne (Ne.symm hr)]
        · simp [h]

theorem get?_written (w : PlannedStore) (p : Path) (bs : List UInt8) (q : Path) :
    (((w.record .create p true).put p []).put p bs).get? q =
      if q = p then some bs else w.get? q := by
  rw [get?_put, get?_put]
  by_cases hq : q = p
  · rw [if_pos hq, if_pos hq]
  · rw [if_neg hq, if_neg hq, if_neg hq]
    rfl

theorem tryRemove_spec (w : PlannedStore) (p : Path) :
    ∃ w', (SpillStore.tryRemove w p).2 = w' ∧ w'.plan = w.plan ∧
      (∀ q, q ≠ p → w'.get? q = w.get? q) ∧
      ((∀ n, w.plan.removeFault n = none) → w'.get? p = none) ∧
      (∀ q, w'.creations q = w.creations q) ∧
      ∀ q, w'.removals q = w.removals q + if p = q then 1 else 0 := by
  have hrecord : ∀ b, (∀ q, (w.record .remove p b).creations q = w.creations q) ∧
      ∀ q, (w.record .remove p b).removals q = w.removals q + if p = q then 1 else 0 := by
    intro b
    refine ⟨fun q => ?_, fun q => ?_⟩
    · simp [creations_record]
    · simp [removals_record]
  have hsnd : (SpillStore.tryRemove w p).2 = (PlannedStore.remove w p).2 :=
    SpillStore.tryRemove_snd w p
  refine ⟨_, hsnd, ?_⟩
  rw [remove]
  split
  · next f hf =>
    refine ⟨rfl, fun q _ => rfl, ?_, hrecord false⟩
    intro hno
    exact absurd (hf.symm.trans (hno _)) (by simp)
  split
  · refine ⟨rfl, ?_, ?_, hrecord true⟩
    · intro q hq
      rw [get?_erase, if_neg hq]
      rfl
    · intro _
      rw [get?_erase, if_pos rfl]
  · next hp =>
    refine ⟨rfl, fun q _ => rfl, ?_, hrecord false⟩
    intro _
    simpa using hp

end PlannedStore

/-! ## The ledger -/

/-- Since the store was `w₀` the files `ps` and `gone` were created, of which
those of `gone` were removed. -/
structure Ledger (w₀ : PlannedStore) (ps gone : List Path) (w : PlannedStore) : Prop where
  plan : w.plan = w₀.plan
  nodup : (ps ++ gone).Nodup
  fresh : ∀ p ∈ ps ++ gone, w₀.get? p = none
  present : ∀ p ∈ ps, w.get? p ≠ none
  others : ∀ p, p ∉ ps ++ gone → w.get? p = w₀.get? p
  absent : (∀ n, w₀.plan.removeFault n = none) → ∀ p ∈ gone, w.get? p = none
  created : ∀ p, w.creations p = w₀.creations p + (ps ++ gone).count p
  removed : ∀ p, w.removals p = w₀.removals p + gone.count p

namespace Ledger

variable {w₀ w w' : PlannedStore} {ps ps' qs gone : List Path} {p : Path}

theorem refl (w : PlannedStore) : Ledger w [] [] w where
  plan := rfl
  nodup := .nil
  fresh _ h := absurd h List.not_mem_nil
  present _ h := absurd h List.not_mem_nil
  others _ _ := rfl
  absent _ _ h := absurd h List.not_mem_nil
  created _ := rfl
  removed _ := rfl

theorem record (h : Ledger w₀ ps gone w) {a : StoreAction} {b : Bool}
    (hc : ¬(a = .create ∧ b = true)) (hr : a ≠ .remove) (q : Path) :
    Ledger w₀ ps gone (w.record a q b) where
  plan := h.plan
  nodup := h.nodup
  fresh := h.fresh
  present := h.present
  others := h.others
  absent := h.absent
  created p := by
    rw [PlannedStore.creations_record, if_neg fun hp => hc ⟨hp.1, hp.2.2⟩]
    exact h.created p
  removed p := by
    rw [PlannedStore.removals_record, if_neg fun hp => hr hp.1]
    exact h.removed p

theorem create (h : Ledger w₀ ps [] w) (hp : w.get? p = none) (bs : List UInt8) :
    Ledger w₀ (ps ++ [p]) [] (((w.record .create p true).put p []).put p bs) := by
  have hnew : p ∉ ps := fun hm => h.present p hm hp
  have hget := w.get?_written p bs
  have hnil : ps ++ [] = ps := List.append_nil ps
  exact
    { plan := h.plan
      nodup := by
        have hd := h.nodup
        rw [hnil] at hd
        rw [List.append_nil]
        refine List.nodup_append.mpr ⟨hd, by simp, ?_⟩
        intro q hq r hr he
        rw [List.mem_singleton.mp hr] at he
        exact hnew (he ▸ hq)
      fresh := by
        intro q hq
        rw [List.append_nil] at hq
        rcases List.mem_append.mp hq with hq | hq
        · exact h.fresh q (List.mem_append_left _ hq)
        · rw [List.mem_singleton.mp hq, ← h.others p (by rwa [hnil])]
          exact hp
      present := by
        intro q hq
        rw [hget]
        by_cases he : q = p
        · rw [if_pos he]
          exact Option.some_ne_none bs
        · rw [if_neg he]
          rcases List.mem_append.mp hq with hq | hq
          · exact h.present q hq
          · exact absurd (List.mem_singleton.mp hq) he
      others := by
        intro q hq
        simp only [List.append_nil, List.mem_append, List.mem_singleton, not_or] at hq
        rw [hget, if_neg hq.2]
        exact h.others q (by rw [hnil]; exact hq.1)
      absent := fun _ q hq => absurd hq List.not_mem_nil
      created := by
        intro q
        show (w.record .create p true).creations q = _
        rw [PlannedStore.creations_record, h.created q]
        simp only [List.append_nil, List.count_append, List.count_singleton, beq_iff_eq, true_and,
          and_true, Nat.add_assoc]
      removed := by
        intro q
        show (w.record .create p true).removals q = _
        rw [PlannedStore.removals_record, if_neg (by simp)]
        exact h.removed q }

/-- Work keeps the ledger. -/
theorem works (h : Ledger w₀ ps [] w) (hw : Works w ps w' ps') : Ledger w₀ ps' [] w' := by
  induction hw with
  | refl => exact h
  | refused hc _ ih =>
      refine ih ?_
      rw [PlannedStore.create_error hc]
      exact h.record (by simp) (by simp) _
  | created written hc _ ih =>
      refine ih ?_
      obtain ⟨hp, rfl⟩ := PlannedStore.create_ok hc
      exact h.create hp written.bytes
  | opened ho _ ih =>
      refine ih ?_
      obtain ⟨b, rfl⟩ := PlannedStore.openFile_eq ho
      exact h.record (by simp) (by simp) _

theorem perm (h : Ledger w₀ ps gone w) (hp : qs.Perm ps) : Ledger w₀ qs gone w := by
  have hall : (qs ++ gone).Perm (ps ++ gone) := hp.append_right gone
  exact
    { plan := h.plan
      nodup := hall.nodup_iff.mpr h.nodup
      fresh := fun p hm => h.fresh p (hall.subset hm)
      present := fun p hm => h.present p (hp.subset hm)
      others := fun p hm => h.others p fun hq => hm (hall.symm.subset hq)
      absent := h.absent
      created := by
        intro p
        rw [hall.count_eq]
        exact h.created p
      removed := h.removed }

/-- A file that was removed moves to the other side. -/
theorem tryRemove (h : Ledger w₀ (p :: ps) gone w) :
    Ledger w₀ ps (p :: gone) (SpillStore.tryRemove w p).2 := by
  obtain ⟨w', hw', hplan, hothers, hgone, hcreated, hremoved⟩ := w.tryRemove_spec p
  have hall : (ps ++ p :: gone).Perm (p :: ps ++ gone) := List.perm_middle
  have hnew : p ∉ ps ++ gone := (List.nodup_cons.mp h.nodup).1
  rw [hw']
  exact
    { plan := hplan.trans h.plan
      nodup := hall.nodup_iff.mpr h.nodup
      fresh := fun q hq => h.fresh q (hall.subset hq)
      present := by
        intro q hq
        rw [hothers q ?_]
        · exact h.present q (List.mem_cons_of_mem p hq)
        · rintro rfl
          exact hnew (List.mem_append_left _ hq)
      others := by
        intro q hq
        rw [hothers q ?_]
        · exact h.others q fun hm => hq (hall.symm.subset hm)
        · rintro rfl
          exact hq (List.mem_append_right _ List.mem_cons_self)
      absent := by
        intro hno q hq
        have hno' : ∀ n, w.plan.removeFault n = none := by
          rw [h.plan]
          exact hno
        by_cases he : q = p
        · rw [he]
          exact hgone hno'
        · rw [hothers q he]
          rcases List.mem_cons.mp hq with hq | hq
          · exact absurd hq he
          · exact h.absent hno q hq
      created := by
        intro q
        rw [hcreated, hall.count_eq]
        exact h.created q
      removed := by
        intro q
        rw [hremoved, h.removed, List.count_cons]
        simp only [beq_iff_eq, Nat.add_assoc] }

/-- All files can be removed. -/
theorem removeAll (h : Ledger w₀ ps gone w) :
    ∃ gone', Ledger w₀ [] gone' (SpillStore.removeAll w ps) := by
  induction ps generalizing gone w with
  | nil => exact ⟨gone, h⟩
  | cons p ps ih => exact ih h.tryRemove

theorem released (h : Ledger w₀ ps [] w) (hr : Released w ps w') :
    ∃ gone', Ledger w₀ [] gone' w' := by
  obtain ⟨w₁, ps₁, qs, hw, hp, rfl⟩ := hr
  exact ((h.works hw).perm hp).removeAll

end Ledger

/-! ## What the ledger shows -/

/-- The store `w` is the store `w₀` and the files `owned`, and nothing else
has happened to any file than being created and removed. -/
structure Accounted (w₀ : PlannedStore) (owned : List Path) (w : PlannedStore) : Prop where
  /-- Files that were there before are there, and as they were. -/
  untouched : ∀ p bs, w₀.get? p = some bs → w.get? p = some bs
  /-- The others are those that are owned, if removing files does not fail. -/
  exact : (∀ n, w₀.plan.removeFault n = none) →
    ∀ p, (w.get? p).isSome ↔ (w₀.get? p).isSome ∨ p ∈ owned
  /-- None of the files that are owned was there before, and all of them are there. -/
  fresh : ∀ p ∈ owned, w₀.get? p = none ∧ w.get? p ≠ none
  /-- A file was created once at most, and removed once if it was created and
  is not owned any more. -/
  calls : ∀ p, ∃ r, w.removals p = w₀.removals p + r ∧
    w.creations p = w₀.creations p + (r + owned.count p) ∧ r + owned.count p ≤ 1

theorem Ledger.accounted {w₀ w : PlannedStore} {owned gone : List Path}
    (h : Ledger w₀ owned gone w) : Accounted w₀ owned w where
  untouched p bs hp := by
    rw [h.others p fun hm => absurd (h.fresh p hm) (by simp [hp])]
    exact hp
  exact hno p := by
    by_cases hm : p ∈ owned
    · simp [hm, Option.isSome_iff_ne_none, h.present p hm]
    by_cases hg : p ∈ gone
    · simp [hm, h.absent hno p hg, h.fresh p (List.mem_append_right _ hg)]
    · simp [hm, h.others p (by simp [hm, hg])]
  fresh p hp := ⟨h.fresh p (List.mem_append_left _ hp), h.present p hp⟩
  calls p := by
    have hsum : (owned ++ gone).count p = gone.count p + owned.count p := by
      rw [List.count_append, Nat.add_comm]
    refine ⟨gone.count p, h.removed p, ?_, ?_⟩
    · rw [h.created p, hsum]
    · rw [← hsum]
      exact List.nodup_iff_count.mp h.nodup p

end ExternalSort
