/-
What becomes of items that are offered one after the other.

A generator takes items in up to the first one that fails (`FailsOn`): that one
is refused by the order, or a spill is due with it and fails.  One that has taken
all of them in holds less than it may hold (`Took`).
-/
import ExternalSort.Proofs.Run.Custody
import ExternalSort.Proofs.Run.Spilling

namespace ExternalSort.RunGenerator

variable {O α W : Type} [ItemOrder O α] [SpillStore W] {b b' : RunGenerator O α} {w w' : W}
  {items as : List α} {e : Failure}

/-- Of some items that are offered in order, the first one that is not taken in
fails by the error `e`: the order refuses it, or a spill is due then and fails. -/
inductive FailsOn (b : RunGenerator O α) (w : W) (items : List α) : Failure → Prop
  | refused {before after : List α} {a : α} {b' : RunGenerator O α} {w' : W} {e : OrderError} :
      items = before ++ a :: after → b.addAll w before = (.ok (), b', w') →
      ItemOrder.accept b'.order a = .error e → FailsOn b w items (.ofCompare e)
  | unspilled {before after : List α} {a : α} {b' b'' : RunGenerator O α} {w' w'' : W} {o : O}
      {e : Failure} : items = before ++ a :: after → b.addAll w before = (.ok (), b', w') →
      ItemOrder.accept b'.order a = .ok o → b'.settings.threshold ≤ (b'.hold o a).heldSize →
      (b'.hold o a).spill w' = (.error e, b'', w'') → FailsOn b w items e

theorem addAll_append (h : b.addAll w as = (.ok (), b', w')) (items : List α) :
    b.addAll w (as ++ items) = b'.addAll w' items := by
  induction as generalizing b w with
  | nil =>
      obtain ⟨-, hrest⟩ := Prod.mk.inj h
      obtain ⟨rfl, rfl⟩ := Prod.mk.inj hrest
      rfl
  | cons a as ih =>
      rw [addAll] at h
      rw [List.cons_append, addAll]
      split at h
      · exact absurd (Prod.mk.inj h).1 (by simp)
      · exact ih h

theorem failsOn_of_add {a : α} (h : b.add w a = (.error e, b', w')) (after : List α) :
    FailsOn b w (a :: after) e := by
  cases hacc : ItemOrder.accept b.order a with
  | error x =>
      rw [add_refused hacc] at h
      obtain rfl := Except.error.inj (Prod.mk.inj h).1
      exact .refused (List.nil_append _).symm rfl hacc
  | ok o =>
      rw [add_accepted hacc] at h
      split at h
      · next hdue => exact .unspilled (List.nil_append _).symm rfl hacc hdue h
      · exact absurd (Prod.mk.inj h).1 (by simp)

theorem FailsOn.prepend (h : FailsOn b' w' items e) (hadd : b.addAll w as = (.ok (), b', w')) :
    FailsOn b w (as ++ items) e := by
  cases h with
  | refused hitems hbefore hacc =>
      rw [hitems, ← List.append_assoc]
      exact .refused rfl ((addAll_append hadd _).trans hbefore) hacc
  | unspilled hitems hbefore hacc hdue hspill =>
      rw [hitems, ← List.append_assoc]
      exact .unspilled rfl ((addAll_append hadd _).trans hbefore) hacc hdue hspill

theorem FailsOn.append (h : FailsOn b w items e) (as : List α) : FailsOn b w (items ++ as) e := by
  cases h with
  | refused hitems hbefore hacc =>
      rw [hitems, List.append_assoc]
      exact .refused rfl hbefore hacc
  | unspilled hitems hbefore hacc hdue hspill =>
      rw [hitems, List.append_assoc]
      exact .unspilled rfl hbefore hacc hdue hspill

theorem addAll_error {before after : List α} {a : α}
    (hadd : b.addAll w before = (.ok (), b', w'))
    (h : (b'.add w' a).1 = .error e) : (b.addAll w (before ++ a :: after)).1 = .error e := by
  rw [addAll_append hadd, addAll]
  split
  · next hb =>
    rw [hb] at h
    exact h
  · next hb =>
    rw [hb] at h
    exact absurd h (by simp)

theorem failsOn_iff : FailsOn b w items e ↔ (b.addAll w items).1 = .error e := by
  constructor
  · intro h
    cases h with
    | refused hitems hbefore hacc =>
        rw [hitems]
        exact addAll_error hbefore (congrArg Prod.fst (add_refused hacc _))
    | unspilled hitems hbefore hacc hdue hspill =>
        rw [hitems]
        refine addAll_error hbefore ?_
        rw [add_accepted hacc, if_pos hdue, hspill]
  · intro h
    -- Each item that is taken in goes before the ones of the hypothesis.
    induction items generalizing b w with
    | nil => exact absurd h (by simp [addAll])
    | cons a items ih =>
        rw [addAll] at h
        split at h
        · next hadd =>
          obtain rfl := Except.error.inj h
          exact failsOn_of_add hadd items
        · next b₁ w₁ hadd =>
          have hone : b.addAll w [a] = (.ok (), b₁, w₁) := by
            rw [addAll, hadd]
            rfl
          exact (ih h).prepend hone

/-- What is known of a generator that has taken some items in: it has counted them,
and what it holds in memory is below the threshold. -/
structure Took (b : RunGenerator O α) (items : List α) (b' : RunGenerator O α) : Prop where
  settings_eq : b'.settings = b.settings
  added_eq : b'.added = b.added + items.length
  below : b'.heldSize < b.settings.threshold

omit [ItemOrder O α] in
theorem Took.trans {c : RunGenerator O α} (h : b.Took as b') (k : b'.Took items c) :
    b.Took (as ++ items) c where
  settings_eq := k.settings_eq.trans h.settings_eq
  added_eq := by rw [k.added_eq, h.added_eq, List.length_append, Nat.add_assoc]
  below := h.settings_eq ▸ k.below

theorem took_of_add {a : α} (h : b.add w a = (.ok (), b', w')) (hpos : 0 < b.settings.threshold) :
    b.Took [a] b' := by
  cases hacc : ItemOrder.accept b.order a with
  | error e =>
      rw [add_refused hacc] at h
      exact absurd (Prod.mk.inj h).1 (by simp)
  | ok o =>
      rw [add_accepted hacc] at h
      split at h
      · have hs := (b.hold o a).spilled w
        rw [h] at hs
        cases hs with
        | written => exact ⟨rfl, rfl, hpos⟩
      · next hdue =>
        obtain ⟨-, hrest⟩ := Prod.mk.inj h
        obtain ⟨rfl, rfl⟩ := Prod.mk.inj hrest
        exact ⟨rfl, rfl, Nat.lt_of_not_le hdue⟩

theorem took_of_addAll (h : b.addAll w items = (.ok (), b', w'))
    (hlt : b.heldSize < b.settings.threshold) : b.Took items b' := by
  induction items generalizing b w with
  | nil =>
      obtain ⟨-, hrest⟩ := Prod.mk.inj h
      obtain ⟨rfl, rfl⟩ := Prod.mk.inj hrest
      exact ⟨rfl, rfl, hlt⟩
  | cons a items ih =>
      rw [addAll] at h
      split at h
      · exact absurd (Prod.mk.inj h).1 (by simp)
      · next b₁ w₁ hadd =>
        have ha := took_of_add hadd (Nat.lt_of_le_of_lt (Nat.zero_le _) hlt)
        exact ha.trans (ih h (ha.settings_eq ▸ ha.below))

/-! ## Files -/

/-- How many files are written while items are offered: one for each item with which
a spill is due and is done.  After the first one that fails nothing is offered. -/
def spillsDone (b : RunGenerator O α) (w : W) : List α → Nat
  | [] => 0
  | a :: items =>
    match ItemOrder.accept b.order a with
    | .error _ => 0
    | .ok order =>
      if b.settings.threshold ≤ (b.hold order a).heldSize then
        match (b.hold order a).spill w with
        | (.error _, _, _) => 0
        | (.ok (), b, w) => spillsDone b w items + 1
      else spillsDone (b.hold order a) w items

/-- How many files are written when a generator is closed: one if it has spilled
before, holds items in memory, and the spill of these is done. -/
def closingSpills (b : RunGenerator O α) (w : W) : Nat :=
  if b.files.isEmpty || b.buffer.isEmpty then 0
  else match b.spill w with
    | (.error _, _, _) => 0
    | (.ok (), _, _) => 1

theorem spill_files (b : RunGenerator O α) (w : W) :
    (b.spill w).2.1.files.length =
      b.files.length + (match (b.spill w).1 with
        | .error _ => 0
        | .ok () => 1) := by
  have hs := b.spilled w
  generalize b.spill w = r at hs
  cases hs with
  | unsorted => rfl
  | uncreated => rfl
  | unwritten => rfl
  | written => simp

theorem addAll_files (b : RunGenerator O α) (w : W) (items : List α) :
    (b.addAll w items).2.1.files.length = b.files.length + b.spillsDone w items := by
  induction items generalizing b w with
  | nil => rfl
  | cons a items ih =>
      rw [addAll, spillsDone]
      cases hacc : ItemOrder.accept b.order a with
      | error e =>
          rw [add_refused hacc]
          rfl
      | ok o =>
          rw [add_accepted hacc]
          dsimp only
          by_cases hdue : b.settings.threshold ≤ (b.hold o a).heldSize
          · have hf := (b.hold o a).spill_files w
            rw [if_pos hdue, if_pos hdue]
            rcases hs : (b.hold o a).spill w with ⟨e | u, c, w'⟩
            · rw [hs] at hf
              exact hf
            · rw [hs] at hf
              dsimp only at hf ⊢
              rw [ih, hf, Nat.add_assoc, Nat.add_comm 1]
              rfl
          · rw [if_neg hdue, if_neg hdue]
            exact ih _ _

/-- What is handed over is in all files that were written. -/
theorem close_files {runs : List (Run α)} (h : b.close w = (.ok runs, w')) :
    (Run.paths runs).length = b.files.length + b.closingSpills w := by
  have hpaths : ∀ c : RunGenerator O α, (Run.paths c.fileRuns).length = c.files.length := by
    intro c
    rw [paths_fileRuns, owned, List.length_map]
  rw [close] at h
  rw [closingSpills]
  by_cases hempty : b.files.isEmpty = true
  · rw [if_pos hempty] at h
    rw [hempty, List.isEmpty_iff.mp hempty]
    split at h
    · exact absurd (Prod.mk.inj h).1 (by simp)
    · obtain rfl := Except.ok.inj (Prod.mk.inj h).1
      rfl
  rw [if_neg hempty] at h
  rw [Bool.eq_false_iff.mpr hempty, Bool.false_or]
  split at h
  · next hb =>
    obtain rfl := Except.ok.inj (Prod.mk.inj h).1
    rw [if_pos hb]
    exact hpaths b
  next hb =>
  rw [if_neg hb]
  have hf := b.spill_files w
  revert h hf
  generalize b.spill w = r
  obtain ⟨e | u, c, w₁⟩ := r
  · intro h
    exact absurd (Prod.mk.inj h).1 (by simp)
  · intro h hf
    obtain rfl := Except.ok.inj (Prod.mk.inj h).1
    exact (hpaths c).trans hf

theorem close_runs_ne_nil {runs : List (Run α)} (h : b.close w = (.ok runs, w')) : runs ≠ [] := by
  rintro rfl
  have hfiles := close_files h
  have hnone : b.files = [] := by
    rw [Run.paths, List.filterMap_nil, List.length_nil] at hfiles
    exact List.length_eq_zero_iff.mp (by omega)
  rw [close, hnone] at h
  simp only [List.isEmpty_nil, if_true] at h
  split at h
  · exact absurd (Prod.mk.inj h).1 (by simp)
  · exact absurd (Prod.mk.inj h).1 (by simp)

end ExternalSort.RunGenerator
