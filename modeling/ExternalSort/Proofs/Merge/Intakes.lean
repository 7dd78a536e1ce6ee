/-
The intakes of a merge, taken together.

What the intakes are still to give are the lists that a greedy merge is
made of.  Topping up and retiring leave their greedy merge as it is, and
taking the least of the first items takes the first one off it
(`takeLeast_cases`): if all intakes are ready, the heads of what they hold
are the heads of what they are to give.
-/
import ExternalSort.Proofs.Merge.Greedy
import ExternalSort.Proofs.Merge.Intake
import ExternalSort.Merge.Basic

namespace ExternalSort.Merge

variable {S α : Type} [FiniteProducer S α] [ForetoldProducer S α]

/-- What each of some intakes is still to give. -/
def contents (ss : List (Intake S α)) : List (List α) := ss.map (·.course.items)

/-- How each of some intakes is to end. -/
def endings (ss : List (Intake S α)) : List Ending := ss.map (·.course.ending)

variable {ss ts : List (Intake S α)} {target : Nat}

theorem contents_congr (h : ts.map Intake.course = ss.map Intake.course) :
    contents ts = contents ss := by
  have := congrArg (List.map Course.items) h
  rwa [List.map_map, List.map_map] at this

theorem endings_congr (h : ts.map Intake.course = ss.map Intake.course) :
    endings ts = endings ss := by
  have := congrArg (List.map Course.ending) h
  rwa [List.map_map, List.map_map] at this

/-! ## Topping up -/

omit [ForetoldProducer S α] in
theorem refill_keeps {P : Intake S α → Prop} {s : Intake S α} (h : P s)
    (ht : P (s.topUp target)) : P (refill target s) := by
  rw [refill]
  split
  · exact ht
  · exact h

theorem listening_refill {s : Intake S α} (h : s.Listening) : (refill target s).Listening :=
  refill_keeps h (Intake.listening_topUp h)

theorem course_refill (target : Nat) (s : Intake S α) :
    (refill target s).course = s.course :=
  refill_keeps (P := fun t => t.course = s.course) rfl Intake.course_topUp

theorem refillAll_ok {ready : Bool} (h : refillAll target ss = .ok (ready, ts))
    (hs : ∀ s ∈ ss, s.Listening) :
    (∀ t ∈ ts, t.Listening) ∧ ts.map Intake.course = ss.map Intake.course ∧
      (ready = true → ∀ t ∈ ts, t.isReady = true) := by
  induction ss generalizing ready ts with
  | nil =>
      obtain ⟨rfl, rfl⟩ := Prod.mk.inj (Except.ok.inj h)
      exact ⟨fun _ h => absurd h List.not_mem_nil, rfl, fun _ _ h => absurd h List.not_mem_nil⟩
  | cons s ss ih =>
      obtain ⟨hl, hls⟩ := List.forall_mem_cons.mp hs
      simp only [refillAll] at h
      split at h
      · exact absurd h (by simp)
      · cases hr : refillAll target ss with
        | error e => exact absurd h (by simp [hr, Except.map])
        | ok r =>
            obtain ⟨ready', ts'⟩ := r
            rw [hr] at h
            obtain ⟨rfl, rfl⟩ := Prod.mk.inj (Except.ok.inj h)
            obtain ⟨hts, hc, hready⟩ := ih hr hls
            refine ⟨List.forall_mem_cons.mpr ⟨listening_refill hl, hts⟩, ?_, ?_⟩
            · rw [List.map_cons, List.map_cons, course_refill, hc]
            · intro hand
              obtain ⟨h₁, h₂⟩ := Bool.and_eq_true_iff.mp hand
              exact List.forall_mem_cons.mpr ⟨h₁, hready h₂⟩

theorem refillAll_error {e : Failure} (h : refillAll target ss = .error e)
    (hs : ∀ s ∈ ss, s.Listening) : .failed e ∈ endings ss := by
  induction ss with
  | nil => exact absurd h (by simp [refillAll])
  | cons s ss ih =>
      obtain ⟨hl, hls⟩ := List.forall_mem_cons.mp hs
      simp only [refillAll] at h
      split at h
      · next e' hf =>
        obtain rfl := Except.error.inj h
        have he := Intake.course_of_failure (listening_refill hl) hf
        rw [course_refill] at he
        exact he ▸ List.mem_cons_self
      · cases hr : refillAll target ss with
        | error e' =>
            rw [hr] at h
            obtain rfl := Except.error.inj h
            exact List.mem_cons_of_mem _ (ih hr hls)
        | ok r => exact absurd h (by simp [hr, Except.map])

/-! ## Retiring -/

omit [FiniteProducer S α] [ForetoldProducer S α] in
theorem mem_of_mem_retire {s : Intake S α} (h : s ∈ retire ss) : s ∈ ss := (List.mem_filter.mp h).1

theorem course_of_retired {s : Intake S α} (hs : s.Listening) (h : s ∈ ss) :
    s ∈ retire ss ∨ s.course = ⟨[], .ended⟩ := by
  cases hsp : s.isSpent with
  | true => exact .inr (Intake.course_of_isSpent hs hsp)
  | false => exact .inl (List.mem_filter.mpr ⟨h, by simp [hsp]⟩)

theorem mem_endings_retire (hs : ∀ s ∈ ss, s.Listening) {e : Ending} (he : e ∈ endings ss) :
    e ∈ endings (retire ss) ∨ e = .ended := by
  obtain ⟨s, hm, rfl⟩ := List.mem_map.mp he
  rcases course_of_retired (hs s hm) hm with hr | hr
  · exact .inl (List.mem_map.mpr ⟨s, hr, rfl⟩)
  · exact .inr (congrArg Course.ending hr)

theorem greedy_retire (cmp : α → α → Except OrderError Ordering) (hs : ∀ s ∈ ss, s.Listening) :
    greedy cmp (contents (retire ss)) = greedy cmp (contents ss) := by
  refine greedy_filter _ _ ?_
  intro s hm hp
  have hsp : s.isSpent = true := by simpa using hp
  rw [Intake.course_of_isSpent (hs s hm) hsp]

/-! ## Taking the least -/

variable {cmp : α → α → Except OrderError Ordering}

/-- The first items that are held are the first ones that are to be given. -/
def Heads (ss : List (Intake S α)) : Prop := ∀ s ∈ ss, s.buffer.head? = s.course.items.head?

theorem leastFrom_some (h : Heads ss) (i : Nat) (best : Nat × α) :
    leastFrom cmp (some best) i ss =
      (leader cmp best (headsFrom i (contents ss))).map fun h => some h.1 := by
  induction ss generalizing i best with
  | nil => rfl
  | cons s ss ih =>
      obtain ⟨hs, hss⟩ := List.forall_mem_cons.mp h
      rw [contents, List.map_cons, ← contents]
      cases hi : s.course.items with
      | nil =>
          rw [hi] at hs
          simp only [leastFrom, hs, List.head?_nil]
          exact ih hss (i + 1) best
      | cons a as =>
          rw [hi] at hs
          simp only [leastFrom, hs, List.head?_cons, headsFrom, leader]
          cases hc : cmp a best.2 with
          | error e => rfl
          | ok o =>
              cases o with
              | lt => exact ih hss (i + 1) (i, a)
              | eq => exact ih hss (i + 1) best
              | gt => exact ih hss (i + 1) best

theorem leastFrom_none (h : Heads ss) (i : Nat) :
    leastFrom cmp none i ss =
      (select cmp (headsFrom i (contents ss))).map (Option.map Prod.fst) := by
  induction ss generalizing i with
  | nil => rfl
  | cons s ss ih =>
      obtain ⟨hs, hss⟩ := List.forall_mem_cons.mp h
      rw [contents, List.map_cons, ← contents]
      cases hi : s.course.items with
      | nil =>
          rw [hi] at hs
          simp only [leastFrom, hs, List.head?_nil]
          exact ih hss (i + 1)
      | cons a as =>
          rw [hi] at hs
          simp only [leastFrom, hs, List.head?_cons, headsFrom, select]
          rw [leastFrom_some hss]
          cases leader cmp (i, a) (headsFrom (i + 1) (contents ss)) <;> rfl

theorem takeAt_of_contents (h : Heads ss) (hs : ∀ s ∈ ss, s.Listening) {a : α} {as : List α}
    {before after : List (List α)} (hc : contents ss = before ++ (a :: as) :: after) :
    ∃ ts, takeAt before.length ss = some (a, ts) ∧ contents ts = before ++ as :: after ∧
      endings ts = endings ss ∧ ∀ t ∈ ts, t.Listening := by
  induction ss generalizing before with
  | nil => exact absurd hc (by simp [contents])
  | cons s ss ih =>
      obtain ⟨hh, hhs⟩ := List.forall_mem_cons.mp h
      obtain ⟨hl, hls⟩ := List.forall_mem_cons.mp hs
      cases before with
      | nil =>
          obtain ⟨hi, hc⟩ := List.cons.inj hc
          have hi : s.course.items = a :: as := hi
          rw [hi] at hh
          obtain ⟨rest, hb⟩ : ∃ rest, s.buffer = a :: rest := by
            cases hb : s.buffer with
            | nil => exact absurd (hb ▸ hh) (by simp)
            | cons b rest =>
                obtain rfl : b = a := by simpa [hb] using hh
                exact ⟨rest, rfl⟩
          have ht : s.takeFirst = some (a, { s with buffer := rest }) :=
            Intake.takeFirst_eq_some.mpr ⟨rest, hb, rfl⟩
          have hcourse := Intake.course_takeFirst ht
          refine ⟨{ s with buffer := rest } :: ss, ?_, ?_, ?_, ?_⟩
          · show s.takeFirst.map _ = _
            rw [ht]
            rfl
          · rw [hcourse] at hi
            exact congr (congrArg List.cons (List.cons.inj hi).2) hc
          · rw [endings, endings, List.map_cons, List.map_cons, hcourse]
            rfl
          · exact List.forall_mem_cons.mpr ⟨Intake.listening_takeFirst hl ht, hls⟩
      | cons l before =>
          obtain ⟨hi, hc⟩ := List.cons.inj hc
          obtain ⟨ts, ht, hts, hends, hlts⟩ := ih hhs hls hc
          refine ⟨s :: ts, ?_, ?_, ?_, List.forall_mem_cons.mpr ⟨hl, hlts⟩⟩
          · show (takeAt before.length ss).map _ = _
            rw [ht]
            rfl
          · exact congr (congrArg List.cons hi) hts
          · exact congrArg (s.course.ending :: ·) hends

section TakeLeast

variable (h : Heads ss) (hs : ∀ s ∈ ss, s.Listening)
include h hs

/-- What taking the least of the first items gives is what the greedy merge
goes on with. -/
theorem takeLeast_cases (cmp : α → α → Except OrderError Ordering) :
    (∃ e, takeLeast cmp ss = .error e ∧ greedy cmp (contents ss) = ⟨[], some e⟩) ∨
      (takeLeast cmp ss = .ok none ∧ greedy cmp (contents ss) = ⟨[], none⟩) ∨
      ∃ a ts, takeLeast cmp ss = .ok (some (a, ts)) ∧
        greedy cmp (contents ss) = (greedy cmp (contents ts)).after [a] ∧
        endings ts = endings ss ∧ ∀ t ∈ ts, t.Listening := by
  rw [takeLeast]
  rw [leastFrom_none h]
  cases hsel : select cmp (headsFrom 0 (contents ss)) with
  | error e => exact .inl ⟨e, rfl, greedy_of_error hsel⟩
  | ok place =>
      cases place with
      | none => exact .inr (.inl ⟨rfl, greedy_of_none hsel⟩)
      | some p =>
          obtain ⟨i, a⟩ := p
          obtain ⟨before, as, after, hc, hi⟩ := eq_append_of_mem_headsFrom (mem_of_select hsel)
          rw [Nat.zero_add] at hi
          obtain ⟨ts, ht, hts, hends, hlts⟩ := takeAt_of_contents h hs hc
          refine .inr (.inr ⟨a, ts, ?_, ?_, hends, hlts⟩)
          · show Except.ok (takeAt i ss) = _
            rw [← hi, ht]
          · rw [greedy_of_some hsel, hc, ← hi, modify_append_cons, hts]
            rfl

end TakeLeast

end ExternalSort.Merge
