/-
Processes that work in turns.

One turn of a process changes its state, lets some events out, and asks
for another turn or not.  `Turn.iterate` takes turns until none is asked
for.  It needs a size that falls with every turn that asks for another,
so it always comes to its end.
-/
namespace ExternalSort

/-- What one turn of a process did. -/
structure Turn (σ ε : Type) where
  state : σ
  events : List ε := []
  /-- Whether another turn is asked for. -/
  again : Bool := false

namespace Turn

variable {σ ε : Type}

/-- The last turn: nothing happens any more. -/
def rest (s : σ) : Turn σ ε := { state := s }

@[simp] theorem rest_again (s : σ) : (rest s : Turn σ ε).again = false := rfl

/-- Takes turns until none is asked for, with the events let out before. -/
def iterateFrom (turn : σ → Turn σ ε) (size : σ → Nat)
    (shrinks : ∀ s, (turn s).again = true → size (turn s).state < size s)
    (s : σ) (before : Array ε) : σ × Array ε :=
  let t := turn s
  if _h : t.again = true then
    iterateFrom turn size shrinks t.state (before ++ t.events)
  else (t.state, before ++ t.events)
termination_by size s
decreasing_by exact shrinks s _h

/-- Takes turns until none is asked for.  The result is the last state
and all events. -/
def iterate (turn : σ → Turn σ ε) (size : σ → Nat)
    (shrinks : ∀ s, (turn s).again = true → size (turn s).state < size s)
    (s : σ) : σ × List ε :=
  let (s', es) := iterateFrom turn size shrinks s #[]
  (s', es.toList)

/-- Whether a test is passed wherever a process takes a turn. -/
def all (turn : σ → Turn σ ε) (size : σ → Nat)
    (shrinks : ∀ s, (turn s).again = true → size (turn s).state < size s)
    (test : σ → Bool) (s : σ) : Bool :=
  if !test s then false
  else if _h : (turn s).again = true then all turn size shrinks test (turn s).state
  else true
termination_by size s
decreasing_by exact shrinks s _h

variable {turn : σ → Turn σ ε} {size : σ → Nat}
  {shrinks : ∀ s, (turn s).again = true → size (turn s).state < size s}

/-- What every turn keeps, the whole process keeps. -/
theorem iterateFrom_induction (P : σ → List ε → Prop)
    (step : ∀ s es, P s es → P (turn s).state (es ++ (turn s).events))
    (s : σ) (before : Array ε) (h : P s before.toList) :
    P (iterateFrom turn size shrinks s before).1
      (iterateFrom turn size shrinks s before).2.toList := by
  fun_induction iterateFrom turn size shrinks s before with
  | case1 s before t _ ih => exact ih (by simpa [t] using step s _ h)
  | case2 s before t _ => simpa [t] using step s _ h

/-- What every turn keeps, the whole process keeps. -/
theorem iterate_induction (P : σ → List ε → Prop)
    (step : ∀ s es, P s es → P (turn s).state (es ++ (turn s).events))
    (s : σ) (h : P s []) :
    P (iterate turn size shrinks s).1 (iterate turn size shrinks s).2 :=
  iterateFrom_induction P step s #[] h

/-- A relation between the state before, the events and the state after
holds of a whole process if it holds of every turn and turns compose. -/
theorem iterate_trace {R : σ → List ε → σ → Prop} (refl : ∀ s, R s [] s)
    (trans : ∀ {s t u es fs}, R s es t → R t fs u → R s (es ++ fs) u)
    (step : ∀ s, R s (turn s).events (turn s).state) (s : σ) :
    R s (iterate turn size shrinks s).2 (iterate turn size shrinks s).1 :=
  iterate_induction (fun t es => R s es t) (fun t _ h => trans h (step t)) s (refl s)

/-- If what holds before a turn holds after it as long as another one is
asked for, then the whole process ends with what its last turn gives. -/
theorem iterateFrom_last {P Q : σ → List ε → Prop}
    (next : ∀ s es, P s es → (turn s).again = true → P (turn s).state (es ++ (turn s).events))
    (last : ∀ s es, P s es → (turn s).again = false → Q (turn s).state (es ++ (turn s).events))
    (s : σ) (before : Array ε) (h : P s before.toList) :
    Q (iterateFrom turn size shrinks s before).1
      (iterateFrom turn size shrinks s before).2.toList := by
  fun_induction iterateFrom turn size shrinks s before with
  | case1 s before t ha ih => exact ih (by simpa [t] using next s _ h ha)
  | case2 s before t ha => simpa [t] using last s _ h (by simpa using ha)

theorem iterate_last {P Q : σ → List ε → Prop}
    (next : ∀ s es, P s es → (turn s).again = true → P (turn s).state (es ++ (turn s).events))
    (last : ∀ s es, P s es → (turn s).again = false → Q (turn s).state (es ++ (turn s).events))
    (s : σ) (h : P s []) :
    Q (iterate turn size shrinks s).1 (iterate turn size shrinks s).2 :=
  iterateFrom_last next last s #[] h

/-- Two runs of a process that go on alike as long as they go on at all end
alike, and with the same events as far as `g` tells them apart. -/
theorem iterateFrom_related {δ : Type} {g : ε → δ} {R Q : σ → σ → Prop}
    (again : ∀ s t, R s t → (turn s).again = (turn t).again)
    (events : ∀ s t, R s t → (turn s).events.map g = (turn t).events.map g)
    (next : ∀ s t, R s t → (turn s).again = true → R (turn s).state (turn t).state)
    (last : ∀ s t, R s t → (turn s).again = false → Q (turn s).state (turn t).state)
    {s t : σ} (h : R s t) {before earlier : Array ε}
    (hb : before.toList.map g = earlier.toList.map g) :
    Q (iterateFrom turn size shrinks s before).1 (iterateFrom turn size shrinks t earlier).1 ∧
      (iterateFrom turn size shrinks s before).2.toList.map g =
        (iterateFrom turn size shrinks t earlier).2.toList.map g := by
  have hes : ∀ {s t} {before earlier : Array ε}, R s t →
      before.toList.map g = earlier.toList.map g →
      (before ++ (turn s).events).toList.map g = (earlier ++ (turn t).events).toList.map g := by
    intro s t before earlier h hb
    simp [hb, events _ _ h]
  fun_induction iterateFrom turn size shrinks s before generalizing t earlier with
  | case1 s before u ha =>
      rename_i ih
      rw [iterateFrom.eq_def turn size shrinks t, dif_pos ((again s t h).symm.trans ha)]
      exact ih (next s t h ha) (hes h hb)
  | case2 s before u =>
      rename_i ha
      have ha : (turn s).again = false := by simpa using ha
      rw [iterateFrom.eq_def turn size shrinks t, dif_neg (by simp [← again s t h, ha])]
      exact ⟨last s t h ha, hes h hb⟩

theorem iterate_related {δ : Type} {g : ε → δ} {R Q : σ → σ → Prop}
    (again : ∀ s t, R s t → (turn s).again = (turn t).again)
    (events : ∀ s t, R s t → (turn s).events.map g = (turn t).events.map g)
    (next : ∀ s t, R s t → (turn s).again = true → R (turn s).state (turn t).state)
    (last : ∀ s t, R s t → (turn s).again = false → Q (turn s).state (turn t).state)
    {s t : σ} (h : R s t) :
    Q (iterate turn size shrinks s).1 (iterate turn size shrinks t).1 ∧
      (iterate turn size shrinks s).2.map g = (iterate turn size shrinks t).2.map g :=
  iterateFrom_related again events next last h rfl

/-- `Runs turn n s t es`: in `n` turns, of which only the last asks for no
other, a process gets from `s` to `t` and lets out the events `es`. -/
inductive Runs (turn : σ → Turn σ ε) : Nat → σ → σ → List ε → Prop
  | last {s : σ} : (turn s).again = false → Runs turn 1 s (turn s).state (turn s).events
  | next {s t : σ} {n : Nat} {es : List ε} : (turn s).again = true →
      Runs turn n (turn s).state t es → Runs turn (n + 1) s t ((turn s).events ++ es)

/-- A process comes to its end, in no more turns than its size allows. -/
theorem iterateFrom_runs (s : σ) (before : Array ε) :
    ∃ n es, n ≤ size s + 1 ∧ Runs turn n s (iterateFrom turn size shrinks s before).1 es ∧
      (iterateFrom turn size shrinks s before).2.toList = before.toList ++ es := by
  fun_induction iterateFrom turn size shrinks s before with
  | case1 s before t ha ih =>
      obtain ⟨n, es, hn, hruns, hes⟩ := ih
      have hlt := shrinks s ha
      refine ⟨n + 1, t.events ++ es, ?_, .next ha hruns, ?_⟩
      · change size t.state < size s at hlt
        omega
      · simp [hes]
  | case2 s before t ha =>
      have ha : (turn s).again = false := by simpa using ha
      exact ⟨1, t.events, by omega, .last ha, by simp⟩

theorem iterate_runs (s : σ) : ∃ n, n ≤ size s + 1 ∧
    Runs turn n s (iterate turn size shrinks s).1 (iterate turn size shrinks s).2 := by
  have hfrom : ∃ n es, n ≤ size s + 1 ∧
      Runs turn n s (iterateFrom turn size shrinks s #[]).1 es ∧
      (iterateFrom turn size shrinks s #[]).2.toList = [] ++ es := iterateFrom_runs s #[]
  obtain ⟨n, es, hn, hruns, hes⟩ := hfrom
  refine ⟨n, hn, ?_⟩
  rw [List.nil_append] at hes
  rw [← hes] at hruns
  exact hruns

/-- `Takes turn s t`: a process that begins in `s` takes a turn in `t`. -/
inductive Takes (turn : σ → Turn σ ε) : σ → σ → Prop
  | first (s : σ) : Takes turn s s
  | later {s t : σ} : (turn s).again = true → Takes turn (turn s).state t → Takes turn s t

/-- What every turn that asks for another one keeps is there in all turns. -/
theorem Takes.keeps {P : σ → Prop} (step : ∀ s, P s → (turn s).again = true → P (turn s).state)
    {s t : σ} (h : Takes turn s t) (hs : P s) : P t := by
  induction h with
  | first => exact hs
  | later ha _ ih => exact ih (step _ hs ha)

theorem all_iff {test : σ → Bool} {s : σ} :
    all turn size shrinks test s = true ↔ ∀ t, Takes turn s t → test t = true := by
  fun_induction all turn size shrinks test s with
  | case1 s hs =>
      refine ⟨fun h => absurd h (by simp), fun h => ?_⟩
      simp [h s (.first s)] at hs
  | case2 s hs ha ih =>
      rw [ih]
      constructor
      · intro hnext t ht
        cases ht with
        | first => simpa using hs
        | later _ ht => exact hnext t ht
      · exact fun h t ht => h t (.later ha ht)
  | case3 s hs ha =>
      refine ⟨fun _ t ht => ?_, fun _ => rfl⟩
      cases ht with
      | first => simpa using hs
      | later hb => exact absurd hb ha

/-- A process ends with what the last of its turns gives. -/
theorem iterateFrom_takes (s : σ) (before : Array ε) :
    ∃ t, Takes turn s t ∧ (turn t).again = false ∧
      (iterateFrom turn size shrinks s before).1 = (turn t).state := by
  fun_induction iterateFrom turn size shrinks s before with
  | case1 s before t ha ih =>
      obtain ⟨u, hu, hlast, he⟩ := ih
      exact ⟨u, .later ha hu, hlast, he⟩
  | case2 s before t ha => exact ⟨s, .first s, by simpa using ha, rfl⟩

theorem iterate_takes (s : σ) :
    ∃ t, Takes turn s t ∧ (turn t).again = false ∧
      (iterate turn size shrinks s).1 = (turn t).state :=
  iterateFrom_takes s #[]

/-- A process whose turn is its last takes that one. -/
theorem iterate_of_last {s : σ} (h : (turn s).again = false) :
    iterate turn size shrinks s = ((turn s).state, (turn s).events) := by
  unfold iterate
  rw [iterateFrom]
  simp [h]

/-- A process whose turn is to rest does nothing. -/
theorem iterate_of_rest {s : σ} (h : turn s = .rest s) :
    iterate turn size shrinks s = (s, []) := by
  rw [iterate_of_last (by rw [h, rest_again]), h]
  rfl

end Turn

end ExternalSort
