/-
A stream ends once.

Whoever deals with a stream subscribes to it, lets it work, or tears it
down.  `Supply.Moved` says what each of these can do to the supply of the
stream, and `Supply.Told` relates what was heard of it so far to its
status: an ending that was heard is the one the stream is over by, and
nothing was heard after it.  Every move keeps this, so it holds of every
history (`Conduct.Lawful.endsOnce`), whatever the stream is.
-/
import ExternalSort.Proofs.Stream.Steps
import ExternalSort.Stream.Basic

namespace ExternalSort

variable {α ε σ γ ρ : Type}

/-! ## Moves -/

/-- The ways to deal with a stream. -/
inductive Move (α : Type) where
  | subscribe (h : Subscriber α)
  /-- The demand may change, and the stream may be driven. -/
  | work
  | close

namespace Supply

/-- What a move can do: the events that are heard, and the supply after it. -/
def Moved (o : Supply α) : Move α → List (Event α) → Supply α → Prop
  | .subscribe h, es, o' => o.subscribe h = (o', es)
  | .work, es, o' => ∃ d : Demand, Steps { o with demand := d } es o'
  | .close, es, o' => es = [] ∧ o' = .closed o.demand

variable {o o' : Supply α} {es fs : List (Event α)} {m : Move α}

theorem Moved.subscribe_cases {h : Subscriber α} (k : Moved o (.subscribe h) es o') :
    (es = [] ∧ o'.status = o.status) ∨
      ∃ e, o.status = .parked e ∧ es = endingEvents h e ∧ o'.status = .over e := by
  obtain ⟨rfl, rfl⟩ : o' = (o.subscribe h).1 ∧ es = (o.subscribe h).2 := by
    rw [show o.subscribe h = (o', es) from k]
    exact ⟨rfl, rfl⟩
  rw [subscribe]
  split
  · exact .inl ⟨rfl, rfl⟩
  · next e hs => exact .inr ⟨e, hs, rfl, rfl⟩
  · exact .inl ⟨rfl, rfl⟩
  · exact .inl ⟨rfl, rfl⟩

theorem Moved.items_subscribe {h : Subscriber α} (k : Moved o (.subscribe h) es o') :
    Event.items es = [] := by
  rcases k.subscribe_cases with ⟨rfl, -⟩ | ⟨e, -, rfl, -⟩
  · rfl
  · exact items_endingEvents h e

theorem isOpen_subscribe (o : Supply α) (h : Subscriber α) :
    (o.subscribe h).1.isOpen = o.isOpen := by
  have k : o.Moved (.subscribe h) (o.subscribe h).2 (o.subscribe h).1 := rfl
  rcases k.subscribe_cases with ⟨-, hs⟩ | ⟨e, hp, -, hs⟩
  · simp only [isOpen, hs]
  · simp only [isOpen, hs, hp]
    rfl

theorem ending?_subscribe (o : Supply α) (h : Subscriber α) :
    (o.subscribe h).1.ending? = o.ending? := by
  have k : o.Moved (.subscribe h) (o.subscribe h).2 (o.subscribe h).1 := rfl
  rcases k.subscribe_cases with ⟨-, hs⟩ | ⟨e, hp, -, hs⟩
  · simp only [ending?, hs]
  · simp only [ending?, hs, hp]

theorem endingEvents_eq_heardBy (h : Subscriber α) (e : Ending) :
    endingEvents h e = heardBy (some h) e := rfl

/-- What was heard of a stream fits its status. -/
structure Told (es : List (Event α)) (o : Supply α) : Prop where
  settled : Event.Settled es
  raised : ∀ e ∈ Event.endings es, o.status = .over e ∨ o.status = .closed

/-- Nobody has heard of an ending yet. -/
def Unheard (o : Supply α) : Prop := o.status = .open ∨ ∃ e, o.status = .parked e

namespace Told

theorem nil (o : Supply α) : Told [] o where
  settled := ⟨[], none, rfl⟩
  raised _ h := absurd h List.not_mem_nil

theorem congr (h : Told es o) (hs : o'.status = o.status) : Told es o' where
  settled := h.settled
  raised e he := hs ▸ h.raised e he

theorem ending?_eq (h : Told es o) (hc : o.status ≠ .closed) {e : Ending}
    (he : e ∈ Event.endings es) : o.ending? = some e := by
  rcases h.raised e he with hs | hs
  · simp [ending?, hs]
  · exact absurd hs hc

theorem items_only (h : Told es o) (ho : o.Unheard) : ∃ as : List α, es = as.map .item := by
  obtain ⟨as, e, rfl⟩ := h.settled
  cases e with
  | none => exact ⟨as, by simp⟩
  | some e =>
      have hm : e ∈ Event.endings (as.map .item ++ (some e).toList.map Event.ending) := by
        simp [Event.mem_endings]
      rcases h.raised e hm with hs | hs <;> rcases ho with ho | ⟨e', ho⟩ <;>
        exact absurd (hs.symm.trans ho) (by simp)

theorem append_items (h : Told es o) (ho : o.Unheard) (as : List α) :
    Told (es ++ as.map .item) o' := by
  obtain ⟨bs, rfl⟩ := h.items_only ho
  refine ⟨⟨bs ++ as, none, by simp⟩, ?_⟩
  intro e he
  simp at he

theorem append_heardBy (h : Told es o) (ho : o.Unheard) {s : Option (Subscriber α)} {e : Ending}
    (hs : o'.status = raisedTo s e) : Told (es ++ heardBy s e) o' := by
  obtain ⟨bs, rfl⟩ := h.items_only ho
  cases s with
  | none =>
      refine ⟨⟨bs, none, rfl⟩, ?_⟩
      intro e he
      simp [heardBy] at he
  | some s =>
      rcases heardBy_cases (some s) e with he | he <;> rw [he]
      · refine ⟨⟨bs, none, rfl⟩, ?_⟩
        intro e he
        simp at he
      · refine ⟨⟨bs, some e, rfl⟩, ?_⟩
        intro e' he'
        simp only [Event.endings_append, Event.endings_items, List.nil_append] at he'
        obtain rfl : e' = e := by simpa [Event.mem_endings] using he'
        exact .inl hs

theorem steps (h : Told es o) (k : Steps o fs o') : Told (es ++ fs) o' := by
  cases ho : o.isOpen with
  | false =>
      obtain ⟨rfl, rfl⟩ := k.of_not_open ho
      simpa using h
  | true =>
      have ho := isOpen_iff.mp ho
      rcases k.of_open ho with ⟨as, rfl, hs⟩ | ⟨as, e, rfl, hs⟩
      · exact h.append_items (.inl ho) as
      · rw [← List.append_assoc]
        have hmid : Told (es ++ as.map .item) o := h.append_items (.inl ho) as
        exact hmid.append_heardBy (.inl ho) hs

theorem move (h : Told es o) (k : Moved o m fs o') : Told (es ++ fs) o' := by
  cases m with
  | subscribe s =>
      rcases k.subscribe_cases with ⟨rfl, hs⟩ | ⟨e, hp, rfl, hs⟩
      · rw [List.append_nil]
        exact h.congr hs
      · rw [endingEvents_eq_heardBy]
        exact h.append_heardBy (.inr ⟨e, hp⟩) hs
  | work =>
      obtain ⟨d, k⟩ := k
      have hd : Told es { o with demand := d } := h.congr rfl
      exact hd.steps k
  | close =>
      obtain ⟨rfl, rfl⟩ := k
      rw [List.append_nil]
      exact ⟨h.settled, fun _ _ => .inr rfl⟩

end Told

/-! ## Moves on a stream that is not open -/

theorem Moved.work_of_not_open (k : Moved o .work es o') (ho : o.isOpen = false) :
    es = [] ∧ o'.status = o.status := by
  obtain ⟨d, k⟩ := k
  obtain ⟨rfl, rfl⟩ := k.of_not_open (o := { o with demand := d }) ho
  exact ⟨rfl, rfl⟩

/-- An ending raised while nobody is subscribed is parked. -/
theorem Moved.parks {e : Ending} (k : Moved o m es o') (ho : o.status = .open)
    (hs : o.subscriber = none) (he : o'.ending? = some e) : es = [] ∧ o'.status = .parked e := by
  have hst : es = [] ∧ (o'.status = .open ∨ o'.status = .closed ∨ ∃ e, o'.status = .parked e) := by
    cases m with
    | subscribe s =>
        rcases k.subscribe_cases with ⟨rfl, hs⟩ | ⟨e', hp, -, -⟩
        · exact ⟨rfl, .inl (hs.trans ho)⟩
        · exact absurd (ho.symm.trans hp) (by simp)
    | work =>
        obtain ⟨d, k⟩ := k
        obtain ⟨rfl, hs⟩ := k.parks (o := { o with demand := d }) ho hs
        exact ⟨rfl, hs.imp_right .inr⟩
    | close =>
        obtain ⟨rfl, rfl⟩ := k
        exact ⟨rfl, .inr (.inl rfl)⟩
  obtain ⟨rfl, hs | hs | ⟨e', hs⟩⟩ := hst
  · simp [ending?, hs] at he
  · simp [ending?, hs] at he
  · obtain rfl : e' = e := by simpa [ending?, hs] using he
    exact ⟨rfl, hs⟩

theorem Moved.delivers {h : Subscriber α} {e : Ending} (k : Moved o (.subscribe h) es o')
    (hp : o.status = .parked e) : es = endingEvents h e := by
  have k : o.subscribe h = (o', es) := k
  rw [subscribe, hp] at k
  exact (Prod.mk.inj k).2.symm

theorem Moved.parked_before {e : Ending} (k : Moved o m es o') (ho : o.isOpen = false)
    (hp : o'.status = .parked e) : o.status = .parked e := by
  cases m with
  | subscribe s =>
      rcases k.subscribe_cases with ⟨-, hs⟩ | ⟨e', -, -, hs⟩
      · exact hs.symm.trans hp
      · exact absurd (hs.symm.trans hp) (by simp)
  | work => exact (k.work_of_not_open ho).2.symm.trans hp
  | close =>
      obtain ⟨-, rfl⟩ := k
      exact absurd hp (by simp [closed])

/-- No items are heard of a stream that is not open, and no ending but the one
that was parked. -/
theorem Moved.silent (k : Moved o m es o') (ho : o.isOpen = false) :
    o'.isOpen = false ∧ Event.items es = [] ∧
      ∀ e ∈ Event.endings es, o.status = .parked e := by
  cases m with
  | subscribe s =>
      rcases k.subscribe_cases with ⟨rfl, hs⟩ | ⟨e, hp, rfl, hs⟩
      · refine ⟨?_, rfl, fun _ h => absurd h List.not_mem_nil⟩
        simpa [isOpen, hs] using ho
      · refine ⟨by simp [isOpen, hs], items_endingEvents s e, ?_⟩
        intro e' he'
        rw [Event.mem_endings, endingEvents] at he'
        split at he'
        · obtain rfl : e' = e := by simpa using he'
          exact hp
        · exact absurd he' List.not_mem_nil
  | work =>
      obtain ⟨rfl, hs⟩ := k.work_of_not_open ho
      refine ⟨?_, rfl, fun _ h => absurd h List.not_mem_nil⟩
      simpa [isOpen, hs] using ho
  | close =>
      obtain ⟨rfl, rfl⟩ := k
      exact ⟨rfl, rfl, fun _ h => absurd h List.not_mem_nil⟩

end Supply

/-! ## Histories -/

/-- Does several things in order. -/
def actAll (act : σ → γ → σ × List ε) (s : σ) : List γ → σ × List ε
  | [] => (s, [])
  | c :: cs =>
    let (s, es) := act s c
    let (s, fs) := actAll act s cs
    (s, es ++ fs)

section Histories

variable {act : σ → γ → σ × List ε}

theorem actAll_append (s : σ) (cs ds : List γ) :
    actAll act s (cs ++ ds) =
      ((actAll act (actAll act s cs).1 ds).1,
        (actAll act s cs).2 ++ (actAll act (actAll act s cs).1 ds).2) := by
  induction cs generalizing s with
  | nil => rfl
  | cons c cs ih => simp [actAll, ih]

theorem actAll_induction_of_mem {P : σ → List ε → Prop} {cs : List γ}
    (step : ∀ c ∈ cs, ∀ s es, P s es → P (act s c).1 (es ++ (act s c).2)) {s : σ} {es : List ε}
    (h : P s es) : P (actAll act s cs).1 (es ++ (actAll act s cs).2) := by
  induction cs generalizing s es with
  | nil => simpa [actAll] using h
  | cons c cs ih =>
      have := ih (fun d hd => step d (List.mem_cons_of_mem c hd)) (step c List.mem_cons_self s es h)
      rwa [List.append_assoc] at this

theorem actAll_induction {P : σ → List ε → Prop}
    (step : ∀ s c es, P s es → P (act s c).1 (es ++ (act s c).2)) {s : σ} {es : List ε}
    (h : P s es) (cs : List γ) : P (actAll act s cs).1 (es ++ (actAll act s cs).2) :=
  actAll_induction_of_mem (fun c _ s es => step s c es) h

theorem actAll_keeps {P : σ → Prop} (step : ∀ s c, P s → P (act s c).1) {s : σ} (h : P s)
    (cs : List γ) : P (actAll act s cs).1 := by
  induction cs generalizing s with
  | nil => exact h
  | cons c cs ih => exact ih (step s c h)

theorem actAll_related {τ δ : Type} {act' : τ → γ → τ × List δ}
    {R : σ × List ε → τ × List δ → Prop}
    (step : ∀ s t c es fs, R (s, es) (t, fs) →
      R ((act s c).1, es ++ (act s c).2) ((act' t c).1, fs ++ (act' t c).2))
    {s : σ} {t : τ} {es : List ε} {fs : List δ} (h : R (s, es) (t, fs)) (cs : List γ) :
    R ((actAll act s cs).1, es ++ (actAll act s cs).2)
      ((actAll act' t cs).1, fs ++ (actAll act' t cs).2) := by
  induction cs generalizing s t es fs with
  | nil => simpa [actAll] using h
  | cons c cs ih =>
      have := ih (step s t c es fs h)
      rwa [List.append_assoc, List.append_assoc] at this

end Histories

/-- A stream as those know it who deal with it: what they can do with it,
and what it still works on besides its supply. -/
structure Conduct (σ γ ρ α : Type) where
  act : σ → γ → σ × List (Event α)
  move : γ → Move α
  supply : σ → Supply α
  work : σ → ρ

namespace Conduct

/-- The stream after a history. -/
def after (C : Conduct σ γ ρ α) (s : σ) (cs : List γ) : σ := (actAll C.act s cs).1

/-- All that is heard in a history, by whomever. -/
def heard (C : Conduct σ γ ρ α) (s : σ) (cs : List γ) : List (Event α) := (actAll C.act s cs).2

theorem after_append (C : Conduct σ γ ρ α) (s : σ) (cs ds : List γ) :
    C.after s (cs ++ ds) = C.after (C.after s cs) ds := by
  simp only [after, actAll_append]

theorem heard_append (C : Conduct σ γ ρ α) (s : σ) (cs ds : List γ) :
    C.heard s (cs ++ ds) = C.heard s cs ++ C.heard (C.after s cs) ds := by
  simp only [heard, after, actAll_append]

/-- A stream ends once, and with that everything is over. -/
structure EndsOnce (C : Conduct σ γ ρ α) (s : σ) : Prop where
  /-- At most one ending is ever heard, and no item after it. -/
  settled : ∀ cs, Event.Settled (C.heard s cs)
  /-- An ending that is raised while nobody is subscribed waits. -/
  parks : ∀ (cs : List γ) (c : γ) (e : Ending), (C.supply (C.after s cs)).status = .open →
    (C.supply (C.after s cs)).subscriber = none →
    (C.supply (C.after s (cs ++ [c]))).ending? = some e →
      C.heard (C.after s cs) [c] = [] ∧ (C.supply (C.after s (cs ++ [c]))).status = .parked e
  /-- The first who subscribes then hears of it. -/
  delivers : ∀ (cs ds : List γ) (c : γ) (e : Ending) (h : Subscriber α),
    (C.supply (C.after s cs)).status = .parked e → (∀ d ∈ ds, C.move d = .work) →
    C.move c = .subscribe h →
      C.heard (C.after s cs) (ds ++ [c]) = Supply.endingEvents h e
  /-- Nothing else is heard once an ending was raised, or the stream torn down. -/
  silent : ∀ cs ds : List γ, (C.supply (C.after s cs)).isOpen = false →
    Event.items (C.heard (C.after s cs) ds) = [] ∧
      ∀ e ∈ Event.endings (C.heard (C.after s cs) ds),
        (C.supply (C.after s cs)).status = .parked e
  /-- From then on the stream works on nothing. -/
  frozen : ∀ cs ds : List γ, (C.supply (C.after s cs)).isOpen = false →
    C.work (C.after s (cs ++ ds)) = C.work (C.after s cs)

/-- What is asked of each act of a stream in the states of `I`. -/
structure Lawful (C : Conduct σ γ ρ α) (I : σ → Prop) : Prop where
  keeps : ∀ s c, I s → I (C.act s c).1
  moved : ∀ s c, I s → (C.supply s).Moved (C.move c) (C.act s c).2 (C.supply (C.act s c).1)
  frozen : ∀ s c, I s → (C.supply s).isOpen = false → C.work (C.act s c).1 = C.work s

namespace Lawful

variable {C : Conduct σ γ ρ α} {I : σ → Prop} (hC : C.Lawful I) {s : σ} (hs : I s)
include hC hs

theorem keeps_all (cs : List γ) : I (C.after s cs) := by
  induction cs generalizing s with
  | nil => exact hs
  | cons c cs ih => exact ih (hC.keeps s c hs)

theorem told (cs : List γ) : Supply.Told (C.heard s cs) (C.supply (C.after s cs)) := by
  suffices h : ∀ es, Supply.Told es (C.supply s) →
      Supply.Told (es ++ C.heard s cs) (C.supply (C.after s cs)) from
    h [] (.nil _)
  induction cs generalizing s with
  | nil =>
      intro es ht
      simpa [after, heard, actAll] using ht
  | cons c cs ih =>
      intro es ht
      have := ih (hC.keeps s c hs) (es ++ (C.act s c).2) (ht.move (hC.moved s c hs))
      rwa [List.append_assoc] at this

/-- Once a stream is not open it stays so, and is silent and still. -/
theorem stays_over (ho : (C.supply s).isOpen = false) (cs : List γ) :
    (C.supply (C.after s cs)).isOpen = false ∧ Event.items (C.heard s cs) = [] ∧
      (∀ e ∈ Event.endings (C.heard s cs), (C.supply s).status = .parked e) ∧
      C.work (C.after s cs) = C.work s := by
  induction cs generalizing s with
  | nil => exact ⟨ho, rfl, fun _ h => absurd h List.not_mem_nil, rfl⟩
  | cons c cs ih =>
      have hm := hC.moved s c hs
      obtain ⟨ho', hi, he⟩ := hm.silent ho
      obtain ⟨hos, his, hes, hws⟩ := ih (hC.keeps s c hs) ho'
      refine ⟨hos, ?_, ?_, hws.trans (hC.frozen s c hs ho)⟩
      · show Event.items ((C.act s c).2 ++ C.heard (C.act s c).1 cs) = []
        rw [Event.items_append, hi, his, List.append_nil]
      · intro e hm'
        have hm' : e ∈ Event.endings ((C.act s c).2 ++ C.heard (C.act s c).1 cs) := hm'
        rw [Event.endings_append] at hm'
        rcases List.mem_append.mp hm' with h | h
        · exact he e h
        · exact hm.parked_before ho (hes e h)

theorem waits {e : Ending} (hp : (C.supply s).status = .parked e) {ds : List γ}
    (hd : ∀ d ∈ ds, C.move d = .work) :
    C.heard s ds = [] ∧ (C.supply (C.after s ds)).status = .parked e := by
  induction ds generalizing s with
  | nil => exact ⟨rfl, hp⟩
  | cons d ds ih =>
      obtain ⟨hd, hds⟩ := List.forall_mem_cons.mp hd
      have hm := hC.moved s d hs
      rw [hd] at hm
      obtain ⟨he, hst⟩ := hm.work_of_not_open (by simp [Supply.isOpen, hp])
      obtain ⟨hh, hp⟩ := ih (hC.keeps s d hs) (hst.trans hp) hds
      refine ⟨?_, hp⟩
      show (C.act s d).2 ++ C.heard (C.act s d).1 ds = []
      rw [he, hh]
      rfl

/-- Where every act is lawful the stream ends once. -/
theorem endsOnce : C.EndsOnce s where
  settled cs := (hC.told hs cs).settled
  parks cs c e ho hn he := by
    rw [after_append] at he ⊢
    have hm := hC.moved (C.after s cs) c (hC.keeps_all hs cs)
    have : C.heard (C.after s cs) [c] = (C.act (C.after s cs) c).2 := List.append_nil _
    rw [this]
    exact hm.parks ho hn he
  delivers cs ds c e h hp hd hc := by
    have hI := hC.keeps_all hs cs
    obtain ⟨hh, hp⟩ := hC.waits hI hp hd
    have hm := hC.moved _ c (hC.keeps_all hI ds)
    rw [heard_append, hh, List.nil_append]
    have : C.heard (C.after (C.after s cs) ds) [c] = (C.act (C.after (C.after s cs) ds) c).2 :=
      List.append_nil _
    rw [this]
    rw [hc] at hm
    exact hm.delivers hp
  silent cs ds ho := by
    obtain ⟨-, hi, he, -⟩ := hC.stays_over (hC.keeps_all hs cs) ho ds
    exact ⟨hi, he⟩
  frozen cs ds ho := by
    rw [after_append]
    exact (hC.stays_over (hC.keeps_all hs cs) ho ds).2.2.2

end Lawful

end Conduct

end ExternalSort
