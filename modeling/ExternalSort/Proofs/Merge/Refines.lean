/-
A merge is a greedy merge of what its runs hold.

The second side is `greedy` on the lists that reading the runs gives
(`courses`).  A merge that works has handed over some items, and the greedy
merge of all runs is these items followed by the greedy merge of what the
intakes are still to give (`Live.merged`).  Retiring and topping up keep
this because they keep what is to be given, and handing an item over moves
it from one side to the other.  It does not matter when the files are ready
and what is asked for.
-/
import ExternalSort.Proofs.Merge.Intakes
import ExternalSort.Proofs.Merge.Steps

namespace ExternalSort.Merge

variable {O α W : Type} [ItemOrder O α] [SpillStore W]

/-! ## What runs hold -/

section Runs

variable {decode : List UInt8 → Except Cause α}

/-- What reading some runs gives, if their files are opened in order. -/
def courses (decode : List UInt8 → Except Cause α) (w : W) : List (Run α) → List (Course α)
  | [] => []
  | .memory items :: runs => ⟨items, .ended⟩ :: courses decode w runs
  | .file f :: runs =>
    match SpillStore.openFile w f.path with
    | (.error e, w) => ⟨[], .failed (.io e)⟩ :: courses decode w runs
    | (.ok source, w) =>
      let (bytes, fault) := Source.content source
      Frame.course decode bytes fault :: courses decode w runs

/-- What opening runs comes to: intakes that are to give what the runs hold,
or the failure of one of the runs. -/
def Opened (cs : List (Course α)) : Except Fault (List (Intake (RunStream α) α)) → Prop
  | .ok ss => (∀ s ∈ ss, s.Listening) ∧ ss.map Intake.course = cs
  | .error f => ∃ c ∈ cs, c.ending = .failed (.io f)

theorem Opened.cons {cs : List (Course α)} {r : Except Fault (List (Intake (RunStream α) α))}
    (h : Opened cs r) {s : Intake (RunStream α) α} {c : Course α} (hl : s.Listening)
    (hc : s.course = c) : Opened (c :: cs) (r.map (s :: ·)) := by
  cases r with
  | ok ss =>
      obtain ⟨hls, hcs⟩ := h
      refine ⟨List.forall_mem_cons.mpr ⟨hl, hls⟩, ?_⟩
      rw [List.map_cons, hc, hcs]
  | error f =>
      obtain ⟨d, hd, he⟩ := h
      exact ⟨d, List.mem_cons_of_mem _ hd, he⟩

theorem openRuns_opened (decode : List UInt8 → Except Cause α) (chunk : Nat) (w : W) (runs : List (Run α)) :
    Opened (courses decode w runs) (openRuns decode chunk w runs).1 := by
  induction runs generalizing w with
  | nil => exact ⟨fun _ h => absurd h List.not_mem_nil, rfl⟩
  | cons run runs ih =>
      cases run with
      | memory items =>
          exact (ih w).cons (Intake.listening_ofStream (RunStream.memory (.ofList items)) (.inl rfl))
            (Intake.course_ofStream (RunStream.memory (.ofList items)) rfl)
      | file f =>
          cases ho : SpillStore.openFile w f.path with
          | mk r w' =>
              cases r with
              | error e =>
                  rw [openRuns, courses, ho]
                  exact ⟨⟨[], .failed (.io e)⟩, List.mem_cons_self, rfl⟩
              | ok source =>
                  let stream := RunStream.file (.ofSource source decode chunk)
                  rw [openRuns, courses, ho]
                  exact (ih w').cons (Intake.listening_ofStream stream (.inl rfl))
                    (Intake.course_ofStream stream rfl)

theorem ending_ne_comparison {w : W} {runs : List (Run α)} :
    ∀ c ∈ courses decode w runs, ∀ e, c.ending ≠ .failed (.ofCompare e) := by
  induction runs generalizing w with
  | nil => exact fun c hc => absurd hc List.not_mem_nil
  | cons run runs ih =>
      cases run with
      | memory items => exact List.forall_mem_cons.mpr ⟨fun e => by simp, ih⟩
      | file f =>
          rw [courses]
          split
          · exact List.forall_mem_cons.mpr ⟨fun e => by simp [Failure.ofCompare], ih⟩
          · exact List.forall_mem_cons.mpr ⟨Frame.ending_ne_comparison, ih⟩

end Runs

/-! ## What a merge has done and is to do -/

/-- The greedy merge of what some runs hold. -/
def reference (order : O) (cs : List (Course α)) : Merged α :=
  greedy (ItemOrder.compare order) (cs.map Course.items)

/-- A merge of runs that hold `cs` has its intakes at work, and has handed
`out` over. -/
structure Live (order : O) (cs : List (Course α)) (out : List α) (m : Merge O α) : Prop where
  order_eq : m.order = order
  supply_open : m.supply.status = .open
  working : m.phase.isFinal = false
  opened : m.runs = []
  listening : ∀ s ∈ m.intakes, s.Listening
  merged : reference order cs =
    (greedy (ItemOrder.compare order) (contents m.intakes)).after out
  among : ∀ e ∈ endings m.intakes, e ∈ cs.map Course.ending
  well : (∀ e ∈ endings m.intakes, e = .ended) → ∀ c ∈ cs, c.ending = .ended

/-- What a merge of runs that hold `cs` can come to. -/
inductive Outcome (order : O) (cs : List (Course α)) (out : List α) : MergePhase → Ending → Prop
  | ended : out = (reference order cs).items → (reference order cs).error = none →
      (∀ c ∈ cs, c.ending = .ended) → Outcome order cs out .ended .ended
  | incomparable {e : OrderError} : out = (reference order cs).items →
      (reference order cs).error = some e →
      Outcome order cs out .errored (.failed (.ofCompare e))
  | broken {e : Failure} : out <+: (reference order cs).items →
      (∃ c ∈ cs, c.ending = .failed e) → Outcome order cs out .errored (.failed e)

/-- A merge has come to an end as it should. -/
def Done (order : O) (cs : List (Course α)) (out : List α) (m : Merge O α) : Prop :=
  ∃ e, m.supply.ending? = some e ∧ Outcome order cs out m.phase e

variable {order : O} {cs : List (Course α)} {out : List α} {m : Merge O α} {w : W}

theorem Live.out_prefix (h : Live order cs out m) : out <+: (reference order cs).items :=
  ⟨_, (congrArg Merged.items h.merged).symm⟩

theorem Outcome.out_prefix {phase : MergePhase} {e : Ending} (h : Outcome order cs out phase e) :
    out <+: (reference order cs).items := by
  cases h with
  | ended ho => exact ho ▸ List.prefix_rfl
  | incomparable ho => exact ho ▸ List.prefix_rfl
  | broken ho => exact ho

/-! ## One turn -/

/-- A turn leaves the merge at work, or it is the last one and the merge has
come to an end. -/
def Leads (order : O) (cs : List (Course α)) (out : List α)
    (t : Turn (Merge O α × W) (Heard W α)) : Prop :=
  Live order cs (out ++ Event.items (Heard.events t.events)) t.state.1 ∨
    t.again = false ∧ Done order cs (out ++ Event.items (Heard.events t.events)) t.state.1

omit [SpillStore W] in
theorem Live.rest (h : Live order cs out m) : Leads order cs out (.rest (m, w)) := by
  refine .inl ?_
  show Live order cs (out ++ []) m
  rwa [List.append_nil]

theorem Outcome.conclude {phase : MergePhase} {e : Ending} (h : Outcome order cs out phase e)
    (ho : m.supply.status = .open) : Leads order cs out (m.conclude w phase e) := by
  refine .inr ⟨rfl, e, Supply.ending?_finish ho e, ?_⟩
  unfold Merge.conclude closeAll
  dsimp only
  rw [Heard.events_ofEvents, Supply.items_finish, List.append_nil]
  exact h

theorem Live.retire (h : Live order cs out m) :
    Live order cs out { m with intakes := retire m.intakes } where
  order_eq := h.order_eq
  supply_open := h.supply_open
  working := h.working
  opened := h.opened
  listening s hs := h.listening s (mem_of_mem_retire hs)
  merged := by
    rw [greedy_retire _ h.listening]
    exact h.merged
  among e he := by
    obtain ⟨s, hs, rfl⟩ := List.mem_map.mp he
    exact h.among _ (List.mem_map.mpr ⟨s, mem_of_mem_retire hs, rfl⟩)
  well hw := by
    refine h.well ?_
    intro e he
    rcases mem_endings_retire h.listening he with hr | hr
    · exact hw e hr
    · exact hr

theorem Live.outcome_of_nil (h : Live order cs out m) (hm : m.intakes = []) :
    Outcome order cs out .ended .ended := by
  have hr : reference order cs = ⟨out, none⟩ := by
    have hg : greedy (ItemOrder.compare order) (contents m.intakes) = ⟨[], none⟩ := by
      rw [hm]
      exact greedy_of_nil fun l hl => absurd hl List.not_mem_nil
    rw [h.merged, hg]
    simp [Merged.after]
  refine .ended ?_ ?_ (h.well ?_)
  · rw [hr]
  · rw [hr]
  · rw [hm]
    exact fun e he => absurd he List.not_mem_nil

theorem unlessOver_leads {next : Merge O α → Turn (Merge O α × W) (Heard W α)}
    (h : Live order cs out m)
    (hn : Live order cs out { m with intakes := Merge.retire m.intakes } →
      Leads order cs out (next { m with intakes := Merge.retire m.intakes })) :
    Leads order cs out (m.unlessOver w next) := by
  rw [unlessOver]
  dsimp only
  split
  · next he =>
    exact (h.retire.outcome_of_nil (List.isEmpty_iff.mp he)).conclude h.supply_open
  · exact hn h.retire

theorem Live.failWith (h : Live order cs out m) {e : Failure}
    (he : .failed e ∈ endings m.intakes) : Leads order cs out (m.failWith w e) := by
  obtain ⟨c, hc, hce⟩ := List.mem_map.mp (h.among _ he)
  exact (Outcome.broken h.out_prefix ⟨c, hc, hce⟩).conclude h.supply_open

/-- If all intakes show their true heads, handing one over is a step of the
greedy merge. -/
theorem deliver_leads (h : Live order cs out m) (hc : m.supply.canSend = true)
    (hh : Heads m.intakes) : Leads order cs out (m.deliver w) := by
  obtain rfl := h.order_eq
  rw [deliver]
  rcases takeLeast_cases hh h.listening (ItemOrder.compare m.order) with
    ⟨e, ht, hg⟩ | ⟨ht, -⟩ | ⟨a, ts, ht, hg, hends, hl⟩
  · have hr : reference m.order cs = ⟨out, some e⟩ := by
      rw [h.merged, hg]
      simp [Merged.after]
    rw [ht]
    refine (Outcome.incomparable ?_ ?_).conclude h.supply_open
    · rw [hr]
    · rw [hr]
  · rw [ht]
    exact h.rest
  · rw [ht]
    refine .inl ?_
    dsimp only
    rw [Heard.events_ofEvents, Supply.send_events hc]
    exact
      { order_eq := rfl
        supply_open := (Supply.send_status m.supply a).trans h.supply_open
        working := rfl
        opened := h.opened
        listening := hl
        merged := by
          rw [h.merged, hg]
          exact (Merged.after_append out [a] _).symm
        among := by
          rw [hends]
          exact h.among
        well := by
          rw [hends]
          exact h.well }

theorem Live.refill (h : Live order cs out m) {ready : Bool} {n : Nat}
    {ts : List (Intake (RunStream α) α)} (hr : refillAll n m.intakes = .ok (ready, ts)) :
    Live order cs out { m with intakes := ts, phase := .waiting } := by
  obtain ⟨hl, hc, -⟩ := refillAll_ok hr h.listening
  exact
    { order_eq := h.order_eq
      supply_open := h.supply_open
      working := rfl
      opened := h.opened
      listening := hl
      merged := by
        rw [contents_congr hc]
        exact h.merged
      among := by
        rw [endings_congr hc]
        exact h.among
      well := by
        rw [endings_congr hc]
        exact h.well }

theorem proceed_leads (h : Live order cs out m) : Leads order cs out (m.proceed w) := by
  rw [proceed]
  split
  · exact h.rest
  next hc =>
    have hc : m.supply.canSend = true := by simpa using hc
    split
    · next e hr => exact h.failWith (refillAll_error hr h.listening)
    · next ready ts hr =>
      have hlive := h.refill hr
      dsimp only
      split
      · next hready =>
        refine unlessOver_leads hlive ?_
        intro hl
        refine deliver_leads hl hc ?_
        intro s hs
        have hs := mem_of_mem_retire hs
        obtain ⟨-, -, hall⟩ := refillAll_ok hr h.listening
        exact Intake.head_of_isReady (hlive.listening s hs) (hall hready s hs)
      · exact hlive.rest

theorem turn_leads {s : Merge O α × W} (h : Live order cs out s.1) :
    Leads order cs out (turn s) :=
  unlessOver_leads h fun hl => proceed_leads hl

/-! ## Drives -/

/-- A merge whose runs have not been opened. -/
structure Fresh (order : O) (cs : List (Course α)) (m : Merge O α) (w : W) : Prop where
  order_eq : m.order = order
  supply_open : m.supply.status = .open
  idle : m.phase = .idle
  unopened : m.intakes = []
  courses_eq : courses m.decode w m.runs = cs

/-- Where a merge of runs that hold `cs` is when it has handed `out` over. -/
inductive Tracks (order : O) (cs : List (Course α)) (out : List α) (m : Merge O α) (w : W) : Prop
  | fresh : out = [] → Fresh order cs m w → Tracks order cs out m w
  | live : Live order cs out m → Tracks order cs out m w
  | done : Done order cs out m → Tracks order cs out m w

theorem run_tracks (h : Live order cs out m) :
    Tracks order cs (out ++ Event.items (Heard.events (m.run w).2)) (m.run w).1.1
      (m.run w).1.2 := by
  have happ : ∀ hs ks : List (Heard W α), out ++ Event.items (Heard.events (hs ++ ks)) =
      (out ++ Event.items (Heard.events hs)) ++ Event.items (Heard.events ks) := by
    intro hs ks
    rw [Heard.events_append, Event.items_append, List.append_assoc]
  refine Turn.iterate_last
    (P := fun s hs => Live order cs (out ++ Event.items (Heard.events hs)) s.1)
    (Q := fun s hs => Tracks order cs (out ++ Event.items (Heard.events hs)) s.1 s.2)
    ?_ ?_ (m, w) (by simpa using h)
  · intro s hs hl ha
    rw [happ]
    rcases turn_leads hl with hl | ⟨hlast, -⟩
    · exact hl
    · exact absurd (hlast.symm.trans ha) (by simp)
  · intro s hs hl _
    rw [happ]
    rcases turn_leads hl with hl | ⟨-, hd⟩
    · exact .live hl
    · exact .done hd

theorem Fresh.open {ss : List (Intake (RunStream α) α)} {w' : W} (h : Fresh order cs m w)
    (ho : openRuns m.decode m.chunk w m.runs = (.ok ss, w')) :
    Live order cs [] { m with runs := [], intakes := m.intakes ++ ss } := by
  have hs := openRuns_opened m.decode m.chunk w m.runs
  rw [ho, h.courses_eq] at hs
  obtain ⟨hl, hc⟩ := hs
  have hitems : contents (m.intakes ++ ss) = cs.map Course.items := by
    rw [h.unopened, List.nil_append, ← hc, List.map_map]
    rfl
  have hends : endings (m.intakes ++ ss) = cs.map Course.ending := by
    rw [h.unopened, List.nil_append, ← hc, List.map_map]
    rfl
  exact
    { order_eq := h.order_eq
      supply_open := h.supply_open
      working := by rw [h.idle]; rfl
      opened := rfl
      listening := by
        rw [h.unopened]
        exact hl
      merged := by
        rw [hitems]
        rfl
      among := by
        rw [hends]
        intro e he
        exact he
      well := by
        rw [hends]
        intro hw c hc
        exact hw _ (List.mem_map.mpr ⟨c, hc, rfl⟩) }

theorem Fresh.drive (h : Fresh order cs m w) :
    Tracks order cs (Event.items (Heard.events (m.drive w).2)) (m.drive w).1.1
      (m.drive w).1.2 := by
  rw [drive_of_idle h.idle]
  split
  · next f w' ho =>
    have hs := openRuns_opened m.decode m.chunk w m.runs
    rw [ho, h.courses_eq] at hs
    have hout : Outcome order cs [] .errored (.failed (.io f)) := .broken List.nil_prefix hs
    rcases hout.conclude (w := w') h.supply_open with hl | ⟨-, hd⟩
    · exact .live hl
    · exact .done hd
  · next ss w' ho => exact run_tracks (h.open ho)

theorem Live.drive (h : Live order cs out m) :
    Tracks order cs (out ++ Event.items (Heard.events (m.drive w).2)) (m.drive w).1.1
      (m.drive w).1.2 := by
  by_cases hi : m.phase = .idle
  · -- all runs are open, so nothing is opened again
    rw [drive_of_idle hi, h.opened]
    refine run_tracks (m := { m with runs := [], intakes := m.intakes ++ [] }) ?_
    rw [List.append_nil, ← h.opened]
    exact h
  · rw [drive_of_working h.working hi]
    exact run_tracks h

theorem Done.drive (h : Done order cs out m) : m.drive w = ((m, w), []) := by
  obtain ⟨e, -, ho⟩ := h
  have hf : m.phase.isFinal = true := by
    generalize m.phase = p at ho
    cases ho <;> rfl
  exact drive_of_final hf

theorem Tracks.drive (h : Tracks order cs out m w) :
    Tracks order cs (out ++ Event.items (Heard.events (m.drive w).2)) (m.drive w).1.1
      (m.drive w).1.2 := by
  cases h with
  | fresh ho h =>
      rw [ho]
      exact h.drive
  | live h => exact h.drive
  | done h =>
      rw [h.drive]
      show Tracks order cs (out ++ []) m w
      rw [List.append_nil]
      exact .done h

/-- What a consumer does to the supply changes nothing of where a merge is. -/
theorem Tracks.withSupply (h : Tracks order cs out m w) {o : Supply α}
    (hopen : o.isOpen = m.supply.isOpen) (hend : o.ending? = m.supply.ending?) :
    Tracks order cs out { m with supply := o } w := by
  have ho : m.supply.status = .open → o.status = .open := by
    intro h
    rw [← Supply.isOpen_iff, hopen, Supply.isOpen_iff]
    exact h
  cases h with
  | fresh hout h =>
      exact .fresh hout
        { order_eq := h.order_eq
          supply_open := ho h.supply_open
          idle := h.idle
          unopened := h.unopened
          courses_eq := h.courses_eq }
  | live h =>
      exact .live
        { order_eq := h.order_eq
          supply_open := ho h.supply_open
          working := h.working
          opened := h.opened
          listening := h.listening
          merged := h.merged
          among := h.among
          well := h.well }
  | done h =>
      obtain ⟨e, he, h⟩ := h
      exact .done ⟨e, hend.trans he, h⟩

theorem Tracks.performAll {s : Merge O α × W} (h : Tracks order cs [] s.1 s.2)
    (sched : List (Command α)) :
    Tracks order cs (Event.items (Command.performAll s sched).2)
      (Command.performAll s sched).1.1 (Command.performAll s sched).1.2 := by
  refine Command.performAll_induction
    (P := fun (s : Merge O α × W) es => Tracks order cs (Event.items es) s.1 s.2) ?_ ?_ ?_ h sched
  · intro s k es h
    rw [Event.items_append]
    have : Event.items (Producer.subscribe s k).2 = [] := Supply.items_subscribe s.1.supply k
    rw [this, List.append_nil]
    exact h.withSupply (Supply.isOpen_subscribe s.1.supply k)
      (Supply.ending?_subscribe s.1.supply k)
  · intro s d es h
    exact h.withSupply rfl rfl
  · intro s es h
    rw [Event.items_append]
    exact h.drive

theorem Tracks.not_closed (h : Tracks order cs out m w) : m.supply.status ≠ .closed := by
  intro hc
  cases h with
  | fresh _ h => exact absurd (h.supply_open.symm.trans hc) (by simp)
  | live h => exact absurd (h.supply_open.symm.trans hc) (by simp)
  | done h =>
      obtain ⟨e, he, -⟩ := h
      simp [Supply.ending?, hc] at he

theorem Tracks.out_prefix (h : Tracks order cs out m w) : out <+: (reference order cs).items := by
  cases h with
  | fresh ho => exact ho ▸ List.nil_prefix
  | live h => exact h.out_prefix
  | done h =>
      obtain ⟨e, -, h⟩ := h
      exact h.out_prefix

theorem Tracks.outcome (h : Tracks order cs out m w) {e : Ending}
    (he : m.supply.ending? = some e) : Outcome order cs out m.phase e := by
  cases h with
  | fresh _ h => exact absurd he (by simp [Supply.ending?_of_open h.supply_open])
  | live h => exact absurd he (by simp [Supply.ending?_of_open h.supply_open])
  | done h =>
      obtain ⟨e', he', h⟩ := h
      obtain rfl := Option.some.inj (he'.symm.trans he)
      exact h

theorem Tracks.final (h : Tracks order cs out m w) (hf : m.phase.isFinal = true) :
    ∃ e, m.supply.ending? = some e ∧ Outcome order cs out m.phase e := by
  cases h with
  | fresh _ h =>
      rw [h.idle] at hf
      exact absurd hf (by simp [MergePhase.isFinal])
  | live h => exact absurd (h.working.symm.trans hf) (by simp)
  | done h => exact h

theorem Tracks.ended (h : Tracks order cs out m w) (hp : m.phase = .ended) :
    out = (reference order cs).items ∧ (reference order cs).error = none ∧
      ∀ c ∈ cs, c.ending = .ended := by
  obtain ⟨e, -, ho⟩ := h.final (by rw [hp]; rfl)
  rw [hp] at ho
  cases ho with
  | ended ho hn hc => exact ⟨ho, hn, hc⟩

omit [ItemOrder O α] in
theorem ofRuns_fresh (order : O) (decode : List UInt8 → Except Cause α) (runs : List (Run α))
    (ahead chunk : Nat) (w : W) :
    Fresh order (courses decode w runs)
      (((ofRuns order decode runs).withAhead ahead).withChunk chunk) w where
  order_eq := rfl
  supply_open := rfl
  idle := rfl
  unopened := rfl
  courses_eq := rfl

/-- Whatever its files do and whatever is asked of it, a merge hands over a
beginning of the greedy merge of what its runs hold.  It ends well only
after the whole greedy merge, and not at all if a run was broken.  If a
comparison fails, then where it fails in the greedy merge, and this is the
only ending that is heard. -/
theorem performAll_refines_greedy (order : O) (decode : List UInt8 → Except Cause α)
    (runs : List (Run α)) (ahead chunk : Nat) (w : W) (sched : List (Command α)) :
    let cs := courses decode w runs
    let m := ((ofRuns order decode runs).withAhead ahead).withChunk chunk
    let s := (Command.performAll (m, w) sched).1.1
    let es := (Command.performAll (m, w) sched).2
    Event.items es <+: (reference order cs).items ∧
      (s.phase = .ended →
        Event.items es = (reference order cs).items ∧ (reference order cs).error = none) ∧
      (∀ e, s.supply.ending? = some (.failed (.ofCompare e)) →
        Event.items es = (reference order cs).items ∧ (reference order cs).error = some e) ∧
      (s.phase = .errored → (∀ c ∈ cs, c.ending = .ended) →
        ∃ e, s.supply.ending? = some (.failed (.ofCompare e))) ∧
      ((∃ c ∈ cs, c.ending ≠ .ended) → s.phase ≠ .ended) ∧
      (Event.endings es).length ≤ 1 ∧ ∀ e ∈ Event.endings es, s.supply.ending? = some e := by
  intro cs m s es
  have hfresh : Fresh order cs m w := ofRuns_fresh order decode runs ahead chunk w
  have h : Tracks order cs (Event.items es) s _ := (Tracks.fresh rfl hfresh).performAll sched
  have htold : Supply.Told es s.supply := by
    have := lawful.told (s := (m, w)) (inStep_of_open rfl rfl) sched
    rwa [Command.heard_conduct, Command.after_conduct] at this
  refine ⟨h.out_prefix, ?_, ?_, ?_, ?_, htold.settled.length_endings, ?_⟩
  · intro hp
    obtain ⟨ho, hn, -⟩ := h.ended hp
    exact ⟨ho, hn⟩
  · intro e he
    have ho := h.outcome he
    generalize s.phase = p at ho
    generalize hf : Failure.ofCompare e = f at ho
    cases ho with
    | incomparable ho hn =>
        obtain rfl : e = _ := by simpa [Failure.ofCompare] using hf
        exact ⟨ho, hn⟩
    | broken _ hc =>
        obtain ⟨c, hc, hce⟩ := hc
        exact absurd (hf ▸ hce) (ending_ne_comparison c hc e)
  · intro hp hgood
    obtain ⟨e, he, ho⟩ := h.final (by rw [hp]; rfl)
    rw [hp] at ho
    cases ho with
    | incomparable => exact ⟨_, he⟩
    | broken _ hc =>
        obtain ⟨c, hc, hce⟩ := hc
        exact absurd (hce.symm.trans (hgood c hc)) (by simp)
  · rintro ⟨c, hc, hbad⟩ hp
    obtain ⟨-, -, hgood⟩ := h.ended hp
    exact hbad (hgood c hc)
  · intro e he
    exact htold.ending?_eq h.not_closed he

end ExternalSort.Merge
