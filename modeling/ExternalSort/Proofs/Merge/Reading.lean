/-
What a merge reads of its runs.

A merge has the files of its runs until it has none, and opens them once
(`OfRuns`).  What it is to hear of a run is what the run holds, or a first part
of that and then the fault that reading it has met (`openRuns_gives`).
-/
import ExternalSort.Proofs.Merge.Progress
import ExternalSort.Proofs.Run.Conservation
import ExternalSort.Proofs.Store.Sharing

namespace ExternalSort

variable {O α W : Type}

/-! ## Files that cannot be read to their end -/

/-- Where reading fails between good frames, the items in front of it are read. -/
theorem Frame.Reads.interrupted {decode : List UInt8 → Except Cause α} {bs part : List UInt8}
    {items : List α} (h : Reads decode none bs ⟨items, .ended⟩) (hp : part <+: bs) (f : Fault) :
    ∃ first, first <+: items ∧ Reads decode (some f) part ⟨first, .failed (.io f)⟩ := by
  generalize hc : (⟨items, .ended⟩ : Course α) = c at h
  induction h generalizing items part with
  | @item payload rest a c hlen hd _ ih =>
      obtain ⟨rfl, hend⟩ := Course.mk.inj hc
      by_cases hwhole : (encode payload).length ≤ part.length
      · obtain ⟨more, rfl⟩ :=
          List.prefix_of_prefix_length_le (List.prefix_append _ rest) hp hwhole
        obtain ⟨first, hfirst, hreads⟩ := ih ((List.prefix_append_right_inj _).mp hp)
          (congrArg (Course.mk c.items) hend)
        exact ⟨a :: first, List.cons_prefix_cons.mpr ⟨rfl, hfirst⟩, .item hlen hd hreads⟩
      -- The frame is not whole, so nothing is read but the fault.
      refine ⟨[], List.nil_prefix, ?_⟩
      by_cases hheader : part.length < headerSize
      · exact .broken rfl (.header hheader)
      have hhead : bigEndian headerSize payload.length <+: part := by
        refine List.prefix_of_prefix_length_le ?_ hp ?_
        · rw [encode, List.append_assoc]
          exact List.prefix_append _ _
        · rw [length_bigEndian]
          omega
      obtain ⟨begun, rfl⟩ := hhead
      refine .broken rfl (.payload hlen ?_)
      rw [length_encode, List.length_append, length_bigEndian] at hwhole
      omega
  | undecodable => exact absurd (Course.mk.inj hc).2 (by simp)
  | tooLarge => exact absurd (Course.mk.inj hc).2 (by simp)
  | broken hf => exact absurd hf (by simp)
  | ended =>
      obtain rfl := List.prefix_nil.mp hp
      exact ⟨[], List.nil_prefix, .broken rfl (.header (by decide))⟩
  | truncated => exact absurd (Course.mk.inj hc).2 (by simp)

/-- An intake is to give some items, or some of the first of them and then the
fault that reading has met. -/
def Intake.Gives (s : Intake (RunStream α) α) (items : List α) : Prop :=
  s.course = ⟨items, .ended⟩ ∨ ∃ first f, first <+: items ∧ s.course = ⟨first, .failed (.io f)⟩

namespace Merge

variable [SpillStore W] {V : Honest W} {runs : List (Run α)} {decode : List UInt8 → Except Cause α}

/-- Runs that are opened are read as what they hold. -/
theorem openRuns_gives (hopens : V.Opens) {chunk : Nat} {w : W} (hw : V.ok w)
    {lists : List (List α)} (h : List.Forall₂ (Run.Holds (V.files w) decode) runs lists)
    {ss : List (Intake (RunStream α) α)}
    (ho : (openRuns decode chunk w runs).1 = .ok ss) : List.Forall₂ Intake.Gives ss lists := by
  induction runs generalizing w lists ss with
  | nil =>
      obtain rfl := List.forall₂_nil_left_iff.mp h
      obtain rfl := Except.ok.inj ho
      exact .nil
  | cons run runs ih =>
      obtain ⟨items, lists, hrun, hruns, rfl⟩ := List.forall₂_cons_left_iff.mp h
      have hcons : ∀ {w₁ : W} (stream : RunStream α), V.ok w₁ → V.files w₁ = V.files w →
          (Intake.ofStream stream).Gives items →
            (openRuns decode chunk w₁ runs).1.map (Intake.ofStream stream :: ·) = .ok ss →
              List.Forall₂ Intake.Gives ss (items :: lists) := by
        intro w₁ stream hw₁ hfiles hgives hm
        rw [← hfiles] at hruns
        cases hr : (openRuns decode chunk w₁ runs).1 with
        | error e => exact absurd (hr ▸ hm) (by simp [Except.map])
        | ok ts =>
            rw [hr] at hm
            obtain rfl := Except.ok.inj hm
            exact .cons hgives (ih hw₁ hruns hr)
      cases run with
      | memory as =>
          obtain rfl : as = items := hrun
          refine hcons (.memory (.ofList as)) hw rfl (.inl ?_) ho
          exact Intake.course_ofStream (RunStream.memory (.ofList as)) rfl
      | file f =>
          rw [openRuns] at ho
          split at ho
          · exact absurd ho (by simp)
          next source w₁ hopen =>
          obtain ⟨hw₁, hfiles, hsource⟩ := hopens hw hopen
          obtain ⟨bs, hbs, hpart, hwhole⟩ := hsource source rfl
          obtain ⟨_, hfile, hreads, -⟩ := hrun.content
          obtain rfl := Option.some.inj (hbs.symm.trans hfile)
          refine hcons (.file (.ofSource source decode chunk)) hw₁ hfiles ?_ ho
          have hcourse := Intake.course_ofStream
            (RunStream.file (.ofSource source decode chunk)) rfl
          change _ = Frame.course decode (Source.content source).1 (Source.content source).2
            at hcourse
          rw [Intake.Gives, hcourse]
          cases hfault : (Source.content source).2 with
          | none =>
              rw [hwhole hfault]
              exact .inl hreads.eq_course
          | some fault =>
              obtain ⟨first, hfirst, hreads⟩ := hreads.interrupted hpart fault
              exact .inr ⟨first, fault, hfirst, hreads.eq_course⟩

theorem courses_items (hopens : V.Opens) {w : W} (hw : V.ok w) {lists : List (List α)}
    (h : List.Forall₂ (Run.Holds (V.files w) decode) runs lists)
    (hended : ∀ c ∈ courses decode w runs, c.ending = .ended) :
    (courses decode w runs).map Course.items = lists := by
  induction runs generalizing w lists with
  | nil =>
      obtain rfl := List.forall₂_nil_left_iff.mp h
      rfl
  | cons run runs ih =>
      obtain ⟨items, lists, hrun, hruns, rfl⟩ := List.forall₂_cons_left_iff.mp h
      cases run with
      | memory as =>
          obtain rfl : as = items := hrun
          exact congrArg (as :: ·) (ih hw hruns (List.forall_mem_cons.mp hended).2)
      | file f =>
          rw [courses] at hended ⊢
          split at hended
          · exact absurd (List.forall_mem_cons.mp hended).1 (by simp)
          next source w₁ hopen =>
          obtain ⟨hw₁, hfiles, hsource⟩ := hopens hw hopen
          obtain ⟨bs, hbs, hpart, hwhole⟩ := hsource source rfl
          obtain ⟨_, hfile, hreads, -⟩ := hrun.content
          obtain rfl := Option.some.inj (hbs.symm.trans hfile)
          obtain ⟨hgood, hended⟩ := List.forall_mem_cons.mp hended
          rw [← hfiles] at hruns
          refine congr (congrArg List.cons ?_) (ih hw₁ hruns hended)
          cases hfault : (Source.content source).2 with
          | none =>
              rw [hwhole hfault]
              exact congrArg Course.items hreads.eq_course
          | some fault =>
              obtain ⟨first, -, hreads⟩ := hreads.interrupted hpart fault
              rw [hfault, hreads.eq_course] at hgood
              exact absurd hgood (by simp)

/-! ## The runs of a merge -/

/-- How far a merge of some runs has come with them. -/
inductive OfRuns (runs : List (Run α)) (decode : List UInt8 → Except Cause α) (m : Merge O α) :
    Prop
  | unopened : m.phase = .idle → m.runs = runs → m.decode = decode → m.files = Run.paths runs →
      OfRuns runs decode m
  | opened : m.runs = [] → (m.supply.isOpen = true → m.files = Run.paths runs) →
      OfRuns runs decode m

omit [SpillStore W] in
theorem OfRuns.files {m : Merge O α} (h : OfRuns runs decode m) (ho : m.supply.isOpen = true) :
    m.files = Run.paths runs := by
  cases h with
  | unopened _ _ _ hf => exact hf
  | opened _ hf => exact hf ho

omit [SpillStore W] in
theorem OfRuns.withSupply {m : Merge O α} (h : OfRuns runs decode m) {o : Supply α}
    (ho : o.isOpen = m.supply.isOpen) : OfRuns runs decode { m with supply := o } := by
  cases h with
  | unopened hp hr hd hf => exact .unopened hp hr hd hf
  | opened hr hf => exact .opened hr fun h => hf (ho.symm.trans h)

variable [ItemOrder O α] {m : Merge O α} {w : W}

/-- Turns open nothing, and keep all files until the end. -/
theorem turn_runs (s : Merge O α × W) (hr : s.1.runs = [])
    (hf : s.1.supply.isOpen = true → s.1.files = Run.paths runs) :
    (turn s).state.1.runs = [] ∧
      ((turn s).state.1.supply.isOpen = true → (turn s).state.1.files = Run.paths runs) := by
  obtain ⟨m, w⟩ := s
  have ht := turn_turns m w
  generalize turn (m, w) = t at ht
  cases ht with
  | ends n phase e =>
      have hclosed : (n.supply.finish e).1.isOpen = false := n.supply.finish_isOpen e
      exact ⟨rfl, fun ho => absurd (hclosed.symm.trans ho) (by simp)⟩
  | sends hc => exact ⟨hr, fun _ => hf (Supply.isOpen_iff.mpr (Supply.canSend_iff.mp hc).1)⟩
  | unasked => exact ⟨hr, hf⟩
  | waits => exact ⟨hr, hf⟩
  | noWinner => exact ⟨hr, hf⟩

theorem run_ofRuns (hr : m.runs = []) (hf : m.supply.isOpen = true → m.files = Run.paths runs) :
    OfRuns runs decode (m.run w).1.1 := by
  obtain ⟨hr, hf⟩ := Turn.iterate_induction
    (P := fun s _ => s.1.runs = [] ∧ (s.1.supply.isOpen = true → s.1.files = Run.paths runs))
    (fun s _ hs => turn_runs s hs.1 hs.2) (m, w) ⟨hr, hf⟩
  exact .opened hr hf

theorem OfRuns.drive (h : OfRuns runs decode m) : OfRuns runs decode (m.drive w).1.1 := by
  cases hf : m.phase.isFinal with
  | true =>
      rw [drive_of_final hf]
      exact h
  | false =>
      by_cases hi : m.phase = .idle
      · rw [drive_of_idle hi]
        split
        · next f w' _ =>
          have hclosed : (m.supply.finish (.failed (.io f))).1.isOpen = false :=
            m.supply.finish_isOpen _
          exact .opened rfl fun ho => absurd (hclosed.symm.trans ho) (by simp)
        · exact run_ofRuns rfl h.files
      · rw [drive_of_working hf hi]
        cases h with
        | unopened hp => exact absurd hp hi
        | opened hr hfiles => exact run_ofRuns hr hfiles

theorem perform_drives (m : Merge O α) (w : W) (c : Command α) :
    ∃ o : Supply α, o.isOpen = m.supply.isOpen ∧
      ((Command.perform (m, w) c).1 = ({ m with supply := o }, w) ∨
        (Command.perform (m, w) c).1 = ({ m with supply := o }.drive w).1) := by
  rcases Command.perform_cases (m, w) c with ⟨k, rfl⟩ | ⟨-, t, ht, hp⟩
  · exact ⟨(m.supply.subscribe k).1, Supply.isOpen_subscribe m.supply k, .inl rfl⟩
  · obtain ⟨o, ho, rfl⟩ : ∃ o : Supply α, o.isOpen = m.supply.isOpen ∧
        t = ({ m with supply := o }, w) := by
      rcases ht with ⟨rfl, -⟩ | ⟨d, -, rfl⟩
      · exact ⟨m.supply, rfl, rfl⟩
      · exact ⟨{ m.supply with demand := m.supply.demand.change d }, rfl, rfl⟩
    exact ⟨o, ho, hp.imp (congrArg Prod.fst) (congrArg Prod.fst)⟩

end Merge

end ExternalSort
