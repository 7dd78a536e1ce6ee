/-
A sort comes back.

In a drive a sort reads its input, sorts what its generator holds and reads the
files of its runs.  None of this is aborted if the input comes back, if the order
does not contradict itself about the items of the input, and if the chunks fit a
buffer, whatever the consumers do (`start_returns`).
-/
import ExternalSort.Proofs.Merge.Room
import ExternalSort.Proofs.Run.Comparisons
import ExternalSort.Proofs.Sorter.Draining

namespace ExternalSort.Sorter

open ReturningProducer (Fits)

open RunGenerator (Accepted)

variable {S O α W : Type} [FiniteProducer S α] [AbortableProducer S α] [ReturningProducer S α]
  [ItemOrder O α] [SpillStore W] {s : Sorter S O α} {t : Sorter S O α × W}

/-! ## Room -/

/-- A sort that has room for all that it may read. -/
def HasRoom (s : Sorter S O α) : Prop :=
  match s.stage with
  | .collecting .. => Fits s.input ∧ FrameStream.ChunkFits s.settings.chunk
  | .merging m => m.HasRoom
  | .failed _ | .closed _ => True

omit [ItemOrder O α] [SpillStore W] in
theorem fits_askInput (h : Fits s.input) : Fits s.askInput := by
  rw [askInput]
  split
  · exact h
  · exact ReturningProducer.fits_withDemand _ h

omit [FiniteProducer S α] [AbortableProducer S α] [ReturningProducer S α] [ItemOrder O α]
  [SpillStore W] in
theorem mergeOf_hasRoom (b : RunGenerator O α) {o : Supply α} (runs : List (Run α))
    (ho : o.canSend = true) (h : FrameStream.ChunkFits s.settings.chunk) :
    (s.mergeOf b o runs).HasRoom where
  inStep := Merge.inStep_of_open rfl (Supply.isOpen_iff.mpr (Supply.canSend_iff.mp ho).1)
  chunk := FrameStream.fits_ofSource h [] s.codec.decode
  each _ hs := absurd hs List.not_mem_nil

theorem Begins.hasRoom {m : Merge O α} {w : W} (h : Begins t m w) (hr : t.1.HasRoom) :
    m.HasRoom := by
  cases h with
  | heard hs hc =>
      rw [HasRoom, hs] at hr
      exact mergeOf_hasRoom _ _ hc hr.2
  | read hs hc =>
      rw [HasRoom, hs] at hr
      exact mergeOf_hasRoom _ _ hc hr.2

theorem turn_hasRoom (h : t.1.HasRoom) : (turn t).state.1.HasRoom := by
  obtain ⟨s, w⟩ := t
  cases hst : s.stage with
  | collecting heard b o =>
      have ht := turn_turns hst w
      generalize turn (s, w) = v at ht
      cases ht with
      | unasked => exact h
      | fails => trivial
      | begins _ _ _ _ hb => exact (hb.hasRoom h).drive
      | goesOn =>
          rw [HasRoom, hst] at h
          exact ⟨ReturningProducer.fits_drive (fits_askInput h.1), h.2⟩
  | merging | failed | closed =>
      rw [turn, hst]
      exact h

theorem drive_hasRoom (h : s.HasRoom) (w : W) : (s.drive w).1.1.HasRoom := by
  rw [drive]
  split
  · exact Turn.iterate_induction (fun t _ => t.1.HasRoom) (fun _ _ h => turn_hasRoom h) (s, w) h
  · next m hst =>
    rw [HasRoom, hst] at h
    exact h.drive
  · exact h
  · exact h

omit [ItemOrder O α] [SpillStore W] in
theorem withSupply_hasRoom (h : s.HasRoom) {o : Supply α} (ho : o.isOpen = s.supply.isOpen) :
    (s.withSupply o).HasRoom := by
  obtain ⟨settings, codec, input, stage, itemsRead, files, runs⟩ := s
  cases stage with
  | collecting heard b p => exact h
  | merging m => exact Merge.HasRoom.withSupply h ho
  | failed p => trivial
  | closed d => trivial

theorem performAll_hasRoom (h : t.1.HasRoom) (cs : List (Command α)) :
    (Command.performAll t cs).1.1.HasRoom :=
  Command.performAll_induction (P := fun (t : Sorter S O α × W) _ => t.1.HasRoom)
    (fun t k _ h => withSupply_hasRoom h (Supply.isOpen_subscribe t.1.supply k))
    (fun _ _ _ h => withSupply_hasRoom h rfl) (fun t _ h => drive_hasRoom h t.2) h cs

/-! ## Turns -/

section Accepted

variable {order : O} {all taken : List α} {b : RunGenerator O α} {o : Supply α} {w : W}
  (hc : ItemOrder.IsConsistent order all) (h : Accepted order taken b)
include hc h

omit [FiniteProducer S α] [AbortableProducer S α] [ReturningProducer S α] in
theorem beginMergeReturns_of_accepted (ht : taken <+: all)
    (hroom : ∀ b runs, (s.mergeOf b o runs).HasRoom) : s.beginMergeReturns w b o = true := by
  rw [beginMergeReturns, h.closeReturns hc ht, Bool.true_and]
  split
  · rfl
  · exact (hroom _ _).returns

omit [FiniteProducer S α] [AbortableProducer S α] [ReturningProducer S α] in
theorem takeInReturns_of_accepted {es : List (Event α)} (ht : taken ++ Event.items es <+: all)
    (hroom : ∀ b runs, (s.mergeOf b o runs).HasRoom) : s.takeInReturns w b o es = true := by
  rw [takeInReturns, h.addAllReturns hc ht, Bool.true_and]
  split
  · next hadd _ => exact beginMergeReturns_of_accepted hc (h.addAll hadd) ht hroom
  · rfl

end Accepted

variable [ForetoldProducer S α] {b b' : RunGenerator O α} {w w' : W} {c : Course α}
  {taken out : List α} {heard : Option Ending} {o : Supply α}

omit [AbortableProducer S α] [ReturningProducer S α] in
theorem Gathering.accepted (h : Gathering b w c taken heard s b' o w') (hb : b.buffer = #[]) :
    taken <+: c.items ∧ Accepted b.order taken b' := by
  have hfresh : Accepted b.order [] b := ⟨rfl, by simp [hb]⟩
  exact ⟨⟨_, congrArg Course.items h.course⟩, hfresh.addAll h.added⟩

omit [AbortableProducer S α] [ReturningProducer S α] in
theorem Gathering.batch (h : Gathering b w c taken none s b' o w') :
    taken ++ Event.items (Producer.drive s.input).2 <+: c.items := by
  have hc := (Intake.course_hear (s := s.hearing taken none)
    (ForetoldProducer.course_drive s.input)).trans h.course
  exact ⟨_, congrArg Course.items hc⟩

section Comes

variable (hb : b.buffer = #[]) (hc : ItemOrder.IsConsistent b.order c.items)
include hb hc

theorem Comes.turnReturns (h : Comes b w c out t) (hr : t.1.HasRoom) : turnReturns t = true := by
  obtain ⟨s, w'⟩ := t
  rw [Sorter.turnReturns]
  cases h with
  | @gathering taken heard b' o _ hst h =>
      have hst : s.stage = .collecting heard b' o := hst
      rw [HasRoom, hst] at hr
      simp only [hst]
      cases ho : o.canSend with
      | false => rfl
      | true =>
          have hroom : ∀ b runs, (s.mergeOf b o runs).HasRoom := fun b runs =>
            mergeOf_hasRoom b runs ho hr.2
          obtain ⟨ht, hacc⟩ := h.accepted hb
          rw [Bool.not_true, Bool.false_or]
          split
          · rfl
          · exact beginMergeReturns_of_accepted hc hacc ht hroom
          · rw [ReturningProducer.returns_of_fits (fits_askInput hr.1), Bool.true_and]
            exact takeInReturns_of_accepted hc hacc h.askInput.batch hroom
  | failed _ hst =>
      have hst : s.stage = .failed _ := hst
      simp only [hst]
  | merging hst =>
      have hst : s.stage = .merging _ := hst
      simp only [hst]

theorem Comes.returns (h : Comes b w c out t) (hr : t.1.HasRoom) : t.1.returns t.2 = true := by
  rw [Sorter.returns]
  split
  · refine Turn.all_iff.mpr fun u hu => ?_
    have hkeep := hu.keeps (P := fun u => (∃ out, Comes b w c out u) ∧ u.1.HasRoom)
      (fun _ hu _ => ⟨⟨_, turn_comes hu.1.choose_spec⟩, turn_hasRoom hu.2⟩) ⟨⟨_, h⟩, hr⟩
    exact hkeep.1.choose_spec.turnReturns hb hc hkeep.2
  · next m hst =>
    rw [HasRoom, hst] at hr
    exact hr.returns
  · rfl
  · rfl

end Comes

section Start

variable {settings : Settings} {codec : Codec α} {order : O} {tag : UInt32} {input : S}
  (hfits : Fits input) (hchunk : FrameStream.ChunkFits settings.chunk)
  (h : start w settings codec order tag input = (.ok s, w'))
include hfits hchunk h

omit [ItemOrder O α] [ForetoldProducer S α] in
theorem start_hasRoom : s.HasRoom := by
  obtain ⟨-, -, rfl⟩ := start_ok.mp h
  exact ⟨ReturningProducer.fits_subscribe {} hfits, hchunk⟩

theorem start_returns (hin : (Producer.supply input).Unheard)
    (hc : ItemOrder.IsConsistent order (ForetoldProducer.course input).items) :
    Command.AlwaysReturns (s, w') := by
  intro cs u
  have hcomes := performAll_comes (start_comes hin h) cs
  have hroom := performAll_hasRoom (t := (s, w')) (start_hasRoom hfits hchunk h) cs
  refine ⟨hcomes.returns rfl hc hroom, fun demand => ?_⟩
  exact (hcomes.withSupply (o := { u.1.supply with demand }) rfl rfl).returns rfl hc
    (withSupply_hasRoom hroom rfl)

end Start

end ExternalSort.Sorter
