/-
Room for reading the files of a merge.

A merge reads each of its files by chunks of one size, so if these fit a buffer
behind an unfinished frame, no drive of it is aborted.
-/
import ExternalSort.Proofs.Frame.Room
import ExternalSort.Proofs.Merge.Draining

namespace ExternalSort

open ReturningProducer (Fits)

instance {α : Type} : ReturningProducer (RunStream α) α where
  Fits
    | .memory s => Fits s
    | .file r => Fits r
  returns_of_fits {s} h := by
    cases s with
    | memory s => exact ReturningProducer.returns_of_fits (s := s) h
    | file r => exact ReturningProducer.returns_of_fits (s := r) h
  fits_subscribe {s} k h := by
    cases s with
    | memory s => exact ReturningProducer.fits_subscribe (s := s) k h
    | file r => exact ReturningProducer.fits_subscribe (s := r) k h
  fits_withDemand {s} d h := by
    cases s with
    | memory s => exact ReturningProducer.fits_withDemand (s := s) d h
    | file r => exact ReturningProducer.fits_withDemand (s := r) d h
  fits_drive {s} h := by
    cases s with
    | memory s => exact ReturningProducer.fits_drive (s := s) h
    | file r => exact ReturningProducer.fits_drive (s := r) h

namespace Intake

variable {S α : Type} [FiniteProducer S α] [AbortableProducer S α] [ReturningProducer S α]
  {s : Intake S α} {n : Nat}

theorem fits_ask (h : Fits s.stream) : Fits (s.ask n).stream := by
  rw [ask]
  split
  · exact ReturningProducer.fits_withDemand _ h
  · exact h

theorem fits_topUp (h : Fits s.stream) : Fits (s.topUp n).stream := by
  rw [topUp]
  split
  · exact ReturningProducer.fits_drive (fits_ask h)
  · exact fits_ask h

theorem topUpReturns_of_fits (h : Fits s.stream) : s.topUpReturns n = true := by
  rw [topUpReturns, ReturningProducer.returns_of_fits (fits_ask h), Bool.or_true]

end Intake

namespace Merge

section Intakes

variable {S α : Type} [FiniteProducer S α] [AbortableProducer S α] [ReturningProducer S α]
  {ss : List (Intake S α)} {n : Nat}

theorem refillAllReturns_of_fits (h : ∀ s ∈ ss, Fits s.stream) : refillAllReturns n ss = true := by
  induction ss with
  | nil => rfl
  | cons s ss ih =>
      obtain ⟨hs, hss⟩ := List.forall_mem_cons.mp h
      have hrefill : refillReturns n s = true := by
        rw [refillReturns]
        split
        · exact Intake.topUpReturns_of_fits hs
        · rfl
      rw [refillAllReturns, hrefill, ih hss, Bool.or_true, Bool.and_true]

end Intakes

variable {O α W : Type} [ItemOrder O α] [SpillStore W] {m : Merge O α} {w : W}

theorem kept_fits : Kept fun _ (s : Intake (RunStream α) α) => Fits s.stream where
  refill hs := refill_keeps (P := fun s => Fits s.stream) hs (Intake.fits_topUp hs)
  takeFirst ht hs := by
    obtain ⟨rest, -, rfl⟩ := Intake.takeFirst_eq_some.mp ht
    exact hs

/-- A merge that has room for all that it may read. -/
structure HasRoom (m : Merge O α) : Prop where
  inStep : m.InStep
  chunk : FrameStream.ChunkFits m.chunk
  each : m.Each fun _ s => Fits s.stream

section HasRoom

variable (h : m.HasRoom)
include h

omit [ItemOrder O α] in
theorem HasRoom.enters : m.Enters (fun _ s => Fits s.stream) w :=
  ⟨h.each, fun _ => openRuns_streams (fun _ => trivial)
    fun source => FrameStream.fits_ofSource h.chunk source m.decode⟩

theorem HasRoom.returns : m.returns w = true := by
  rw [Merge.returns, Option.all_eq_true]
  intro e he
  refine Turn.all_iff.mpr fun u hu => ?_
  have heach := (h.enters.takesTurn kept_fits ⟨e, he, hu⟩).2
  rw [turnReturns, refillAllReturns_of_fits fun s hs => heach s (mem_of_mem_retire hs),
    Bool.or_true]

theorem HasRoom.drive : (m.drive w).1.1.HasRoom where
  inStep := drive_inStep h.inStep
  chunk := by
    rw [drive_chunk]
    exact h.chunk
  each := (h.enters.drive kept_fits h.inStep).2

omit [ItemOrder O α] [SpillStore W] in
theorem HasRoom.withSupply {o : Supply α} (ho : o.isOpen = m.supply.isOpen) :
    HasRoom { m with supply := o } where
  inStep := ⟨h.inStep.phase.trans (congrArg _ ho.symm), h.inStep.released⟩
  chunk := h.chunk
  each := h.each

end HasRoom

instance : ReturningProducer (Merge O α × W) α where
  Fits t := t.1.HasRoom
  returns_of_fits h := h.returns
  fits_subscribe {t} k h := h.withSupply (Supply.isOpen_subscribe t.1.supply k)
  fits_withDemand _ h := h.withSupply rfl
  fits_drive h := h.drive

omit [ItemOrder O α] in
theorem ofRuns_hasRoom (order : O) (decode : List UInt8 → Except Cause α) (runs : List (Run α))
    (ahead : Nat) {chunk : Nat} (h : FrameStream.ChunkFits chunk) :
    (((ofRuns order decode runs).withAhead ahead).withChunk chunk).HasRoom where
  inStep := inStep_of_open rfl rfl
  chunk := FrameStream.fits_ofSource h [] decode
  each _ hs := absurd hs List.not_mem_nil

end Merge

end ExternalSort
