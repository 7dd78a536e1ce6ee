/-
What is written into a file is read from it.

If an item can be had back from its payload, the frames of some items read as
these items and then as whatever stands behind them (`Frame.Reads.frames`).
-/
import ExternalSort.Proofs.Frame.Grammar
import ExternalSort.Proofs.Frame.Writing

namespace ExternalSort

variable {α : Type} {codec : Codec α} {P : α → Prop} {items : List α}

namespace Codec

/-- Items of `P` fit into a frame and come back out of it. -/
def Sound (codec : Codec α) (P : α → Prop) : Prop :=
  ∀ a, P a → ∃ payload, codec.encode a = .ok payload ∧ payload.length ≤ Frame.maxPayload ∧
    codec.decode payload = .ok a

/-- Items of `P` that can be encoded come out as they went in. -/
def RoundTrips (codec : Codec α) (P : α → Prop) : Prop :=
  ∀ a, P a → ∀ payload, codec.encode a = .ok payload → codec.decode payload = .ok a

theorem Sound.payload (h : codec.Sound P) (hP : ∀ a ∈ items, P a) :
    ∀ a ∈ items, ∃ payload, codec.payload a = .ok payload := by
  intro a ha
  obtain ⟨payload, he, hlen, -⟩ := h a (hP a ha)
  exact ⟨payload, payload_eq_ok.mpr ⟨he, hlen⟩⟩

theorem Sound.roundTrips (h : codec.Sound P) : codec.RoundTrips P := by
  intro a ha payload he
  obtain ⟨bs, hbs, -, hd⟩ := h a ha
  obtain rfl := Except.ok.inj (hbs.symm.trans he)
  exact hd

theorem RoundTrips.sound (h : codec.RoundTrips P) (hP : ∀ a ∈ items, P a)
    (hall : ∀ a ∈ items, ∃ payload, codec.payload a = .ok payload) :
    codec.Sound (· ∈ items) := by
  intro a ha
  obtain ⟨payload, hp⟩ := hall a ha
  obtain ⟨he, hlen⟩ := payload_eq_ok.mp hp
  exact ⟨payload, he, hlen, h a (hP a ha) payload he⟩

end Codec

namespace Frame

variable {fault : Option Fault} {bs : List UInt8} {c : Course α}

/-- Frames are read as the items that they were made of. -/
theorem Reads.frames (hrest : Reads codec.decode fault bs c) (h : codec.Sound P)
    (hP : ∀ a ∈ items, P a) :
    Reads codec.decode fault (frames codec items ++ bs) (c.after items) := by
  induction items with
  | nil => exact hrest
  | cons a items ih =>
      obtain ⟨ha, hP⟩ := List.forall_mem_cons.mp hP
      obtain ⟨payload, he, hlen, hd⟩ := h a ha
      rw [frames_cons he, List.append_assoc]
      exact .item hlen hd (ih hP)

/-- Nothing but frames is read to its end. -/
theorem reads_frames (h : codec.Sound P) (hP : ∀ a ∈ items, P a) :
    Reads codec.decode none (frames codec items) ⟨items, .ended⟩ := by
  have hnothing : Reads codec.decode none [] (⟨[], .ended⟩ : Course α) := .ended rfl
  have hreads := hnothing.frames h hP
  rw [List.append_nil] at hreads
  simpa [Course.after] using hreads

theorem course_frames (h : codec.Sound P) (hP : ∀ a ∈ items, P a) :
    course codec.decode (frames codec items) none = ⟨items, .ended⟩ :=
  (reads_frames h hP).eq_course

end Frame

end ExternalSort
