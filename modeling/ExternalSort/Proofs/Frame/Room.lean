/-
Room for reading frames.

A stream of frames reads only while it has no whole frame at hand, so what is
at hand then is shorter than the longest frame (`Frame.length_lt_of_head_short`).
Hence chunks that fit a buffer behind such a frame always fit it, and no drive
is aborted.
-/
import ExternalSort.Proofs.Frame.Grammar
import ExternalSort.Proofs.Stream.Returning

namespace ExternalSort

/-- What is looked for and not found is no longer than the longest frame. -/
theorem Frame.length_lt_of_head_short {bs : List UInt8} {expected : Nat}
    (h : head bs = .short expected) : bs.length < headerSize + maxPayload := by
  rcases head_cases bs with ⟨payload, rest, hlen, rfl⟩ | ⟨length, rest, hmax, hlt, rfl⟩ | ⟨e, hs⟩
  · rw [head_encode hlen] at h
    exact absurd h (by simp)
  · rw [head_bigEndian hlt, if_pos hmax] at h
    exact absurd h (by simp)
  · cases hs with
    | header hlen => omega
    | @payload length part hmax hlen =>
        simp only [List.length_append, length_bigEndian]
        omega

namespace FrameStream

variable {α : Type} {r u : FrameStream α}

/-- Chunks for which there is room behind whatever is at hand when one is read. -/
def ChunkFits (chunk : Nat) : Prop := Frame.headerSize + Frame.maxPayload + chunk ≤ maxBuffer + 1

instance (chunk : Nat) : Decidable (ChunkFits chunk) := inferInstanceAs (Decidable (_ ≤ _))

theorem reads_iff : r.reads = true ↔ r.supply.canSend = true ∧ r.atEnd = false ∧
    ∃ expected, Frame.head r.atHand = .short expected := by
  have hshort : ∀ h : Frame.Head, h.isShort = true ↔ ∃ expected, h = .short expected := by
    intro h
    cases h <;> simp [Frame.Head.isShort]
  rw [reads, Bool.and_eq_true, Bool.and_eq_true, Bool.not_eq_true', hshort, and_assoc]

/-- A turn that reads does nothing else. -/
theorem turn_of_reads (h : r.reads = true) : r.turn = r.readMore := by
  obtain ⟨hc, he, expected, hs⟩ := reads_iff.mp h
  rw [turn, if_neg (by simp [hc])]
  split
  · next hf => exact absurd (hs.symm.trans hf) (by simp)
  · next hl => exact absurd (hs.symm.trans hl) (by simp)
  · rw [if_neg (by simp [he])]

/-- A turn that does not read leaves the source alone. -/
theorem source_turn (h : r.reads = false) : r.turn.state.source = r.source := by
  rw [turn]
  split
  · rfl
  next hc =>
    split
    · rw [deliver]
      split <;> rfl
    · rfl
    · next expected hs =>
      split
      · rw [conclude]
        split <;> rfl
      · next he =>
        have hr : r.reads = true := reads_iff.mpr ⟨by simpa using hc, by simpa using he, _, hs⟩
        exact absurd (h.symm.trans hr) (by simp)

theorem hasRoom_of_reads (h : r.reads = true) (hc : ChunkFits r.chunk) : r.hasRoom = true := by
  obtain ⟨-, -, expected, hs⟩ := reads_iff.mp h
  have := Frame.length_lt_of_head_short hs
  rw [ChunkFits] at hc
  rw [hasRoom, decide_eq_true_eq]
  omega

theorem turn_chunk (r : FrameStream α) : r.turn.state.chunk = r.chunk := by
  rw [turn]
  split
  · rfl
  split
  · rw [deliver]
    split <;> rfl
  · rfl
  · split
    · rw [conclude]
      split <;> rfl
    · obtain ⟨bs, source, -, hm⟩ | ⟨f, source, -, hm⟩ := r.readMore_cases
      · rw [hm]
        rfl
      · rw [hm]
        split <;> rfl

theorem drive_chunk (r : FrameStream α) : r.drive.1.chunk = r.chunk :=
  Turn.iterate_induction (fun t _ => t.chunk = r.chunk)
    (fun t _ h => (turn_chunk t).trans h) r rfl

theorem returns_iff : r.returns = true ↔
    ∀ u, Turn.Takes turn r u → u.reads = true → u.hasRoom = true := by
  simp only [returns, Turn.all_iff, Bool.or_eq_true, Bool.not_eq_true', ← Bool.not_eq_true,
    ← imp_iff_not_or]

instance : ReturningProducer (FrameStream α) α where
  Fits r := ChunkFits r.chunk
  returns_of_fits h := returns_iff.mpr fun _ hu hr => hasRoom_of_reads hr
    (hu.keeps (P := fun u => ChunkFits u.chunk) (fun u h _ => by rwa [turn_chunk]) h)
  fits_subscribe _ h := h
  fits_withDemand _ h := h
  fits_drive {r} h := by
    show ChunkFits r.drive.1.chunk
    rwa [drive_chunk]

theorem fits_ofSource {chunk : Nat} (h : ChunkFits chunk) (source : Source)
    (decode : List UInt8 → Except Cause α) :
    ReturningProducer.Fits (FrameStream.ofSource source decode chunk) := by
  show ChunkFits (max chunk 1)
  rcases Nat.le_total chunk 1 with h1 | h1
  · rw [Nat.max_eq_right h1]
    decide
  · rwa [Nat.max_eq_left h1]

end FrameStream

end ExternalSort
