/-
What bytes mean, read as frames.

`Frame.Reads` says it by rules: bytes are frames of payloads, one behind the
other, until a payload makes no item, a length is too large, or what is left
is no whole frame.  Of any bytes there is just one such reading, and it is the
one that is found by looking for a frame where one begins and going on behind
it (`Frame.reads_iff`).
-/
import ExternalSort.Proofs.Bytes.Writing
import ExternalSort.Proofs.Frame.Course

namespace ExternalSort.Frame

/-- Bytes that are no more than the beginning of something of `expected` bytes. -/
inductive Short : List UInt8 → Nat → Prop
  | header {bs : List UInt8} : bs.length < headerSize → Short bs headerSize
  | payload {length : Nat} {part : List UInt8} : length ≤ maxPayload → part.length < length →
      Short (bigEndian headerSize length ++ part) (headerSize + length)

/-- Read from the first to the last, and with the fault behind them if there is
one, some bytes make up a course. -/
inductive Reads {α : Type} (decode : List UInt8 → Except Cause α) (fault : Option Fault) :
    List UInt8 → Course α → Prop
  | item {payload rest : List UInt8} {a : α} {c : Course α} : payload.length ≤ maxPayload →
      decode payload = .ok a → Reads decode fault rest c →
      Reads decode fault (encode payload ++ rest) (c.after [a])
  | undecodable {payload rest : List UInt8} {e : Cause} : payload.length ≤ maxPayload →
      decode payload = .error e →
      Reads decode fault (encode payload ++ rest) ⟨[], .failed (.decoding e)⟩
  | tooLarge {length : Nat} {rest : List UInt8} : maxPayload < length →
      length < 256 ^ headerSize →
      Reads decode fault (bigEndian headerSize length ++ rest) ⟨[], .failed (.frameTooLarge length)⟩
  | broken {bs : List UInt8} {expected : Nat} {f : Fault} : fault = some f → Short bs expected →
      Reads decode fault bs ⟨[], .failed (.io f)⟩
  | ended : fault = none → Reads decode fault [] ⟨[], .ended⟩
  | truncated {bs : List UInt8} {expected : Nat} : fault = none → bs ≠ [] → Short bs expected →
      Reads decode fault bs ⟨[], .failed (.truncatedFrame expected bs.length)⟩

/-! ## Where a frame begins -/

variable {bs payload rest : List UInt8} {length expected : Nat}

theorem head_bigEndian (h : length < 256 ^ headerSize) (rest : List UInt8) :
    head (bigEndian headerSize length ++ rest) =
      if maxPayload < length then .tooLarge length
      else if (rest.take length).length < length then .short (headerSize + length)
      else .frame (rest.take length) (rest.drop length) := by
  obtain ⟨a, b, c, d, hb⟩ : ∃ a b c d, bigEndian headerSize length = [a, b, c, d] :=
    ⟨_, _, _, _, rfl⟩
  have hn : ofBigEndian [a, b, c, d] = length := by
    rw [← hb]
    exact ofBigEndian_bigEndian h
  rw [hb]
  show (if maxPayload < ofBigEndian [a, b, c, d] then _ else _) = _
  rw [hn]
  rfl

theorem lt_of_le_maxPayload (h : length ≤ maxPayload) : length < 256 ^ headerSize :=
  Nat.lt_of_le_of_lt h (by decide)

theorem head_encode (h : payload.length ≤ maxPayload) (rest : List UInt8) :
    head (encode payload ++ rest) = .frame payload rest := by
  rw [encode, List.append_assoc, head_bigEndian (lt_of_le_maxPayload h), if_neg (by omega)]
  simp

theorem head_of_short (h : Short bs expected) : head bs = .short expected := by
  cases h with
  | header hlen =>
      match bs, hlen with
      | [], _ => rfl
      | [_], _ => rfl
      | [_, _], _ => rfl
      | [_, _, _], _ => rfl
  | @payload length part hmax hlen =>
      rw [head_bigEndian (lt_of_le_maxPayload hmax), if_neg (by omega), if_pos]
      rw [List.length_take]
      omega

theorem header_cases (bs : List UInt8) :
    bs.length < headerSize ∨
      ∃ length rest, length < 256 ^ headerSize ∧ bs = bigEndian headerSize length ++ rest := by
  by_cases h : bs.length < headerSize
  · exact .inl h
  · have hlen : (bs.take headerSize).length = headerSize := by
      rw [List.length_take]
      omega
    refine .inr ⟨ofBigEndian (bs.take headerSize), bs.drop headerSize, ?_, ?_⟩
    · have := ofBigEndian_lt (bs.take headerSize)
      rwa [hlen] at this
    · have := bigEndian_ofBigEndian (bs.take headerSize)
      rw [hlen] at this
      rw [this, List.take_append_drop]

/-- What stands at the beginning of some bytes. -/
theorem head_cases (bs : List UInt8) :
    (∃ payload rest, payload.length ≤ maxPayload ∧ bs = encode payload ++ rest) ∨
      (∃ length rest, maxPayload < length ∧ length < 256 ^ headerSize ∧
        bs = bigEndian headerSize length ++ rest) ∨
      ∃ expected, Short bs expected := by
  rcases header_cases bs with h | ⟨length, rest, hlt, rfl⟩
  · exact .inr (.inr ⟨headerSize, .header h⟩)
  by_cases hmax : maxPayload < length
  · exact .inr (.inl ⟨length, rest, hmax, hlt, rfl⟩)
  by_cases hlen : rest.length < length
  · exact .inr (.inr ⟨headerSize + length, .payload (by omega) hlen⟩)
  · have htake : (rest.take length).length = length := by
      rw [List.length_take]
      omega
    refine .inl ⟨rest.take length, rest.drop length, by omega, ?_⟩
    rw [encode, htake, List.append_assoc, List.take_append_drop]

theorem eq_of_head_frame (h : head bs = .frame payload rest) : bs = encode payload ++ rest := by
  rcases head_cases bs with ⟨p, q, hlen, rfl⟩ | ⟨length, q, hmax, hlt, rfl⟩ | ⟨e, hs⟩
  · obtain ⟨rfl, rfl⟩ := Head.frame.inj ((head_encode hlen q).symm.trans h)
    rfl
  · rw [head_bigEndian hlt, if_pos hmax] at h
    exact absurd h (by simp)
  · exact absurd ((head_of_short hs).symm.trans h) (by simp)

/-! ## Readings -/

variable {α : Type} {decode : List UInt8 → Except Cause α} {fault : Option Fault} {c : Course α}

/-- Some bytes have no other reading than their course. -/
theorem Reads.eq_course (h : Reads decode fault bs c) : course decode bs fault = c := by
  induction h with
  | item hlen hd _ ih => rw [course_frame (head_encode hlen _) hd, ih]
  | undecodable hlen hd => rw [course_undecodable (head_encode hlen _) hd]
  | tooLarge hmax hlt =>
      refine course_tooLarge ?_
      rw [head_bigEndian hlt, if_pos hmax]
  | broken hf hs =>
      rw [course_short (head_of_short hs), hf]
      rfl
  | ended hf =>
      rw [course_short rfl, hf]
      rfl
  | truncated hf hne hs =>
      rw [course_short (head_of_short hs), hf, shortEnding]
      rw [if_neg (by simpa using hne)]

theorem reads_course (decode : List UInt8 → Except Cause α) (fault : Option Fault)
    (bs : List UInt8) : Reads decode fault bs (course decode bs fault) := by
  induction hn : bs.length using Nat.strongRecOn generalizing bs with
  | ind n ih =>
      rcases head_cases bs with ⟨payload, rest, hlen, rfl⟩ | ⟨length, rest, hmax, hlt, rfl⟩ | ⟨e, hs⟩
      · cases hd : decode payload with
        | ok a =>
            rw [course_frame (head_encode hlen _) hd]
            exact .item hlen hd (ih rest.length (by simp [encode, headerSize] at hn; omega) _ rfl)
        | error e =>
            rw [course_undecodable (head_encode hlen _) hd]
            exact .undecodable hlen hd
      · rw [course_tooLarge (by rw [head_bigEndian hlt, if_pos hmax])]
        exact .tooLarge hmax hlt
      · rw [course_short (head_of_short hs)]
        cases fault with
        | some f => exact .broken rfl hs
        | none =>
            by_cases hb : bs = []
            · subst hb
              exact .ended rfl
            · rw [shortEnding, if_neg (by simpa using hb)]
              exact .truncated rfl hb hs

/-- Some bytes have one reading. -/
theorem reads_iff : Reads decode fault bs c ↔ c = course decode bs fault :=
  ⟨fun h => h.eq_course.symm, fun h => h ▸ reads_course decode fault bs⟩

end ExternalSort.Frame
