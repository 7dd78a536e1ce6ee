/-
Writing to a sink.

A sink may take the bytes of a write piece by piece, and it may fail.  What it
has taken and what is left over are together what was offered, in order
(`Sink.writeAll_split`), also behind a buffer, so a writer that was told of no
fault has written everything (`BufferedSink.write_ok`, `BufferedSink.close_ok`).
A sink that always takes something tells of no fault.
-/
import ExternalSort.Bytes.BigEndian
import ExternalSort.Bytes.BufferedSink
import Mathlib.Algebra.Group.Nat.Defs
import Mathlib.Data.List.Induction

namespace ExternalSort

/-! ## Numbers -/

theorem ofBigEndian_append (bs : List UInt8) (b : UInt8) :
    ofBigEndian (bs ++ [b]) = 256 * ofBigEndian bs + b.toNat := by
  simp [ofBigEndian, List.foldl_append]

theorem bigEndian_ofBigEndian (bs : List UInt8) :
    bigEndian bs.length (ofBigEndian bs) = bs := by
  induction bs using List.reverseRecOn with
  | nil => rfl
  | append_singleton bs b ih =>
      have hb : b.toNat < 256 := b.toNat_lt
      have hdiv : (256 * ofBigEndian bs + b.toNat) / 256 = ofBigEndian bs := by omega
      have hlast : UInt8.ofNat (256 * ofBigEndian bs + b.toNat) = b := by
        refine UInt8.toNat_inj.mp ?_
        rw [UInt8.toNat_ofNat']
        omega
      rw [List.length_append, List.length_singleton, bigEndian, ofBigEndian_append, hdiv, ih, hlast]

theorem ofBigEndian_lt (bs : List UInt8) : ofBigEndian bs < 256 ^ bs.length := by
  induction bs using List.reverseRecOn with
  | nil => exact Nat.one_pos
  | append_singleton bs b ih =>
      have hb : b.toNat < 256 := b.toNat_lt
      rw [ofBigEndian_append, List.length_append, List.length_singleton, Nat.pow_succ]
      omega

theorem ofBigEndian_bigEndian {width n : Nat} (h : n < 256 ^ width) :
    ofBigEndian (bigEndian width n) = n := by
  induction width generalizing n with
  | zero =>
      obtain rfl : n = 0 := by simpa using h
      rfl
  | succ width ih =>
      have hd : n / 256 < 256 ^ width := by
        rw [Nat.div_lt_iff_lt_mul (by decide)]
        simpa [Nat.pow_succ] using h
      rw [bigEndian, ofBigEndian_append, ih hd, UInt8.toNat_ofNat']
      omega

/-! ## Sinks -/

namespace Sink

theorem toList_foldl_push (bs : List UInt8) (a : ByteArray) :
    (bs.foldl ByteArray.push a).data.toList = a.data.toList ++ bs := by
  induction bs generalizing a with
  | nil => simp
  | cons b bs ih =>
      rw [List.foldl_cons, ih, ByteArray.data_push, Array.toList_push, List.append_assoc]
      rfl

variable {s s' : Sink} {bs left : List UInt8} {n : Nat}

/-- A write takes some bytes off the front of what is offered. -/
theorem write_ok (h : s.write bs = (.ok n, s')) :
    s'.plan = s.plan ∧ s'.bytes = s.bytes ++ bs.take n := by
  rw [write] at h
  split at h
  · exact absurd (Prod.mk.inj h).1 (by simp)
  · obtain ⟨hn, rfl⟩ := Prod.mk.inj h
    obtain rfl := Except.ok.inj hn
    refine ⟨rfl, ?_⟩
    show (List.foldl ByteArray.push _ _).data.toList = _
    rw [toList_foldl_push]
    split
    · rw [List.take_length]
      rfl
    · rw [List.length_take, ← List.take_take, List.take_length]
      rfl

theorem write_error {f : Fault} (h : s.write bs = (.error f, s')) :
    s'.plan = s.plan ∧ s'.bytes = s.bytes := by
  rw [write] at h
  split at h
  · obtain ⟨-, rfl⟩ := Prod.mk.inj h
    exact ⟨rfl, rfl⟩
  · exact absurd (Prod.mk.inj h).1 (by simp)

/-- Whatever a sink answers, it has taken a beginning of what was offered, and the
rest is left over.  Nothing is left over unless a write was refused. -/
theorem writeAll_taken {r : Except Fault Unit} {f : Fault}
    (h : s.writeAll bs f = (r, left, s')) :
    s'.plan = s.plan ∧ (∃ taken, taken ++ left = bs ∧ s'.bytes = s.bytes ++ taken) ∧
      (r = .ok () → left = []) := by
  induction hn : bs.length using Nat.strongRecOn generalizing bs s with
  | ind n ih =>
      rw [writeAll] at h
      split at h
      · next he =>
        obtain ⟨-, hl⟩ := Prod.mk.inj h
        obtain ⟨rfl, rfl⟩ := Prod.mk.inj hl
        exact ⟨rfl, ⟨[], (List.isEmpty_iff.mp he).symm, by simp⟩, fun _ => rfl⟩
      next he =>
      have hlen : 0 < bs.length := List.length_pos_iff.mpr (by simpa using he)
      split at h
      · next f s₁ hw =>
        obtain ⟨hp, hb⟩ := write_error hw
        obtain ⟨rfl, hl⟩ := Prod.mk.inj h
        obtain ⟨rfl, rfl⟩ := Prod.mk.inj hl
        exact ⟨hp, ⟨[], rfl, by simp [hb]⟩, fun hr => absurd hr (by simp)⟩
      · next k s₁ hw =>
        obtain ⟨hp, hb⟩ := write_ok hw
        split at h
        · next hk =>
          obtain ⟨rfl, hl⟩ := Prod.mk.inj h
          obtain ⟨rfl, rfl⟩ := Prod.mk.inj hl
          exact ⟨hp, ⟨[], rfl, by rw [hb, hk, List.take_zero]⟩, fun hr => absurd hr (by simp)⟩
        · obtain ⟨hp', ⟨taken, hsplit, hb'⟩, hleft⟩ :=
            ih (bs.drop k).length (by simp; omega) h rfl
          refine ⟨hp'.trans hp, ⟨bs.take k ++ taken, ?_, ?_⟩, hleft⟩
          · rw [List.append_assoc, hsplit, List.take_append_drop]
          · rw [hb', hb, List.append_assoc]

/-- The bytes a sink has taken and those left over are what was offered. -/
theorem writeAll_split {r : Except Fault Unit} {f : Fault}
    (h : s.writeAll bs f = (r, left, s')) :
    s'.plan = s.plan ∧ s'.bytes ++ left = s.bytes ++ bs ∧ (r = .ok () → left = []) := by
  obtain ⟨hp, ⟨taken, rfl, hb⟩, hleft⟩ := writeAll_taken h
  exact ⟨hp, by rw [hb, List.append_assoc], hleft⟩

end Sink

namespace BufferedSink

/-- What has been written so far: what the sink has taken, and what is in the
buffer. -/
def written (s : BufferedSink) : List UInt8 := s.sink.bytes ++ s.buffer.toList

variable {s s' : BufferedSink} {bs : List UInt8}

theorem drain_written {r : Except Fault Unit} (h : s.drain = (r, s')) :
    s'.sink.plan = s.sink.plan ∧ s'.written = s.written ∧ (r = .ok () → s'.buffer = #[]) := by
  rw [drain] at h
  obtain ⟨rfl, rfl⟩ := Prod.mk.inj h
  obtain ⟨hp, hsplit, hleft⟩ :=
    Sink.writeAll_split (rfl : s.sink.writeAll s.buffer.toList stuck = (_, _, _))
  refine ⟨hp, hsplit, ?_⟩
  intro hr
  show (_ : List UInt8).toArray = _
  rw [hleft hr]

theorem put_ok (hroom : s.buffer = #[] ∨ bs.length < capacity) (h : s.put bs = (.ok (), s')) :
    s'.sink.plan = s.sink.plan ∧ s'.written = s.written ++ bs := by
  rw [put] at h
  split at h
  · obtain ⟨-, rfl⟩ := Prod.mk.inj h
    exact ⟨rfl, by simp [written]⟩
  · next hlen =>
    have hempty := hroom.resolve_right hlen
    obtain ⟨hr, rfl⟩ := Prod.mk.inj h
    obtain ⟨hp, hsplit, hleft⟩ := Sink.writeAll_split (rfl : s.sink.writeAll bs = (_, _, _))
    rw [hleft hr, List.append_nil] at hsplit
    exact ⟨hp, by simp [written, hsplit, hempty]⟩

theorem put_room (h : s.buffer.size + bs.length ≤ capacity) :
    s.buffer = #[] ∨ bs.length < capacity := by
  by_cases hlen : bs.length < capacity
  · exact .inr hlen
  · exact .inl (Array.size_eq_zero_iff.mp (by omega))

/-- Bytes whose writing did not fail are written behind all others. -/
theorem write_ok (h : s.write bs = (.ok (), s')) :
    s'.sink.plan = s.sink.plan ∧ s'.written = s.written ++ bs := by
  rw [write] at h
  split at h
  · next hroom => exact put_ok (put_room hroom) h
  · split at h
    · exact absurd (Prod.mk.inj h).1 (by simp)
    · next s₁ hd =>
      obtain ⟨hp, hw, hempty⟩ := drain_written hd
      obtain ⟨hp', hw'⟩ := put_ok (.inl (hempty rfl)) h
      exact ⟨hp'.trans hp, by rw [hw', hw]⟩

/-- If closing did not fail, everything that was written is in the sink. -/
theorem close_ok {sink : Sink} (h : s.close = (.ok (), sink)) : sink.bytes = s.written := by
  rw [close] at h
  split at h
  · exact absurd (Prod.mk.inj h).1 (by simp)
  · next s₁ hd =>
    obtain ⟨-, rfl⟩ := Prod.mk.inj h
    obtain ⟨-, hw, hempty⟩ := drain_written hd
    rw [← hw, written, hempty rfl, List.append_nil]

end BufferedSink

/-! ## Sinks that take everything -/

/-- A sink that always takes something of what it is offered. -/
structure SinkPlan.Takes (p : SinkPlan) : Prop where
  write : ∀ (h : SinkHistory) (n : Nat), 0 < n → ∃ k, p.write h n = .ok k ∧ 0 < k
  flush : ∀ h : SinkHistory, p.flush h = .ok ()

theorem SinkPlan.takes_default : SinkPlan.Takes {} where
  write _ n hn := ⟨n, rfl, hn⟩
  flush _ := rfl

theorem Sink.writeAll_takes {s : Sink} (h : s.plan.Takes) (bs : List UInt8) (f : Fault) :
    ∃ s', s.writeAll bs f = (.ok (), [], s') := by
  induction hn : bs.length using Nat.strongRecOn generalizing bs s with
  | ind n ih =>
      rw [writeAll]
      split
      · exact ⟨s, rfl⟩
      next he =>
      have hlen : 0 < bs.length := List.length_pos_iff.mpr (by simpa using he)
      obtain ⟨k, hk, hpos⟩ := h.write s.history bs.length hlen
      obtain ⟨m, s₁, hw, hm⟩ : ∃ m s₁, s.write bs = (.ok m, s₁) ∧ 0 < m := by
        rw [write]
        rw [hk]
        refine ⟨_, _, rfl, ?_⟩
        split
        · exact hlen
        · simp only [List.length_take]
          omega
      rw [hw]
      dsimp only
      rw [if_neg (Nat.pos_iff_ne_zero.mp hm)]
      exact ih (bs.drop m).length (by simp; omega) ((write_ok hw).1 ▸ h) _ rfl

namespace BufferedSink

variable {s : BufferedSink} (h : s.sink.plan.Takes)
include h

theorem drain_takes : ∃ s', s.drain = (.ok (), s') := by
  obtain ⟨sink, hw⟩ := Sink.writeAll_takes h s.buffer.toList stuck
  rw [drain]
  rw [hw]
  exact ⟨_, rfl⟩

theorem put_takes (bs : List UInt8) : ∃ s', s.put bs = (.ok (), s') := by
  rw [put]
  split
  · exact ⟨_, rfl⟩
  · obtain ⟨sink, hw⟩ := Sink.writeAll_takes h bs Sink.stuck
    rw [hw]
    exact ⟨_, rfl⟩

theorem write_takes (bs : List UInt8) : ∃ s', s.write bs = (.ok (), s') := by
  rw [write]
  split
  · exact put_takes h bs
  · obtain ⟨s₁, hd⟩ := drain_takes h
    rw [hd]
    exact put_takes ((drain_written hd).1 ▸ h) bs

theorem close_takes : ∃ sink, s.close = (.ok (), sink) := by
  obtain ⟨s', hd⟩ := drain_takes h
  rw [close]
  rw [hd]
  refine ⟨s'.sink, ?_⟩
  show (s'.sink.plan.flush _, _) = _
  rw [(drain_written hd).1, h.flush]

end BufferedSink

end ExternalSort
