/-
Writing frames.

An item is written as one frame, or refused without a trace
(`Codec.payload`).  A writer that was told of no fault has written just the
frames of its items, one behind the other, and has counted them
(`FrameSink.writeAll_ok`, `Run.write_ok`), whatever the sink is like.  If the
sink takes everything, the items that are refused are the only ones missing
(`FrameSink.writeEach_takes`).
-/
import ExternalSort.Proofs.Bytes.Writing
import ExternalSort.Run.Basic

namespace ExternalSort

variable {α : Type}

namespace Codec

/-- The payload that an item is written as, or why it is refused. -/
def payload (codec : Codec α) (a : α) : Except Failure (List UInt8) :=
  match codec.encode a with
  | .error c => .error (.encoding c)
  | .ok bs => if Frame.maxPayload < bs.length then .error (.frameTooLarge bs.length) else .ok bs

/-- The items among some that are not refused. -/
def accepted (codec : Codec α) (items : List α) : List α := items.filter (codec.payload · |>.isOk)

variable {codec : Codec α} {a : α} {payload : List UInt8}

theorem payload_eq_ok :
    codec.payload a = .ok payload ↔
      codec.encode a = .ok payload ∧ payload.length ≤ Frame.maxPayload := by
  rw [Codec.payload]
  cases codec.encode a with
  | error c => simp
  | ok bs =>
      dsimp only
      split
      · next hlen =>
        simp only [reduceCtorEq, Except.ok.injEq, false_iff, not_and]
        rintro rfl
        omega
      · next hlen =>
        simp only [Except.ok.injEq]
        constructor
        · rintro rfl
          exact ⟨rfl, by omega⟩
        · exact And.left

theorem payload_ne_io {f : Fault} : codec.payload a ≠ .error (.io f) := by
  rw [payload]
  cases codec.encode a with
  | error c => simp
  | ok bs =>
      dsimp only
      split <;> simp

theorem mem_accepted {items : List α} (h : a ∈ codec.accepted items) :
    ∃ payload, codec.payload a = .ok payload := by
  have hok := (List.mem_filter.mp h).2
  cases hp : codec.payload a with
  | error e => simp [hp, Except.isOk, Except.toBool] at hok
  | ok payload => exact ⟨payload, rfl⟩

end Codec

namespace Frame

/-- The frames of some items. -/
def frames (codec : Codec α) (items : List α) : List UInt8 :=
  items.flatMap fun a => (codec.encode a).toOption.elim [] encode

variable {codec : Codec α}

theorem frames_cons {a : α} {payload : List UInt8} (he : codec.encode a = .ok payload)
    (items : List α) : frames codec (a :: items) = encode payload ++ frames codec items := by
  rw [frames, List.flatMap_cons, he]
  rfl

@[simp] theorem frames_append (xs ys : List α) :
    frames codec (xs ++ ys) = frames codec xs ++ frames codec ys :=
  List.flatMap_append

@[simp] theorem length_encode (payload : List UInt8) :
    (encode payload).length = headerSize + payload.length := by
  simp [encode]

end Frame

namespace FrameSink

variable {codec : Codec α} {w w₁ w' : FrameSink} {payload bs cs : List UInt8} {m n : Nat}

/-- `n` more frames were written, which are the bytes `bs`. -/
structure Wrote (w : FrameSink) (n : Nat) (bs : List UInt8) (w' : FrameSink) : Prop where
  plan : w'.out.sink.plan = w.out.sink.plan
  written : w'.out.written = w.out.written ++ bs
  frames : w'.frames = w.frames + n
  bytes : w'.bytes = w.bytes + bs.length

theorem Wrote.nothing (w : FrameSink) : Wrote w 0 [] w where
  plan := rfl
  written := (List.append_nil _).symm
  frames := rfl
  bytes := rfl

theorem Wrote.append (h : Wrote w m bs w₁) (k : Wrote w₁ n cs w') :
    Wrote w (m + n) (bs ++ cs) w' where
  plan := k.plan.trans h.plan
  written := by rw [k.written, h.written, List.append_assoc]
  frames := by rw [k.frames, h.frames, Nat.add_assoc]
  bytes := by rw [k.bytes, h.bytes, List.length_append, Nat.add_assoc]

/-! ## Writing that does not fail -/

theorem writePayload_ok (h : w.writePayload payload = (.ok (), w')) :
    payload.length ≤ Frame.maxPayload ∧ Wrote w 1 (Frame.encode payload) w' := by
  rw [writePayload] at h
  split at h
  · exact absurd (Prod.mk.inj h).1 (by simp)
  next hlen =>
  split at h
  · exact absurd (Prod.mk.inj h).1 (by simp)
  next o₁ h₁ =>
  split at h
  · exact absurd (Prod.mk.inj h).1 (by simp)
  next o₂ h₂ =>
  obtain ⟨-, rfl⟩ := Prod.mk.inj h
  obtain ⟨hp₁, hw₁⟩ := BufferedSink.write_ok h₁
  obtain ⟨hp₂, hw₂⟩ := BufferedSink.write_ok h₂
  refine ⟨by omega, hp₂.trans hp₁, ?_, rfl, ?_⟩
  · rw [hw₂, hw₁, List.append_assoc]
    rfl
  · rw [Frame.length_encode]

theorem write_eq (w : FrameSink) (a : α) : write codec.encode w a =
    match codec.payload a with
    | .error e => (.error e, w)
    | .ok payload => w.writePayload payload := by
  rw [write, Codec.payload]
  cases codec.encode a with
  | error c => rfl
  | ok payload =>
      dsimp only
      by_cases hlen : Frame.maxPayload < payload.length
      · rw [if_pos hlen, writePayload, if_pos hlen]
      · rw [if_neg hlen]

theorem write_ok {a : α} (h : write codec.encode w a = (.ok (), w')) :
    (∃ payload, codec.payload a = .ok payload) ∧ Wrote w 1 (Frame.frames codec [a]) w' := by
  rw [write_eq] at h
  cases hp : codec.payload a with
  | error e =>
      rw [hp] at h
      exact absurd (Prod.mk.inj h).1 (by simp)
  | ok payload =>
      rw [hp] at h
      rw [Frame.frames_cons (Codec.payload_eq_ok.mp hp).1]
      exact ⟨⟨payload, rfl⟩, (writePayload_ok h).2.append (.nothing w')⟩

/-- Items whose writing did not fail are in their frames. -/
theorem writeAll_ok {items : List α} (h : writeAll codec.encode w items = (.ok (), w')) :
    (∀ a ∈ items, ∃ payload, codec.payload a = .ok payload) ∧
      Wrote w items.length (Frame.frames codec items) w' := by
  induction items generalizing w with
  | nil =>
      obtain ⟨-, rfl⟩ := Prod.mk.inj h
      exact ⟨fun _ hm => absurd hm List.not_mem_nil, .nothing w⟩
  | cons a items ih =>
      rw [writeAll] at h
      split at h
      · exact absurd (Prod.mk.inj h).1 (by simp)
      next w₁ h₁ =>
      obtain ⟨hpayload, hone⟩ := write_ok h₁
      obtain ⟨hall, hrest⟩ := ih h
      rw [List.length_cons, Nat.add_comm]
      exact ⟨List.forall_mem_cons.mpr ⟨hpayload, hall⟩,
        Frame.frames_append [a] items ▸ hone.append hrest⟩

theorem writePayload_error {e : Failure} (hlen : payload.length ≤ Frame.maxPayload)
    (h : w.writePayload payload = (.error e, w')) : ∃ f, e = .io f := by
  rw [writePayload, if_neg (by omega)] at h
  split at h
  · exact ⟨_, (Except.error.inj (Prod.mk.inj h).1).symm⟩
  split at h
  · exact ⟨_, (Except.error.inj (Prod.mk.inj h).1).symm⟩
  · exact absurd (Prod.mk.inj h).1 (by simp)

/-- Writes items in order, whether or not some of them fail.  The result also
tells what became of each. -/
def writeEach (encode : α → Except Cause (List UInt8)) (w : FrameSink) :
    List α → List (Except Failure Unit) × FrameSink
  | [] => ([], w)
  | a :: rest =>
    let (r, w) := write encode w a
    let (rs, w) := writeEach encode w rest
    (r :: rs, w)

/-- As long as the sink refuses nothing, the items that are refused are the only ones whose
frames are missing. -/
theorem writeEach_wrote {items : List α} {rs : List (Except Failure Unit)}
    (h : writeEach codec.encode w items = (rs, w')) (hio : ∀ f, .error (.io f) ∉ rs) :
    rs = (items.map fun a => (codec.payload a).map fun _ => ()) ∧
      Wrote w (codec.accepted items).length (Frame.frames codec (codec.accepted items)) w' := by
  induction items generalizing w rs with
  | nil =>
      obtain ⟨rfl, rfl⟩ := Prod.mk.inj h
      exact ⟨rfl, .nothing w⟩
  | cons a items ih =>
      rw [writeEach, write_eq] at h
      rw [Codec.accepted, List.filter_cons, List.map_cons]
      cases hp : codec.payload a with
      | error e =>
          rw [hp] at h
          obtain ⟨rfl, rfl⟩ := Prod.mk.inj h
          obtain ⟨hrs, hwrote⟩ := ih rfl fun f hm => hio f (List.mem_cons_of_mem _ hm)
          exact ⟨congrArg _ hrs, hwrote⟩
      | ok payload =>
          obtain ⟨henc, hlen⟩ := Codec.payload_eq_ok.mp hp
          rw [hp] at h
          dsimp only at h
          cases hone : w.writePayload payload with
          | mk r w₁ =>
            rw [hone] at h
            obtain ⟨rfl, rfl⟩ := Prod.mk.inj h
            cases r with
            | error e =>
                obtain ⟨f, rfl⟩ := writePayload_error hlen hone
                exact absurd List.mem_cons_self (hio f)
            | ok u =>
                obtain ⟨hrs, hwrote⟩ := ih rfl fun f hm => hio f (List.mem_cons_of_mem _ hm)
                refine ⟨congrArg _ hrs, ?_⟩
                show Wrote w (a :: codec.accepted items).length
                  (Frame.frames codec (a :: codec.accepted items)) _
                rw [Frame.frames_cons henc, List.length_cons, Nat.add_comm]
                exact (writePayload_ok hone).2.append hwrote

/-! ## Sinks that take everything -/

theorem writePayload_takes (h : w.out.sink.plan.Takes)
    (hlen : payload.length ≤ Frame.maxPayload) : ∃ w', w.writePayload payload = (.ok (), w') := by
  obtain ⟨o₁, h₁⟩ := BufferedSink.write_takes h (bigEndian Frame.headerSize payload.length)
  obtain ⟨o₂, h₂⟩ := BufferedSink.write_takes ((BufferedSink.write_ok h₁).1 ▸ h) payload
  rw [writePayload]
  rw [if_neg (by omega), h₁]
  dsimp only
  rw [h₂]
  exact ⟨_, rfl⟩

theorem writeAll_takes {items : List α} (h : w.out.sink.plan.Takes)
    (hall : ∀ a ∈ items, ∃ payload, codec.payload a = .ok payload) :
    ∃ w', writeAll codec.encode w items = (.ok (), w') := by
  induction items generalizing w with
  | nil => exact ⟨w, rfl⟩
  | cons a items ih =>
      obtain ⟨⟨payload, hp⟩, hall⟩ := List.forall_mem_cons.mp hall
      obtain ⟨w₁, h₁⟩ := writePayload_takes h (Codec.payload_eq_ok.mp hp).2
      rw [writeAll, write_eq, hp]
      dsimp only
      rw [h₁]
      exact ih ((writePayload_ok h₁).2.plan ▸ h) hall

/-- A sink that takes everything gets the frames of all items but those that are
refused. -/
theorem writeEach_takes (items : List α) (h : w.out.sink.plan.Takes) :
    ∃ w', writeEach codec.encode w items =
        (items.map fun a => (codec.payload a).map fun _ => (), w') ∧
      Wrote w (codec.accepted items).length (Frame.frames codec (codec.accepted items)) w' := by
  have hio : ∀ f, .error (.io f) ∉ (writeEach codec.encode w items).1 := by
    intro f
    induction items generalizing w with
    | nil => exact List.not_mem_nil
    | cons a items ih =>
        rw [writeEach, write_eq, List.mem_cons, not_or]
        cases hp : codec.payload a with
        | error e =>
            refine ⟨?_, ih h⟩
            rintro ⟨⟩
            exact Codec.payload_ne_io hp
        | ok payload =>
            obtain ⟨w₁, h₁⟩ := writePayload_takes h (Codec.payload_eq_ok.mp hp).2
            dsimp only
            rw [h₁]
            exact ⟨by simp, ih ((writePayload_ok h₁).2.plan ▸ h)⟩
  obtain ⟨hrs, hwrote⟩ := writeEach_wrote (rfl : _ = (_, _)) hio
  exact ⟨_, Prod.ext hrs rfl, hwrote⟩

end FrameSink

/-! ## Runs -/

namespace Run

variable {codec : Codec α} {items : List α} {sink sink' : Sink} {n size : Nat}

/-- If writing a run did not fail, the frames of its items are in the sink, and
they were counted. -/
theorem write_ok (h : Run.write codec sink items = (.ok (n, size), sink')) :
    (∀ a ∈ items, ∃ payload, codec.payload a = .ok payload) ∧
      sink'.bytes = sink.bytes ++ Frame.frames codec items ∧ n = items.length ∧
      size = (Frame.frames codec items).length := by
  rw [Run.write] at h
  split at h
  · exact absurd (Prod.mk.inj h).1 (by simp)
  next w hw =>
  obtain ⟨hall, hwrote⟩ := FrameSink.writeAll_ok hw
  cases hc : w.out.close with
  | mk r s =>
      rw [FrameSink.close, hc] at h
      obtain ⟨hr, rfl⟩ := Prod.mk.inj h
      cases r with
      | error f => exact absurd hr (by simp [Except.mapError, Except.map])
      | ok u =>
          obtain ⟨rfl, rfl⟩ := Prod.mk.inj (Except.ok.inj hr)
          have hbytes := BufferedSink.close_ok hc
          rw [hwrote.written] at hbytes
          refine ⟨hall, ?_, ?_, ?_⟩
          · rw [hbytes]
            simp [FrameSink.ofSink, BufferedSink.written]
          · rw [hwrote.frames]
            exact Nat.zero_add _
          · rw [hwrote.bytes]
            exact Nat.zero_add _

theorem write_takes (h : sink.plan.Takes)
    (hall : ∀ a ∈ items, ∃ payload, codec.payload a = .ok payload) :
    ∃ r sink', Run.write codec sink items = (.ok r, sink') := by
  obtain ⟨w, hw⟩ := FrameSink.writeAll_takes (w := .ofSink sink) h hall
  obtain ⟨sink', hc⟩ := BufferedSink.close_takes ((FrameSink.writeAll_ok hw).2.plan ▸ h)
  rw [Run.write, hw]
  dsimp only
  rw [FrameSink.close, hc]
  exact ⟨_, _, rfl⟩

end Run

end ExternalSort
