/-
Writers that are given up.

A sink may take a few bytes and then refuse the next ones, once or for good.  What
it has taken of a buffer is gone from the buffer, and what it has not taken is
still there, so a writer that is given up goes on where it was stopped
(`BufferedSink.abandon_between`).  A write that fails has put a beginning of its
bytes behind those before it (`BufferedSink.write_extends`).  So whatever
becomes of a writer of frames, the sink has a beginning of the frames
(`FrameSink.given_up_leaves_prefix`), and so has the file of a run that could not be
written (`Run.write_leaves_prefix`).
-/
import ExternalSort.Proofs.Frame.Writing

namespace ExternalSort

variable {α : Type}

/-! ## Behind a buffer -/

namespace BufferedSink

variable {s s₁ s' : BufferedSink} {bs cs : List UInt8} {r : Except Fault Unit} {sink : Sink}

/-- The bytes `bs` were written behind those before, and the sink has still all that it
had taken. -/
structure Extends (s : BufferedSink) (bs : List UInt8) (s' : BufferedSink) : Prop where
  written : s'.written = s.written ++ bs
  grows : s.sink.bytes <+: s'.sink.bytes

theorem Extends.append (h : s.Extends bs s₁) (k : s₁.Extends cs s') :
    s.Extends (bs ++ cs) s' where
  written := by rw [k.written, h.written, List.append_assoc]
  grows := h.grows.trans k.grows

theorem Extends.nothing (s : BufferedSink) : s.Extends [] s where
  written := (List.append_nil _).symm
  grows := List.prefix_rfl

theorem drain_extends (h : s.drain = (r, s')) : s.Extends [] s' where
  written := by rw [(drain_written h).2.1, List.append_nil]
  grows := by
    rw [drain] at h
    obtain ⟨-, rfl⟩ := Prod.mk.inj h
    obtain ⟨-, ⟨taken, -, hb⟩, -⟩ :=
      Sink.writeAll_taken (rfl : s.sink.writeAll s.buffer.toList stuck = (_, _, _))
    exact ⟨taken, hb.symm⟩

theorem put_extends (hroom : s.buffer = #[] ∨ bs.length < capacity) (h : s.put bs = (r, s')) :
    ∃ done, done <+: bs ∧ s.Extends done s' := by
  rw [put] at h
  split at h
  · obtain ⟨-, rfl⟩ := Prod.mk.inj h
    exact ⟨bs, List.prefix_rfl, by simp [written], List.prefix_rfl⟩
  · next hlen =>
    -- The buffer is empty, so the bytes that go past it come right behind those of the sink.
    have hempty := hroom.resolve_right hlen
    obtain ⟨-, rfl⟩ := Prod.mk.inj h
    obtain ⟨-, ⟨taken, hsplit, hb⟩, -⟩ :=
      Sink.writeAll_taken (rfl : s.sink.writeAll bs = (_, _, _))
    exact ⟨taken, ⟨_, hsplit⟩, by simp [written, hb, hempty], ⟨taken, hb.symm⟩⟩

/-- A write, whether or not it fails, has put a beginning of its bytes behind those
before. -/
theorem write_extends (h : s.write bs = (r, s')) : ∃ done, done <+: bs ∧ s.Extends done s' := by
  rw [write] at h
  split at h
  · next hroom => exact put_extends (put_room hroom) h
  · split at h
    · next f s₁ hd =>
      obtain ⟨-, rfl⟩ := Prod.mk.inj h
      exact ⟨[], List.nil_prefix, drain_extends hd⟩
    · next s₁ hd =>
      obtain ⟨done, hdone, hput⟩ := put_extends (.inl ((drain_written hd).2.2 rfl)) h
      exact ⟨done, hdone, (drain_extends hd).append hput⟩

theorem write_extends_of_ok (h : s.write bs = (.ok (), s')) : s.Extends bs s' := by
  obtain ⟨done, -, hextends⟩ := write_extends h
  exact ⟨(write_ok h).2, hextends.grows⟩

/-- A writer that is given up leaves what its sink had taken before, and of what was
written behind that a beginning. -/
theorem abandon_between (s : BufferedSink) :
    s.sink.bytes <+: s.abandon.bytes ∧ s.abandon.bytes <+: s.written := by
  have hd : s.drain = (s.drain.1, s.drain.2) := rfl
  refine ⟨(drain_extends hd).grows, ?_⟩
  rw [← (drain_written hd).2.1]
  exact List.prefix_append _ _

theorem close_between (h : s.close = (r, sink)) :
    s.sink.bytes <+: sink.bytes ∧ sink.bytes <+: s.written := by
  rw [close] at h
  split at h
  · next f s₁ hd =>
    obtain ⟨-, rfl⟩ := Prod.mk.inj h
    obtain ⟨hlow, hhigh⟩ := abandon_between s₁
    rw [(drain_written hd).2.1] at hhigh
    exact ⟨(drain_extends hd).grows.trans hlow, hhigh⟩
  · next s₁ hd =>
    obtain ⟨-, rfl⟩ := Prod.mk.inj h
    refine ⟨(drain_extends hd).grows, ?_⟩
    rw [← (drain_written hd).2.1]
    exact List.prefix_append _ _

end BufferedSink

/-! ## Frames -/

namespace FrameSink

variable {codec : Codec α} {w w' : FrameSink} {payload : List UInt8} {a : α}
  {items : List α} {r : Except Failure Unit}

theorem writePayload_extends (h : w.writePayload payload = (r, w')) :
    ∃ done, done <+: Frame.encode payload ∧ w.out.Extends done w'.out := by
  rw [writePayload] at h
  split at h
  · obtain ⟨-, rfl⟩ := Prod.mk.inj h
    exact ⟨[], List.nil_prefix, .nothing _⟩
  split at h
  · next f o₁ h₁ =>
    obtain ⟨-, rfl⟩ := Prod.mk.inj h
    obtain ⟨done, hdone, hextends⟩ := BufferedSink.write_extends h₁
    exact ⟨done, hdone.trans (List.prefix_append _ _), hextends⟩
  next o₁ h₁ =>
  have hheader := BufferedSink.write_extends_of_ok h₁
  split at h
  all_goals
    next h₂ =>
    obtain ⟨-, rfl⟩ := Prod.mk.inj h
    obtain ⟨done, hdone, hextends⟩ := BufferedSink.write_extends h₂
    exact ⟨_, (List.prefix_append_right_inj _).mpr hdone, hheader.append hextends⟩

theorem write_extends (h : write codec.encode w a = (r, w')) :
    ∃ done, done <+: Frame.frames codec [a] ∧ w.out.Extends done w'.out := by
  rw [write_eq] at h
  cases hp : codec.payload a with
  | error e =>
      rw [hp] at h
      obtain ⟨-, rfl⟩ := Prod.mk.inj h
      exact ⟨[], List.nil_prefix, .nothing _⟩
  | ok payload =>
      rw [hp] at h
      rw [Frame.frames_cons (Codec.payload_eq_ok.mp hp).1]
      obtain ⟨done, hdone, hextends⟩ := writePayload_extends h
      exact ⟨done, hdone.trans (List.prefix_append _ _), hextends⟩

theorem write_extends_of_ok (h : write codec.encode w a = (.ok (), w')) :
    w.out.Extends (Frame.frames codec [a]) w'.out := by
  obtain ⟨done, -, hextends⟩ := write_extends h
  exact ⟨(write_ok h).2.written, hextends.grows⟩

theorem write_uncounted {e : Failure} (h : write codec.encode w a = (.error e, w')) :
    w'.frames = w.frames ∧ w'.bytes = w.bytes := by
  rw [write] at h
  split at h
  · obtain ⟨-, rfl⟩ := Prod.mk.inj h
    exact ⟨rfl, rfl⟩
  rw [writePayload] at h
  split at h
  · obtain ⟨-, rfl⟩ := Prod.mk.inj h
    exact ⟨rfl, rfl⟩
  split at h
  · obtain ⟨-, rfl⟩ := Prod.mk.inj h
    exact ⟨rfl, rfl⟩
  split at h
  · obtain ⟨-, rfl⟩ := Prod.mk.inj h
    exact ⟨rfl, rfl⟩
  · exact absurd (Prod.mk.inj h).1 (by simp)

theorem writeEach_grows {rs : List (Except Failure Unit)}
    (h : writeEach codec.encode w items = (rs, w')) :
    w.out.sink.bytes <+: w'.out.sink.bytes := by
  induction items generalizing w rs with
  | nil =>
      obtain ⟨-, rfl⟩ := Prod.mk.inj h
      exact List.prefix_rfl
  | cons a items ih =>
      obtain ⟨-, rfl⟩ := Prod.mk.inj h
      obtain ⟨done, -, hextends⟩ := write_extends (rfl : write codec.encode w a = (_, _))
      exact hextends.grows.trans (ih rfl)

/-- The sink behind a writer, wherever it was stopped, has a beginning of what was
written, and nothing else. -/
theorem taken_of_extends {sink final : Sink} {bs : List UInt8}
    (h : (ofSink sink).out.Extends bs w.out) (hlow : w.out.sink.bytes <+: final.bytes)
    (hhigh : final.bytes <+: w.out.written) :
    ∃ taken, taken <+: bs ∧ final.bytes = sink.bytes ++ taken := by
  obtain ⟨taken, htaken⟩ := h.grows.trans hlow
  refine ⟨taken, ?_, htaken.symm⟩
  have hwritten : w.out.written = sink.bytes ++ bs := by
    rw [h.written]
    simp [ofSink, BufferedSink.written]
  rw [hwritten, ← htaken] at hhigh
  exact (List.prefix_append_right_inj _).mp hhigh

/-- Whatever a sink does with the bytes, and however large the items are: as long as
no write was refused by the sink, the writer has counted the items that fit into
a frame.  If the next item is refused by the sink, it is not counted, and the sink
is left with a beginning of the frames of all these and of this item; and if
the writing is ended instead, with a beginning of their frames, which is
all of them if that does not fail. -/
theorem given_up_leaves_prefix {sink : Sink} {rs : List (Except Failure Unit)}
    (h : writeEach codec.encode (.ofSink sink) items = (rs, w))
    (hio : ∀ f, .error (.io f) ∉ rs) :
    rs = (items.map fun a => (codec.payload a).map fun _ => ()) ∧
      w.frames = (codec.accepted items).length ∧
      w.bytes = (Frame.frames codec (codec.accepted items)).length ∧
      (∀ a f w', write codec.encode w a = (.error (.io f), w') →
        w'.frames = w.frames ∧ w'.bytes = w.bytes ∧
          ∃ taken, taken <+: Frame.frames codec (codec.accepted items ++ [a]) ∧
            w'.abandon.bytes = sink.bytes ++ taken) ∧
      ∀ r sink', w.close = (r, sink') →
        ∃ taken, taken <+: Frame.frames codec (codec.accepted items) ∧
          sink'.bytes = sink.bytes ++ taken ∧
          (r = .ok () → taken = Frame.frames codec (codec.accepted items)) := by
  obtain ⟨hrs, hwrote⟩ := writeEach_wrote h hio
  have hextends : (ofSink sink).out.Extends (Frame.frames codec (codec.accepted items)) w.out :=
    ⟨hwrote.written, writeEach_grows h⟩
  refine ⟨hrs, by rw [hwrote.frames]; exact Nat.zero_add _,
    by rw [hwrote.bytes]; exact Nat.zero_add _, ?_, ?_⟩
  · intro a f w' hwrite
    obtain ⟨hframes, hbytes⟩ := write_uncounted hwrite
    obtain ⟨done, hdone, hrest⟩ := write_extends hwrite
    obtain ⟨hlow, hhigh⟩ := BufferedSink.abandon_between w'.out
    obtain ⟨taken, htaken, hfinal⟩ := taken_of_extends (hextends.append hrest) hlow hhigh
    refine ⟨hframes, hbytes, taken, htaken.trans ?_, hfinal⟩
    rw [Frame.frames_append]
    exact (List.prefix_append_right_inj _).mpr hdone
  · intro r sink' hclose
    cases hc : w.out.close with
    | mk r₀ s =>
      rw [close, hc] at hclose
      obtain ⟨rfl, rfl⟩ := Prod.mk.inj hclose
      obtain ⟨hlow, hhigh⟩ := BufferedSink.close_between hc
      obtain ⟨taken, htaken, hfinal⟩ := taken_of_extends hextends hlow hhigh
      refine ⟨taken, htaken, hfinal, ?_⟩
      intro hok
      cases r₀ with
      | error f => exact absurd hok (by simp [Except.mapError])
      | ok u =>
          have hall := BufferedSink.close_ok hc
          rw [hwrote.written, hfinal] at hall
          simpa [ofSink, BufferedSink.written] using hall

/-- A sink has room for two bytes, and for the rest after it has refused a write.  Behind a
frame that is held back comes an item as large as the buffer: its header goes into the
buffer, the buffer is refused before the payload has its turn, and the sink gets the rest
of the buffer when the writer is given up. -/
theorem given_up_after_header :
    let codec : Codec Nat :=
      { encode := fun n => .ok (List.replicate n 0)
        decode := fun bs => .ok bs.length
        size := id }
    let sink : Sink := { plan := .limited (some 2) BufferedSink.capacity true }
    ∃ w w', writeEach codec.encode (.ofSink sink) [1] = ([.ok ()], w) ∧
      (∀ f, .error (.io f) ∉ [(.ok () : Except Failure Unit)]) ∧
      write codec.encode w BufferedSink.capacity = (.error (.io SinkPlan.full), w') ∧
      w'.abandon.bytes = [0, 0, 0, 1, 0, 0, 0, 32, 0] ∧ w'.frames = 1 ∧ w'.bytes = 5 ∧
      w'.abandon.bytes <+: Frame.frames codec [1, BufferedSink.capacity] := by
  intro codec sink
  let w := (writeEach codec.encode (.ofSink sink) [1]).2
  let w' := (write codec.encode w BufferedSink.capacity).2
  have hitems : writeEach codec.encode (.ofSink sink) [1] = ([.ok ()], w) :=
    Prod.ext (by decide +kernel) rfl
  have hio : ∀ f, .error (.io f) ∉ [(.ok () : Except Failure Unit)] := by simp
  have hfull : (write codec.encode w BufferedSink.capacity).1 = .error (.io SinkPlan.full) := by
    decide +kernel
  have hrefused : write codec.encode w BufferedSink.capacity =
      (.error (.io SinkPlan.full), w') := by
    rw [← hfull]
  obtain ⟨-, hframes, hbytes, hwrite, -⟩ := given_up_leaves_prefix hitems hio
  obtain ⟨hsame, hsize, taken, htaken, hfinal⟩ := hwrite _ _ _ hrefused
  refine ⟨w, w', hitems, hio, hrefused, by decide +kernel, hsame.trans hframes, ?_, ?_⟩
  · rw [hsize, hbytes]
    decide +kernel
  · rw [hfinal]
    exact htaken

/-- Items that are written up to the first that fails are a beginning of their frames,
whatever that one fails of. -/
theorem writeAll_extends (h : writeAll codec.encode w items = (r, w')) :
    ∃ done, done <+: Frame.frames codec items ∧ w.out.Extends done w'.out := by
  induction items generalizing w with
  | nil =>
      obtain ⟨-, rfl⟩ := Prod.mk.inj h
      exact ⟨[], List.nil_prefix, .nothing _⟩
  | cons a items ih =>
      have hcons : Frame.frames codec (a :: items) =
          Frame.frames codec [a] ++ Frame.frames codec items :=
        Frame.frames_append [a] items
      rw [writeAll] at h
      split at h
      · next e w₁ hone =>
        obtain ⟨-, rfl⟩ := Prod.mk.inj h
        obtain ⟨done, hdone, hextends⟩ := write_extends hone
        exact ⟨done, hcons ▸ hdone.trans (List.prefix_append _ _), hextends⟩
      · next w₁ hone =>
        obtain ⟨done, hdone, hextends⟩ := ih h
        exact ⟨_, hcons ▸ (List.prefix_append_right_inj _).mpr hdone,
          (write_extends_of_ok hone).append hextends⟩

end FrameSink

/-- A run that is written, or not, leaves nothing in its file but a beginning of its
frames. -/
theorem Run.write_leaves_prefix {codec : Codec α} {items : List α} {sink sink' : Sink}
    {r : Except Failure (Nat × Nat)} (h : Run.write codec sink items = (r, sink')) :
    ∃ taken, taken <+: Frame.frames codec items ∧ sink'.bytes = sink.bytes ++ taken := by
  rw [Run.write] at h
  split at h
  · next e w hw =>
    obtain ⟨-, rfl⟩ := Prod.mk.inj h
    obtain ⟨done, hdone, hextends⟩ := FrameSink.writeAll_extends hw
    obtain ⟨hlow, hhigh⟩ := BufferedSink.abandon_between w.out
    obtain ⟨taken, htaken, hfinal⟩ := FrameSink.taken_of_extends hextends hlow hhigh
    exact ⟨taken, htaken.trans hdone, hfinal⟩
  · next w hw =>
    obtain ⟨done, hdone, hextends⟩ := FrameSink.writeAll_extends hw
    cases hc : w.out.close with
    | mk r₀ s =>
      rw [FrameSink.close, hc] at h
      obtain ⟨-, rfl⟩ := Prod.mk.inj h
      obtain ⟨hlow, hhigh⟩ := BufferedSink.close_between hc
      obtain ⟨taken, htaken, hfinal⟩ := FrameSink.taken_of_extends hextends hlow hhigh
      exact ⟨taken, htaken.trans hdone, hfinal⟩

end ExternalSort
