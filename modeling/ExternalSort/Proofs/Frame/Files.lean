/-
Files of frames.

Whatever is written into a file, the file holds the frames of the items that
were not refused, and nothing else; and wherever the file is cut off, what is
read of it are the items whose frames are left whole, and then the truth about
the cut: an end between two frames, and an error that tells what is missing
inside of one (`Frame.Cut`).
-/
import ExternalSort.Proofs.Frame.Delivery
import ExternalSort.Proofs.Frame.RoundTrip

namespace ExternalSort.Frame

variable {α : Type} {codec : Codec α} {items rest : List α} {n left : Nat} {ending : Ending}

/-- Of the frames of some items there are no more than `left` bytes, too few for
the first frame, and this is how reading them ends. -/
inductive Cut (codec : Codec α) : List α → Nat → Ending → Prop
  | boundary {items : List α} : Cut codec items 0 .ended
  | header {a : α} {items : List α} {left : Nat} : 0 < left → left < headerSize →
      Cut codec (a :: items) left (.failed (.truncatedFrame headerSize left))
  | payload {a : α} {items : List α} {payload : List UInt8} {left : Nat} :
      codec.encode a = .ok payload → headerSize ≤ left → left < headerSize + payload.length →
      Cut codec (a :: items) left (.failed (.truncatedFrame (headerSize + payload.length) left))

theorem exists_cut (hall : ∀ a ∈ items, ∃ payload, codec.payload a = .ok payload)
    (hn : n ≤ (frames codec items).length) :
    ∃ whole rest left ending, items = whole ++ rest ∧
      (frames codec whole).length + left = n ∧ Cut codec rest left ending := by
  induction items generalizing n with
  | nil =>
      obtain rfl : n = 0 := Nat.le_zero.mp hn
      exact ⟨[], [], 0, .ended, rfl, rfl, .boundary⟩
  | cons a items ih =>
      obtain ⟨⟨payload, hp⟩, hall⟩ := List.forall_mem_cons.mp hall
      obtain ⟨he, -⟩ := Codec.payload_eq_ok.mp hp
      rw [frames_cons he, List.length_append, length_encode] at hn
      by_cases hwhole : headerSize + payload.length ≤ n
      · obtain ⟨whole, rest, left, ending, hitems, hlen, hcut⟩ :=
          ih hall (n := n - (headerSize + payload.length)) (by omega)
        refine ⟨a :: whole, rest, left, ending, by rw [hitems, List.cons_append], ?_, hcut⟩
        rw [frames_cons he, List.length_append, length_encode]
        omega
      -- The first frame is not whole, so the cut is in front of it or inside of it.
      · by_cases hpos : n = 0
        · subst hpos
          exact ⟨[], a :: items, 0, .ended, rfl, rfl, .boundary⟩
        refine ⟨[], a :: items, n, ?_⟩
        by_cases hheader : n < headerSize
        · exact ⟨_, rfl, Nat.zero_add n, .header (Nat.pos_of_ne_zero hpos) hheader⟩
        · exact ⟨_, rfl, Nat.zero_add n, .payload he (by omega) (by omega)⟩

theorem Short.reads {decode : List UInt8 → Except Cause α} {bs : List UInt8} {expected : Nat}
    (h : Short bs expected) (hlen : bs.length = left) (hpos : 0 < left) :
    Reads decode none bs ⟨[], .failed (.truncatedFrame expected left)⟩ := by
  subst hlen
  exact .truncated rfl (List.length_pos_iff.mp hpos) h

/-- What is left of a frame that was cut reads as nothing but the cut. -/
theorem Cut.reads (h : Cut codec rest left ending)
    (hall : ∀ a ∈ rest, ∃ payload, codec.payload a = .ok payload) :
    Reads codec.decode none ((frames codec rest).take left) ⟨[], ending⟩ := by
  cases h with
  | boundary => exact .ended rfl
  | @header a items _ hpos hlt =>
      obtain ⟨payload, hp⟩ := hall a List.mem_cons_self
      obtain ⟨he, -⟩ := Codec.payload_eq_ok.mp hp
      have hlen : ((frames codec (a :: items)).take left).length = left := by
        rw [frames_cons he, List.length_take, List.length_append, length_encode]
        omega
      exact Short.reads (.header (by omega)) hlen hpos
  | @payload a items payload _ he hheader hlt =>
      obtain ⟨bs, hp⟩ := hall a List.mem_cons_self
      obtain ⟨he', hmax⟩ := Codec.payload_eq_ok.mp hp
      obtain rfl : bs = payload := Except.ok.inj (he'.symm.trans he)
      have htake : (frames codec (a :: items)).take left =
          bigEndian headerSize bs.length ++ bs.take (left - headerSize) := by
        rw [frames_cons he, encode, List.take_append_of_le_length, List.take_append,
          length_bigEndian, List.take_of_length_le]
        · rw [length_bigEndian]
          exact hheader
        · rw [List.length_append, length_bigEndian]
          omega
      have hlen : ((frames codec (a :: items)).take left).length = left := by
        rw [htake, List.length_append, length_bigEndian, List.length_take]
        omega
      have hshort : Short ((frames codec (a :: items)).take left) (headerSize + bs.length) := by
        rw [htake]
        exact .payload hmax (by rw [List.length_take]; omega)
      exact hshort.reads hlen (Nat.lt_of_lt_of_le (by decide) hheader)

theorem reads_cut {whole : List α} (h : codec.RoundTrips (· ∈ whole))
    (hall : ∀ a ∈ whole ++ rest, ∃ payload, codec.payload a = .ok payload)
    (hcut : Cut codec rest left ending) :
    Reads codec.decode none
      ((frames codec (whole ++ rest)).take ((frames codec whole).length + left))
      ⟨whole, ending⟩ := by
  have hwhole := fun a ha => hall a (List.mem_append_left rest ha)
  have hrest := hcut.reads fun a ha => hall a (List.mem_append_right whole ha)
  have hreads := hrest.frames (h.sound (fun _ ha => ha) hwhole) fun _ ha => ha
  rw [frames_append, List.take_length_add_append]
  simpa [Course.after] using hreads

/-- However many items are written, those that can be neither encoded nor put into
a frame among them, and whatever pieces the sink takes the bytes in: the sink
has just the frames of the items that were not refused, and these were counted.
Where its bytes are cut off, a stream of the rest, in whatever way it is delivered,
hands over the items whose frames are left whole, and ends as the cut says. -/
theorem file_holds_accepted (h : codec.RoundTrips (· ∈ items)) {sink : Sink}
    (htakes : sink.plan.Takes) (hempty : sink.bytes = []) :
    ∃ w sink', FrameSink.writeEach codec.encode (.ofSink sink) items =
        (items.map fun a => (codec.payload a).map fun _ => (), w) ∧
      w.close = (.ok (), sink') ∧
      sink'.bytes = frames codec (codec.accepted items) ∧
      w.frames = (codec.accepted items).length ∧ w.bytes = sink'.bytes.length ∧
      ∀ n, n ≤ sink'.bytes.length →
        ∃ whole rest left ending, codec.accepted items = whole ++ rest ∧
          (frames codec whole).length + left = n ∧ Cut codec rest left ending ∧
          ∀ (source : Source) (chunk : Nat) (h : Subscriber α) (drives : Nat),
            Source.content source = (sink'.bytes.take n, none) → h.IsQuiet →
            source.faults ≤ drives →
              (Command.performAll (FrameStream.ofSource source codec.decode chunk)
                (.subscribe h :: .resume :: List.replicate drives .drive)).2 =
                whole.map .item ++ Supply.endingEvents h ending := by
  obtain ⟨w, hw, hwrote⟩ : ∃ w, FrameSink.writeEach codec.encode (.ofSink sink) items = (_, w) ∧
      FrameSink.Wrote (.ofSink sink) _ _ w := FrameSink.writeEach_takes items htakes
  obtain ⟨sink', hclose⟩ := BufferedSink.close_takes (hwrote.plan ▸ htakes)
  have hbytes : sink'.bytes = frames codec (codec.accepted items) := by
    rw [BufferedSink.close_ok hclose, hwrote.written]
    simp [FrameSink.ofSink, BufferedSink.written, hempty]
  have hall : ∀ a ∈ codec.accepted items, ∃ payload, codec.payload a = .ok payload :=
    fun a => Codec.mem_accepted
  refine ⟨w, sink', hw, ?_, hbytes, ?_, ?_, ?_⟩
  · rw [FrameSink.close, hclose]
    rfl
  · rw [hwrote.frames]
    exact Nat.zero_add _
  · rw [hwrote.bytes, hbytes]
    exact Nat.zero_add _
  intro n hn
  rw [hbytes] at hn
  obtain ⟨whole, rest, left, ending, hitems, hlen, hcut⟩ := exists_cut hall hn
  refine ⟨whole, rest, left, ending, hitems, hlen, hcut, ?_⟩
  intro source chunk s drives hcontent hq hd
  rw [hitems] at hall
  have hamong : ∀ a ∈ whole, a ∈ items := by
    intro a ha
    have ha : a ∈ codec.accepted items := hitems ▸ List.mem_append_left rest ha
    exact (List.mem_filter.mp ha).1
  have htrips : codec.RoundTrips (· ∈ whole) := fun a ha => h a (hamong a ha)
  have hreads := reads_cut htrips hall hcut
  rw [hlen, ← hitems, ← hbytes] at hreads
  have hhears := (ForetoldProducer.hears_course (fun r : FrameStream α => r.source.faults)
    (fun _ _ => rfl) FrameStream.drive_progress (s := .ofSource source codec.decode chunk) rfl hq
    hd).1
  rw [FrameStream.course_of_reads hcontent hreads chunk] at hhears
  exact hhears

/-- A sink that takes a byte at a time gets the frames of the two items that can
be encoded.  Without its last two bytes they read as the first item, and three bytes
of a header. -/
theorem file_of_two_without_end :
    let codec : Codec UInt8 :=
      { encode := fun b => if b = 255 then .error (.text "unfit") else .ok [b]
        decode := fun bs => bs.head?.elim (.error (.text "empty")) .ok
        size := fun _ => 1 }
    let sink : Sink := { plan := .limited none 1 false }
    codec.RoundTrips (· ∈ [1, 255, 2]) ∧ sink.plan.Takes ∧ sink.bytes = [] ∧
      ∃ w sink', FrameSink.writeEach codec.encode (.ofSink sink) [1, 255, 2] =
          ([.ok (), .error (.encoding (.text "unfit")), .ok ()], w) ∧
        w.close = (.ok (), sink') ∧ sink'.bytes = [0, 0, 0, 1, 1, 0, 0, 0, 1, 2] ∧
        (Command.performAll (FrameStream.ofSource [.data (sink'.bytes.take 8)] codec.decode 3)
          [.subscribe {}, .resume]).2 =
          [.item 1, .ending (.failed (.truncatedFrame 4 3))] := by
  intro codec sink
  have htrips : codec.RoundTrips (· ∈ [1, 255, 2]) := by
    intro b _ payload he
    by_cases hb : b = 255
    · exact absurd he (by simp [codec, hb])
    · obtain rfl : [b] = payload := by simpa [codec, hb] using he
      rfl
  have htakes : sink.plan.Takes := by
    refine ⟨?_, fun _ => rfl⟩
    intro h n hn
    refine ⟨min n (min 1 n), ?_, by omega⟩
    show (if _ then _ else _) = _
    rw [if_neg (by simp)]
  refine ⟨htrips, htakes, rfl, ?_⟩
  obtain ⟨w, sink', hw, hclose, hbytes, -, -, hcuts⟩ :=
    file_holds_accepted htrips htakes rfl
  have hbytes : sink'.bytes = [0, 0, 0, 1, 1, 0, 0, 0, 1, 2] := hbytes.trans (by decide)
  refine ⟨w, sink', hw, hclose, hbytes, ?_⟩
  obtain ⟨whole, rest, left, ending, hitems, hlen, hcut, hreads⟩ := hcuts 8 (by simp [hbytes])
  have hitems : [1, 2] = whole ++ rest := hitems
  -- A cut behind no frame or behind both of them would be somewhere else.
  have hwhole : whole = [1] ∧ ending = .failed (.truncatedFrame 4 3) := by
    match whole, hitems, hlen with
    | [], hitems, hlen =>
      obtain rfl : [1, 2] = rest := hitems
      obtain rfl : left = 8 := by simpa [frames] using hlen
      cases hcut with
      | header _ hlt => exact absurd hlt (by decide)
      | payload he _ hlt =>
          obtain rfl : [1] = _ := Except.ok.inj he
          exact absurd hlt (by decide)
    | [b], hitems, hlen =>
      obtain ⟨rfl, rfl⟩ := List.cons.inj hitems
      obtain rfl : left = 3 := by
        have : (frames codec [1]).length = 5 := by decide
        omega
      cases hcut with
      | header _ _ => exact ⟨rfl, rfl⟩
      | payload _ hle _ => exact absurd hle (by decide)
    | b :: c :: whole, hitems, hlen =>
      obtain ⟨rfl, rfl, rfl, -⟩ : 1 = b ∧ 2 = c ∧ whole = [] ∧ rest = [] := by
        simpa using hitems
      have : (frames codec [1, 2]).length = 10 := by decide
      omega
  obtain ⟨rfl, rfl⟩ := hwhole
  exact hreads [.data (sink'.bytes.take 8)] 3 {} 0 (by simp [Source.content]) (fun _ _ => rfl)
    (Nat.le_refl _)

end ExternalSort.Frame
