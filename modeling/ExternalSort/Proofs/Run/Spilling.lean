/-
What a spill comes to.

A spill may fail at the sort, at the creation of its file, or at the writing of
it, and only then is it done (`RunGenerator.Spilled`).  If it is done, there is
one more file, which holds what was held in memory; if it is not, then no file
has changed, and everything is still held (`Stored.spill_ok`,
`Stored.spill_error`).
-/
import ExternalSort.Proofs.Frame.RoundTrip
import ExternalSort.Proofs.Order.Sorting
import ExternalSort.Proofs.Store.Honest
import ExternalSort.Run.Generator
import Mathlib.Data.List.Forall2

namespace ExternalSort

variable {O α W : Type} [ItemOrder O α] [SpillStore W]

/-- A file holds some items: its frames read as these items, and it was taken down
how many they are, and how many bytes. -/
structure SpillFile.Holds (files : Path → Option (List UInt8))
    (decode : List UInt8 → Except Cause α) (f : SpillFile) (items : List α) : Prop where
  content : ∃ bs, files f.path = some bs ∧ Frame.Reads decode none bs ⟨items, .ended⟩ ∧
    f.bytes = bs.length
  items_eq : f.items = items.length

/-- Files that there are already do not mind what happens to others. -/
theorem SpillFile.Holds.mono {files files' : Path → Option (List UInt8)}
    {decode : List UInt8 → Except Cause α} {f : SpillFile} {items : List α}
    (h : f.Holds files decode items) (hf : ∀ q, files q ≠ none → files' q = files q) :
    f.Holds files' decode items where
  content := by
    obtain ⟨bs, hbs, hrest⟩ := h.content
    exact ⟨bs, (hf _ (by simp [hbs])).trans hbs, hrest⟩
  items_eq := h.items_eq

theorem SpillFile.Holds.of_write {codec : Codec α} {sink sink' : Sink} {items : List α}
    {n size seq : Nat} {path : Path} {files : Path → Option (List UInt8)}
    (h : Run.write codec sink items = (.ok (n, size), sink')) (hempty : sink.bytes = [])
    (hcodec : codec.RoundTrips (· ∈ items)) (hfile : files path = some sink'.bytes) :
    SpillFile.Holds files codec.decode ⟨path, seq, n, size⟩ items := by
  obtain ⟨hall, hbytes, rfl, rfl⟩ := Run.write_ok h
  rw [hempty, List.nil_append] at hbytes
  have hsound : codec.Sound (· ∈ items) := hcodec.sound (fun _ ha => ha) hall
  refine ⟨⟨sink'.bytes, hfile, ?_, ?_⟩, rfl⟩
  · rw [hbytes]
    exact Frame.reads_frames hsound fun _ ha => ha
  · rw [hbytes]

namespace RunGenerator

/-! ## The outcomes -/

/-- Whatever becomes of the creation of a file, no other file changes. -/
theorem createFile_outcome {V : Honest W} {s : Settings} {tag : UInt32} {seq next : Nat} {w w' : W}
    {r : Except Fault (Nat × Path × Sink)} (hw : V.ok w) {attempts : Nat}
    (h : createFile s tag seq w attempts = (r, next, w')) :
    V.ok w' ∧ seq ≤ next ∧ ((∃ f, r = .error f ∧ V.files w' = V.files w) ∨
      ∃ m p sink, r = .ok (m, p, sink) ∧ seq ≤ m ∧ next = m + 1 ∧ V.files w p = none ∧
        sink.bytes = [] ∧ ∀ q, q ≠ p → V.files w' q = V.files w q) := by
  induction attempts generalizing seq w with
  | zero =>
      obtain ⟨rfl, hrest⟩ := Prod.mk.inj h
      obtain ⟨rfl, rfl⟩ := Prod.mk.inj hrest
      exact ⟨hw, Nat.le_refl _, .inl ⟨_, rfl, rfl⟩⟩
  | succ attempts ih =>
      rw [createFile] at h
      split at h
      · next sink w₁ hc =>
        obtain ⟨rfl, hrest⟩ := Prod.mk.inj h
        obtain ⟨rfl, rfl⟩ := Prod.mk.inj hrest
        obtain ⟨hw₁, hnone, hb, hothers⟩ := V.create hw hc
        exact ⟨hw₁, Nat.le_succ seq,
          .inr ⟨seq, _, sink, rfl, Nat.le_refl seq, rfl, hnone, hb, hothers⟩⟩
      · next f w₁ hc =>
        obtain ⟨hw₁, hfiles⟩ := V.refuse hw hc
        split at h
        · obtain ⟨hw', hle, hr⟩ := ih hw₁ h
          rw [hfiles] at hr
          refine ⟨hw', by omega, hr.imp_right ?_⟩
          rintro ⟨m, p, sink, rfl, hm, hr⟩
          exact ⟨m, p, sink, rfl, by omega, hr⟩
        · obtain ⟨rfl, hrest⟩ := Prod.mk.inj h
          obtain ⟨rfl, rfl⟩ := Prod.mk.inj hrest
          exact ⟨hw₁, Nat.le_succ seq, .inl ⟨f, rfl, hfiles⟩⟩

theorem createFile_created {V : Honest W} {s : Settings} {tag : UInt32} {seq m next : Nat}
    {p : Path} {sink : Sink} {w w' : W} (hw : V.ok w) {attempts : Nat}
    (h : createFile s tag seq w attempts = (.ok (m, p, sink), next, w')) :
    V.ok w' ∧ seq ≤ m ∧ next = m + 1 ∧ V.files w p = none ∧ sink.bytes = [] ∧
      ∀ q, q ≠ p → V.files w' q = V.files w q := by
  obtain ⟨hw', -, ⟨f, hr, -⟩ | ⟨_, _, _, hr, hrest⟩⟩ := createFile_outcome hw h
  · exact absurd hr (by simp)
  · obtain ⟨rfl, rfl, rfl⟩ : m = _ ∧ p = _ ∧ sink = _ := by simpa using hr
    exact ⟨hw', hrest⟩

theorem createFile_failed {V : Honest W} {s : Settings} {tag : UInt32} {seq next : Nat} {f : Fault}
    {w w' : W} (hw : V.ok w) {attempts : Nat}
    (h : createFile s tag seq w attempts = (.error f, next, w')) :
    V.ok w' ∧ seq ≤ next ∧ V.files w' = V.files w := by
  obtain ⟨hw', hle, ⟨_, -, hfiles⟩ | ⟨_, _, _, hr, -⟩⟩ := createFile_outcome hw h
  · exact ⟨hw', hle, hfiles⟩
  · exact absurd hr (by simp)

/-- The outcomes of a spill. -/
inductive Spilled (b : RunGenerator O α) (w : W) :
    Except Failure Unit × RunGenerator O α × W → Prop
  | unsorted {e : OrderError} : sortWith (ItemOrder.compare b.order) b.buffer.toList = .error e →
      Spilled b w (.error (.ofCompare e), b, w)
  | uncreated {sorted : List α} {f : Fault} {nextSeq : Nat} {w₁ : W} :
      sortWith (ItemOrder.compare b.order) b.buffer.toList = .ok sorted →
      createFile b.settings b.tag b.nextSeq w nameAttempts = (.error f, nextSeq, w₁) →
      Spilled b w (.error (.io f), { b with buffer := sorted.toArray, nextSeq }, w₁)
  | unwritten {sorted : List α} {seq nextSeq : Nat} {path : Path} {sink sink' : Sink} {w₁ : W}
      {e : Failure} : sortWith (ItemOrder.compare b.order) b.buffer.toList = .ok sorted →
      createFile b.settings b.tag b.nextSeq w nameAttempts = (.ok (seq, path, sink), nextSeq, w₁) →
      Run.write b.codec sink sorted = (.error e, sink') →
      Spilled b w (.error e, { b with buffer := sorted.toArray, nextSeq },
        (SpillStore.tryRemove (SpillStore.keep w₁ path sink') path).2)
  | written {sorted : List α} {seq nextSeq items bytes : Nat} {path : Path} {sink sink' : Sink}
      {w₁ : W} : sortWith (ItemOrder.compare b.order) b.buffer.toList = .ok sorted →
      createFile b.settings b.tag b.nextSeq w nameAttempts = (.ok (seq, path, sink), nextSeq, w₁) →
      Run.write b.codec sink sorted = (.ok (items, bytes), sink') →
      Spilled b w (.ok (),
        { b with
          files := b.files ++ [⟨path, seq, items, bytes⟩]
          buffer := #[]
          heldSize := 0
          nextSeq },
        SpillStore.keep w₁ path sink')

theorem spilled (b : RunGenerator O α) (w : W) : Spilled b w (b.spill w) := by
  rw [spill]
  split
  · next hs => exact .unsorted hs
  · next hs =>
    split
    · next hc => exact .uncreated hs hc
    · next sink nextSeq w₁ hc =>
      rw [writeFile]
      dsimp only
      cases hw : Run.write b.codec sink _ with
      | mk r sink' =>
          cases r with
          | error e => exact .unwritten hs hc hw
          | ok r => exact .written hs hc hw

theorem add_refused {b : RunGenerator O α} {a : α} {e : OrderError}
    (h : ItemOrder.accept b.order a = .error e) (w : W) :
    b.add w a = (.error (.ofCompare e), b, w) := by
  rw [add, h]

theorem add_accepted {b : RunGenerator O α} {a : α} {o : O}
    (h : ItemOrder.accept b.order a = .ok o) (w : W) :
    b.add w a = if b.settings.threshold ≤ (b.hold o a).heldSize then (b.hold o a).spill w
      else (.ok (), b.hold o a, w) := by
  rw [add, h]
  rfl

/-! ## What lies in the files -/

/-- The files of a generator hold some lists of items, in order, and their numbers
rise. -/
structure Stored (V : Honest W) (codec : Codec α) (b : RunGenerator O α) (w : W)
    (stored : List (List α)) : Prop where
  ok : V.ok w
  codec_eq : b.codec = codec
  holds : List.Forall₂ (fun f l => f.Holds (V.files w) codec.decode l) b.files stored
  rising : b.files.Pairwise fun f g => f.seq < g.seq
  below : ∀ f ∈ b.files, f.seq < b.nextSeq

variable {V : Honest W} {codec : Codec α} {b b' : RunGenerator O α} {w w' : W}
  {stored : List (List α)}

omit [ItemOrder O α] in
theorem Stored.mono (h : Stored V codec b w stored) (hw : V.ok w') (hc : b'.codec = b.codec)
    (hf : b'.files = b.files) (hn : b.nextSeq ≤ b'.nextSeq)
    (hfiles : ∀ q, V.files w q ≠ none → V.files w' q = V.files w q) :
    Stored V codec b' w' stored where
  ok := hw
  codec_eq := hc.trans h.codec_eq
  holds := by
    rw [hf]
    exact h.holds.imp fun f l hl => hl.mono hfiles
  rising := hf ▸ h.rising
  below f hm := Nat.lt_of_lt_of_le (h.below f (hf ▸ hm)) hn

omit [ItemOrder O α] in
theorem Stored.fresh (hw : V.ok w) (settings : Settings) (codec : Codec α) (order : O)
    (tag : UInt32) : Stored V codec { settings, codec, order, tag } w [] where
  ok := hw
  codec_eq := rfl
  holds := .nil
  rising := .nil
  below _ h := absurd h List.not_mem_nil

omit [ItemOrder O α] in
theorem Stored.more (h : Stored V codec b w stored) {f : SpillFile} {l : List α}
    (hf : f.Holds (V.files w') codec.decode l) (hw : V.ok w')
    (hfiles : ∀ q, V.files w q ≠ none → V.files w' q = V.files w q) (hseq : b.nextSeq ≤ f.seq)
    {buffer : Array α} {heldSize : Nat} :
    Stored V codec
      { b with files := b.files ++ [f], buffer, heldSize, nextSeq := f.seq + 1 } w'
      (stored ++ [l]) where
  ok := hw
  codec_eq := h.codec_eq
  holds := List.rel_append (h.holds.imp fun f l hl => hl.mono hfiles) (.cons hf .nil)
  rising := by
    refine List.pairwise_append.mpr ⟨h.rising, List.pairwise_singleton .., ?_⟩
    intro g hg g' hg'
    rw [List.mem_singleton.mp hg']
    exact Nat.lt_of_lt_of_le (h.below g hg) hseq
  below := by
    intro g hg
    rcases List.mem_append.mp hg with hg | hg
    · exact Nat.lt_succ_of_lt (Nat.lt_of_lt_of_le (h.below g hg) hseq)
    · rw [List.mem_singleton.mp hg]
      exact Nat.lt_succ_self f.seq

/-- A spill that is done leaves one more file, with all that was held, in order. -/
theorem Stored.spill_ok (h : Stored V codec b w stored)
    (hcodec : codec.RoundTrips (· ∈ b.buffer.toList)) (hs : b.spill w = (.ok (), b', w')) :
    ∃ sorted f nextSeq, sortWith (ItemOrder.compare b.order) b.buffer.toList = .ok sorted ∧
      b' = { b with files := b.files ++ [f], buffer := #[], heldSize := 0, nextSeq } ∧
      Stored V codec b' w' (stored ++ [sorted]) := by
  have hsp := b.spilled w
  rw [hs] at hsp
  cases hsp with
  | @written sorted seq nextSeq items bytes path sink sink' w₁ hsort hc hwrite =>
      refine ⟨sorted, ⟨path, seq, items, bytes⟩, nextSeq, hsort, rfl, ?_⟩
      obtain ⟨hw₁, hseq, rfl, hnone, hempty, hothers⟩ := createFile_created h.ok hc
      obtain ⟨hw', hnew, hkept⟩ := V.keep path sink' hw₁
      have hfiles : ∀ q, V.files w q ≠ none →
          V.files (SpillStore.keep w₁ path sink') q = V.files w q := by
        intro q hq
        have hne : q ≠ path := by
          rintro rfl
          exact hq hnone
        exact (hkept q hne).trans (hothers q hne)
      have hback : codec.RoundTrips (· ∈ sorted) := fun a ha =>
        hcodec a ((sortWith_perm hsort).subset ha)
      rw [h.codec_eq] at hwrite
      exact h.more (.of_write hwrite hempty hback hnew) hw' hfiles hseq

/-- A spill that fails leaves the files as they are, and all that was held in
memory. -/
theorem Stored.spill_error (h : Stored V codec b w stored) (hremoves : V.Removes) {e : Failure}
    (hs : b.spill w = (.error e, b', w')) :
    ∃ buffer nextSeq, b' = { b with buffer, nextSeq } ∧ buffer.toList.Perm b.buffer.toList ∧
      V.files w' = V.files w ∧ Stored V codec b' w' stored := by
  have hmono : ∀ {buffer nextSeq w'}, V.ok w' → b.nextSeq ≤ nextSeq → V.files w' = V.files w →
      Stored V codec { b with buffer, nextSeq } w' stored := fun hw' hle hfiles =>
    h.mono hw' rfl rfl hle fun q _ => congrFun hfiles q
  have hsp := b.spilled w
  rw [hs] at hsp
  cases hsp with
  | unsorted hsort => exact ⟨b.buffer, b.nextSeq, rfl, .refl _, rfl, h⟩
  | uncreated hsort hc =>
      obtain ⟨hw', hle, hfiles⟩ := createFile_failed h.ok hc
      exact ⟨_, _, rfl, sortWith_perm hsort, hfiles, hmono hw' hle hfiles⟩
  | @unwritten _ _ _ _ _ sink' _ _ hsort hc hwrite =>
      obtain ⟨hw₁, hseq, rfl, hnone, -, hothers⟩ := createFile_created h.ok hc
      obtain ⟨hw', hfiles⟩ := hremoves.undo sink' hw₁ hnone hothers
      exact ⟨_, _, rfl, sortWith_perm hsort, hfiles, hmono hw' (Nat.le_succ_of_le hseq) hfiles⟩

end RunGenerator

end ExternalSort
