/-
A generator over a store that does not fail.

Such a generator does nothing but follow `Batches`: its files hold the runs
that were spilled, and what it holds in memory is what is held there
(`Mirrors`).  Spilling, adding and closing keep this, and none of them
fails.
-/
import ExternalSort.Proofs.Frame.RoundTrip
import ExternalSort.Proofs.Merge.Refines
import ExternalSort.Proofs.Run.Batches
import ExternalSort.Proofs.Run.Spilling
import ExternalSort.Proofs.Settings
import ExternalSort.Proofs.Store.Reliable
import ExternalSort.Run.Generator

namespace ExternalSort

variable {O α W : Type} [ItemOrder O α] [SpillStore W]

namespace Reliable

variable {R : Reliable W} {s : Settings} {tag : UInt32} {seq : Nat} {w w' : W}

/-- Of all numbers from `seq` on, one of so many in a row has a free name. -/
def HasRoom (R : Reliable W) (s : Settings) (tag : UInt32) (seq : Nat) (w : W) : Prop :=
  ∀ n, seq ≤ n → ∃ k, k < RunGenerator.nameAttempts ∧ R.files w (s.spillPath tag (n + k)) = none

theorem HasRoom.next (h : R.HasRoom s tag seq w) {m : Nat} (hm : seq ≤ m)
    (hf : ∀ q, q ≠ s.spillPath tag m → R.files w' q = R.files w q) :
    R.HasRoom s tag (m + 1) w' := by
  intro n hn
  obtain ⟨k, hk, hfree⟩ := h n (by omega)
  refine ⟨k, hk, ?_⟩
  rw [hf _ ?_]
  · exact hfree
  · intro he
    have := Settings.spillPath_inj he
    omega

end Reliable

namespace RunGenerator

variable {R : Reliable W}

theorem createFile_ok {s : Settings} {tag : UInt32} {n k seq : Nat} {w : W} (hw : R.ok w)
    (hk : k < n) (hfree : R.files w (s.spillPath tag (seq + k)) = none) :
    ∃ m sink w', createFile s tag seq w n = (.ok (m, s.spillPath tag m, sink), m + 1, w') ∧
      seq ≤ m ∧ R.ok w' ∧ R.files w (s.spillPath tag m) = none ∧ sink.plan.Takes ∧
      sink.bytes = [] ∧ ∀ q, q ≠ s.spillPath tag m → R.files w' q = R.files w q := by
  induction n generalizing seq k w with
  | zero => exact absurd hk (Nat.not_lt_zero k)
  | succ n ih =>
      by_cases hp : R.files w (s.spillPath tag seq) = none
      · obtain ⟨sink, w', hc, hw', ht, hb, hq⟩ := R.create hw hp
        refine ⟨seq, sink, w', ?_, Nat.le_refl seq, hw', hp, ht, hb, hq⟩
        rw [createFile, hc]
      · obtain ⟨f, w₁, hc, hf, hw₁, hfiles⟩ := R.taken hw hp
        cases k with
        | zero => exact absurd hfree hp
        | succ k =>
            have hfree : R.files w₁ (s.spillPath tag (seq + 1 + k)) = none := by
              rw [hfiles, Nat.add_right_comm, Nat.add_assoc]
              exact hfree
            obtain ⟨m, sink, w', hcf, hm, hw', hnone, ht, hb, hq⟩ :=
              ih hw₁ (Nat.lt_of_succ_lt_succ hk) hfree
            rw [hfiles] at hnone hq
            refine ⟨m, sink, w', ?_, by omega, hw', hnone, ht, hb, hq⟩
            rw [createFile, hc]
            dsimp only
            rw [if_pos hf]
            exact hcf

/-! ## The generator and its runs -/

/-- A generator has done what `t` says. -/
structure Mirrors (R : Reliable W) (settings : Settings) (codec : Codec α) (t : Batches O α)
    (b : RunGenerator O α) (w : W) : Prop where
  ok : R.ok w
  settings_eq : b.settings = settings
  codec_eq : b.codec = codec
  order : b.order = t.order
  held : b.buffer.toList = t.held
  size : b.heldSize = t.size
  files : b.files.map (fun f => R.files w f.path) =
    t.spilled.map (fun l => some (Frame.frames codec l))
  room : R.HasRoom settings b.tag b.nextSeq w

variable {settings : Settings} {codec : Codec α} {t : Batches O α} {b : RunGenerator O α} {w : W}
  {order : O} {items taken : List α}

omit [ItemOrder O α] in
theorem Mirrors.fresh (hw : R.ok w) {tag : UInt32} (hroom : R.HasRoom settings tag 1 w) :
    Mirrors R settings codec { order } { settings, codec, order, tag } w where
  ok := hw
  settings_eq := rfl
  codec_eq := rfl
  order := rfl
  held := rfl
  size := rfl
  files := rfl
  room := hroom

omit [ItemOrder O α] in
theorem Mirrors.present (h : Mirrors R settings codec t b w) {f : SpillFile} (hf : f ∈ b.files) :
    R.files w f.path ≠ none := by
  have hm := List.mem_map_of_mem (f := fun f : SpillFile => R.files w f.path) hf
  rw [h.files] at hm
  obtain ⟨l, -, hl⟩ := List.mem_map.mp hm
  rw [← hl]
  exact Option.some_ne_none _

section Sound

variable (hs : codec.Sound (MaySpill settings.threshold codec.size items))
  (hhandles : ItemOrder.Handles order items)
include hs hhandles

theorem Mirrors.spill (hg : t.Good settings.threshold codec.size order items taken)
    (hreach : settings.threshold ≤ satTotal codec.size items)
    (h : Mirrors R settings codec t b w) :
    ∃ b' w', b.spill w = (.ok (), b', w') ∧ Mirrors R settings codec t.spill b' w' := by
  obtain ⟨hsort, hperm, -⟩ := hg.sort_held hhandles
  have hin : ∀ a ∈ ItemOrder.sort t.order t.held,
      MaySpill settings.threshold codec.size items a := fun a ha =>
    ⟨hg.held_subset (hperm.subset ha), hreach⟩
  obtain ⟨k, hk, hfree⟩ := h.room b.nextSeq (Nat.le_refl _)
  obtain ⟨m, sink, w₁, hc, hm, hw₁, hnone, ht, hb, hq⟩ := createFile_ok h.ok hk hfree
  obtain ⟨⟨n, size⟩, sink', hwr⟩ := Run.write_takes ht (hs.payload hin)
  have hbytes := (Run.write_ok hwr).2.1
  rw [hb, List.nil_append] at hbytes
  obtain ⟨hw₂, hnew, hq₂⟩ := R.keep (settings.spillPath b.tag m) sink' hw₁
  have hother : ∀ q, q ≠ settings.spillPath b.tag m →
      R.files (SpillStore.keep w₁ (settings.spillPath b.tag m) sink') q = R.files w q :=
    fun q hne => (hq₂ q hne).trans (hq q hne)
  rw [RunGenerator.spill]
  rw [h.order, h.held, hsort]
  dsimp only
  rw [h.settings_eq, hc]
  dsimp only [writeFile]
  rw [h.codec_eq, hwr]
  refine ⟨_, _, rfl, ?_⟩
  exact
    { ok := hw₂
      settings_eq := rfl
      codec_eq := rfl
      order := rfl
      held := rfl
      size := rfl
      files := by
        rw [List.map_append]
        refine (congr (congrArg _ ?_) ?_).trans List.map_append.symm
        · rw [← h.files]
          refine List.map_congr_left ?_
          intro f hf
          refine hother _ ?_
          intro he
          exact h.present hf (he ▸ hnone)
        · simp [hnew, hbytes]
      room := h.room.next hm hother }

omit [ItemOrder O α] hs hhandles in
theorem Mirrors.hold (h : Mirrors R settings codec t b w) (o : O) (a : α) :
    Mirrors R settings codec (t.hold codec.size o a) (b.hold o a) w where
  ok := h.ok
  settings_eq := h.settings_eq
  codec_eq := h.codec_eq
  order := rfl
  held := by simp [RunGenerator.hold, Batches.hold, h.held]
  size := by simp [RunGenerator.hold, Batches.hold, h.size, h.codec_eq]
  files := h.files
  room := h.room

/-- An item is taken in as `Batches` takes it in. -/
theorem Mirrors.add (hg : t.Good settings.threshold codec.size order items taken) {a : α}
    (ha : taken ++ [a] <+: items) (h : Mirrors R settings codec t b w) :
    ∃ b' w', b.add w a = (.ok (), b', w') ∧
      Mirrors R settings codec (t.add settings.threshold codec.size a) b' w' := by
  obtain ⟨o, hacc, hnoted⟩ := hg.accept hhandles ha
  have hgood := hg.hold ha hnoted
  have hheld := h.hold o a
  rw [Batches.add_accepted hacc, add_accepted (h.order ▸ hacc)]
  rw [h.settings_eq, hheld.size]
  split
  · next hfull => exact hheld.spill hs hhandles hgood (hgood.reaches hfull)
  · exact ⟨_, _, rfl, hheld⟩

theorem Mirrors.addAll (hg : t.Good settings.threshold codec.size order items taken)
    {as : List α} (ha : taken ++ as <+: items) (h : Mirrors R settings codec t b w) :
    ∃ b' w', b.addAll w as = (.ok (), b', w') ∧
      Mirrors R settings codec (t.addAll settings.threshold codec.size as) b' w' := by
  induction as generalizing taken t b w with
  | nil => exact ⟨b, w, rfl, h⟩
  | cons a as ih =>
      rw [← List.singleton_append, ← List.append_assoc] at ha
      have hone : taken ++ [a] <+: items := (List.prefix_append _ as).trans ha
      obtain ⟨b₁, w₁, hadd, h₁⟩ := h.add hs hhandles hg hone
      obtain ⟨b', w', hall, h'⟩ := ih (hg.add hhandles hone) ha h₁
      refine ⟨b', w', ?_, h'⟩
      rw [RunGenerator.addAll, hadd]
      exact hall

/-! ## Reading the runs -/

omit [ItemOrder O α] hs hhandles in
theorem courses_files {P : α → Prop} (hs : codec.Sound P) {files : List SpillFile}
    {spilled : List (List α)} (hin : ∀ l ∈ spilled, ∀ a ∈ l, P a) (hw : R.ok w)
    (h : files.map (fun f => R.files w f.path) =
      spilled.map (fun l => some (Frame.frames codec l))) :
    Merge.courses codec.decode w (files.map .file) = spilled.map fun l => ⟨l, .ended⟩ := by
  induction files generalizing spilled w with
  | nil =>
      obtain rfl : spilled = [] := by simpa using h
      rfl
  | cons f files ih =>
      cases spilled with
      | nil => exact absurd h (by simp)
      | cons l spilled =>
          simp only [List.map_cons, List.cons.injEq] at h
          obtain ⟨hl, hin⟩ := List.forall_mem_cons.mp hin
          obtain ⟨source, w', ho, hcontent, hw', hfiles⟩ := R.openFile hw h.1
          rw [List.map_cons, Merge.courses, ho, List.map_cons]
          dsimp only
          rw [hcontent]
          dsimp only
          rw [Frame.course_frames hs hl, ih hin hw' (by rw [hfiles]; exact h.2)]

/-- Closing hands over runs that read as the runs of `Batches`. -/
theorem Mirrors.close (hg : t.Good settings.threshold codec.size order items taken)
    (h : Mirrors R settings codec t b w) :
    ∃ runs w', b.close w = (.ok runs, w') ∧ R.ok w' ∧
      Merge.courses codec.decode w' runs = t.runs.map fun l => ⟨l, .ended⟩ := by
  have hlen : b.files.length = t.spilled.length := by simpa using congrArg List.length h.files
  rw [RunGenerator.close]
  by_cases hspilled : t.spilled = []
  · have hnone : b.files.isEmpty = true := by
      rw [hspilled] at hlen
      exact List.isEmpty_iff_length_eq_zero.mpr hlen
    obtain ⟨hsort, -, -⟩ := hg.sort_held hhandles
    rw [if_pos hnone, h.order, h.held, hsort, Batches.runs, if_pos hspilled]
    exact ⟨_, w, rfl, h.ok, rfl⟩
  have hsome : ¬b.files.isEmpty = true := by
    intro he
    rw [List.isEmpty_iff_length_eq_zero, hlen] at he
    exact hspilled (List.eq_nil_of_length_eq_zero he)
  rw [if_neg hsome, Batches.runs, if_neg hspilled]
  by_cases hheld : t.held = []
  · have hempty : b.buffer.isEmpty = true := by
      rw [← Array.isEmpty_toList, h.held, hheld]
      rfl
    rw [if_pos hempty, if_pos hheld]
    exact ⟨_, w, rfl, h.ok, courses_files hs hg.spilled_maySpill h.ok h.files⟩
  · have hfull : ¬b.buffer.isEmpty = true := by
      rw [← Array.isEmpty_toList, h.held, List.isEmpty_iff]
      exact hheld
    have hreach := hg.reached hspilled
    obtain ⟨b', w', hspill, h'⟩ := h.spill hs hhandles hg hreach
    rw [if_neg hfull, if_neg hheld, hspill]
    exact ⟨_, w', rfl, h'.ok,
      courses_files hs (hg.spill hhandles hreach).spilled_maySpill h'.ok h'.files⟩

end Sound

end RunGenerator

end ExternalSort
