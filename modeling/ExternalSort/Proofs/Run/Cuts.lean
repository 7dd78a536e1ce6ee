/-
Where a generator cuts its input.

The input is cut behind each item with which the sizes since the last cut add up
to the threshold.  `GreedyCut` says this of the pieces alone, and of any items
there is just one such cut (`GreedyCut.unique`).  Over a store that does not fail a
generator makes this cut: each piece becomes a file, and so does what is left
over, unless there was no cut at all.
-/
import ExternalSort.Proofs.Run.Conservation
import ExternalSort.Proofs.Run.Generator

namespace ExternalSort

variable {O α W : Type} [ItemOrder O α] [SpillStore W]

/-- Items are cut into segments, each of which reaches the threshold with its last
item and not before, and a rest that does not reach it. -/
structure GreedyCut (threshold : Nat) (size : α → Nat) (items : List α) (segs : List (List α))
    (rest : List α) : Prop where
  whole : segs.flatten ++ rest = items
  reaches : ∀ seg ∈ segs, threshold ≤ satTotal size seg
  notBefore : ∀ seg ∈ segs, ∀ part, part <+: seg → part ≠ seg → satTotal size part < threshold
  under : ∀ part, part <+: rest → satTotal size part < threshold

namespace GreedyCut

variable {threshold : Nat} {size : α → Nat} {items seg rest rest' : List α}
  {segs segs' : List (List α)} {a : α}

theorem nil (hpos : 0 < threshold) : GreedyCut threshold size [] [] [] where
  whole := rfl
  reaches _ h := absurd h List.not_mem_nil
  notBefore _ h := absurd h List.not_mem_nil
  under part h := by
    rw [List.prefix_nil.mp h]
    exact hpos

theorem pos (h : GreedyCut threshold size items segs rest) : 0 < threshold :=
  h.under [] List.nil_prefix

theorem goOn (h : GreedyCut threshold size items segs rest)
    (hlt : satTotal size (rest ++ [a]) < threshold) :
    GreedyCut threshold size (items ++ [a]) segs (rest ++ [a]) where
  whole := by rw [← List.append_assoc, h.whole]
  reaches := h.reaches
  notBefore := h.notBefore
  under part hpart := by
    rcases List.prefix_concat_iff.mp hpart with rfl | hpart
    · exact hlt
    · exact h.under part hpart

theorem cut (h : GreedyCut threshold size items segs rest)
    (hle : threshold ≤ satTotal size (rest ++ [a])) :
    GreedyCut threshold size (items ++ [a]) (segs ++ [rest ++ [a]]) [] where
  whole := by simp [← h.whole]
  reaches seg hseg := by
    rcases List.mem_append.mp hseg with hseg | hseg
    · exact h.reaches seg hseg
    · rwa [List.mem_singleton.mp hseg]
  notBefore seg hseg part hpart hne := by
    rcases List.mem_append.mp hseg with hseg | hseg
    · exact h.notBefore seg hseg part hpart hne
    · rw [List.mem_singleton.mp hseg] at hpart hne
      exact h.under part ((List.prefix_concat_iff.mp hpart).resolve_left hne)
  under part hpart := by
    rw [List.prefix_nil.mp hpart]
    exact h.pos

theorem tail (h : GreedyCut threshold size items (seg :: segs) rest) :
    GreedyCut threshold size (segs.flatten ++ rest) segs rest where
  whole := rfl
  reaches seg hseg := h.reaches seg (List.mem_cons_of_mem _ hseg)
  notBefore seg hseg := h.notBefore seg (List.mem_cons_of_mem _ hseg)
  under := h.under

theorem first_prefix (h : GreedyCut threshold size items (seg :: segs) rest) : seg <+: items := by
  rw [← h.whole, List.flatten_cons, List.append_assoc]
  exact List.prefix_append ..

theorem eq_cons (h : GreedyCut threshold size items segs rest) (hseg : seg <+: items)
    (hreaches : threshold ≤ satTotal size seg)
    (hnot : ∀ part, part <+: seg → part ≠ seg → satTotal size part < threshold) :
    ∃ segs', segs = seg :: segs' := by
  cases segs with
  | nil =>
      obtain rfl : rest = items := h.whole
      exact absurd (h.under seg hseg) (by omega)
  | cons first segs =>
      have hfull := h.reaches first List.mem_cons_self
      by_cases heq : seg = first
      · exact ⟨segs, by rw [heq]⟩
      -- Both are the beginning of the items, so one would be a proper part of the other;
      -- but it reaches the threshold.
      rcases List.prefix_or_prefix_of_prefix hseg h.first_prefix with hpart | hpart
      · exact absurd (h.notBefore first List.mem_cons_self seg hpart heq) (by omega)
      · exact absurd (hnot first hpart (Ne.symm heq)) (by omega)

/-- There is only one way to cut. -/
theorem unique (h : GreedyCut threshold size items segs rest)
    (h' : GreedyCut threshold size items segs' rest') : segs' = segs ∧ rest' = rest := by
  induction segs generalizing items segs' with
  | nil =>
      cases segs' with
      | nil => exact ⟨rfl, h'.whole.trans h.whole.symm⟩
      | cons seg' segs' =>
          obtain ⟨_, hcons⟩ := h.eq_cons h'.first_prefix (h'.reaches seg' List.mem_cons_self)
            (h'.notBefore seg' List.mem_cons_self)
          exact absurd hcons (by simp)
  | cons seg segs ih =>
      obtain ⟨segs₁, rfl⟩ := h'.eq_cons h.first_prefix (h.reaches seg List.mem_cons_self)
        (h.notBefore seg List.mem_cons_self)
      have htails : segs₁.flatten ++ rest' = segs.flatten ++ rest := by
        have hwhole := h'.whole.trans h.whole.symm
        simpa using hwhole
      have htail := h'.tail
      rw [htails] at htail
      obtain ⟨rfl, rfl⟩ := ih h.tail htail
      exact ⟨rfl, rfl⟩

end GreedyCut

/-! ## The lists that follow a generator -/

namespace Batches

variable {order : O} {rank : α → α → Ordering} {items taken : List α} {t : Batches O α}
  {threshold : Nat} {size : α → Nat} {segs : List (List α)}

/-- The runs are the segments of a greedy cut, sorted, and the rest is held. -/
structure Cuts (threshold : Nat) (size : α → Nat) (rank : α → α → Ordering) (taken : List α)
    (t : Batches O α) (segs : List (List α)) : Prop where
  cut : GreedyCut threshold size taken segs t.held
  runs : List.Forall₂ (fun l seg => l.Perm seg ∧ NonDecreasing rank l) t.spilled segs

theorem Cuts.add (h : t.Cuts threshold size rank taken segs)
    (hfits : ItemOrder.Fits order rank items) (hg : t.Good threshold size order items taken)
    {a : α} (ha : taken ++ [a] <+: items) :
    ∃ segs', (t.add threshold size a).Cuts threshold size rank (taken ++ [a]) segs' := by
  obtain ⟨o, hacc, hnoted⟩ := hg.accept hfits.handles ha
  have hheld := hg.hold ha hnoted
  have htotal : (t.hold size o a).size = satTotal size (t.held ++ [a]) := hheld.size_eq
  rw [add_accepted hacc]
  split
  · next hfull =>
    obtain ⟨-, hperm, hsorted⟩ := hheld.sort_held hfits.handles
    exact ⟨segs ++ [t.held ++ [a]],
      { cut := h.cut.cut (htotal ▸ hfull)
        runs := List.rel_append h.runs (.cons ⟨hperm, hsorted rank hfits⟩ .nil) }⟩
  · next hless =>
    exact ⟨segs,
      { cut := h.cut.goOn (by omega)
        runs := h.runs }⟩

end Batches

/-! ## The generator -/

namespace RunGenerator

variable {R : Reliable W} {settings : Settings} {codec : Codec α} {order : O}
  {rank : α → α → Ordering} {items taken : List α} {t : Batches O α} {b : RunGenerator O α}
  {w w₀ : W} {segs : List (List α)}

/-- A generator has cut what it has taken in, and has not touched the store if there
was nothing to cut off. -/
structure Follows (R : Reliable W) (settings : Settings) (codec : Codec α) (order : O)
    (rank : α → α → Ordering) (items taken : List α) (w₀ : W) (t : Batches O α)
    (b : RunGenerator O α) (w : W) (segs : List (List α)) : Prop where
  mirrors : Mirrors R settings codec t b w
  good : t.Good settings.threshold codec.size order items taken
  cuts : t.Cuts settings.threshold codec.size rank taken segs
  inFiles : Stored R.honest codec b w t.spilled
  untouched : t.spilled = [] → w = w₀

theorem Follows.fresh (hpos : 0 < settings.threshold) (hw : R.ok w) {tag : UInt32}
    (hroom : R.HasRoom settings tag 1 w) :
    Follows R settings codec order rank items [] w { order } { settings, codec, order, tag } w
      [] where
  mirrors := .fresh hw hroom
  good := Batches.good_nil settings.threshold codec.size order items
  cuts := { cut := .nil hpos, runs := .nil }
  inFiles := .fresh hw settings codec order tag
  untouched _ := rfl

theorem Mirrors.stored_spill (h : Mirrors R settings codec t b w)
    (hst : Stored R.honest codec b w t.spilled) (hcodec : codec.RoundTrips (· ∈ t.held))
    {b' : RunGenerator O α} {w' : W} (hs : b.spill w = (.ok (), b', w')) :
    Stored R.honest codec b' w' t.spill.spilled := by
  have hheld : codec.RoundTrips (· ∈ b.buffer.toList) := by
    rw [h.held]
    exact hcodec
  obtain ⟨sorted, f, nextSeq, hsort, -, hst'⟩ := hst.spill_ok hheld hs
  rw [h.order, h.held] at hsort
  have hsorted : ItemOrder.sort t.order t.held = sorted := by
    rw [ItemOrder.sort, hsort]
    rfl
  rw [← hsorted] at hst'
  exact hst'

/-- One more item is taken in, and cut behind if it reaches the threshold. -/
theorem Follows.add (h : Follows R settings codec order rank items taken w₀ t b w segs)
    (hcodec : codec.Sound (· ∈ items)) (hfits : ItemOrder.Fits order rank items) {a : α}
    (ha : taken ++ [a] <+: items) :
    ∃ b' w' segs', b.add w a = (.ok (), b', w') ∧
      Follows R settings codec order rank items (taken ++ [a]) w₀
        (t.add settings.threshold codec.size a) b' w' segs' := by
  obtain ⟨b', w', hadd, hmir⟩ := h.mirrors.add (fun a ha => hcodec a ha.1) hfits.handles h.good ha
  obtain ⟨segs', hcuts⟩ := h.cuts.add hfits h.good ha
  have hgood := h.good.add hfits.handles ha
  suffices hfiles : Stored R.honest codec b' w' (t.add settings.threshold codec.size a).spilled ∧
      ((t.add settings.threshold codec.size a).spilled = [] → w' = w₀) from
    ⟨b', w', segs', hadd, hmir, hgood, hcuts, hfiles.1, hfiles.2⟩
  obtain ⟨o, hacc, hnoted⟩ := h.good.accept hfits.handles ha
  have hheld := h.mirrors.hold o a
  have hst : Stored R.honest codec (b.hold o a) w (t.hold codec.size o a).spilled :=
    h.inFiles.mono h.inFiles.ok rfl rfl (Nat.le_refl _) fun _ _ => rfl
  rw [add_accepted (h.mirrors.order ▸ hacc), h.mirrors.settings_eq, hheld.size] at hadd
  rw [Batches.add_accepted hacc]
  split at hadd
  · next hfull =>
    have hin : ∀ c ∈ (t.hold codec.size o a).held, c ∈ items := fun c =>
      (h.good.hold ha hnoted).held_subset
    rw [if_pos hfull]
    refine ⟨hheld.stored_spill hst (fun c hc => hcodec.roundTrips c (hin c hc)) hadd, ?_⟩
    intro hnone
    exact absurd hnone (by simp [Batches.spill])
  · next hless =>
    obtain ⟨-, hsame⟩ := Prod.mk.inj hadd
    obtain ⟨rfl, rfl⟩ := Prod.mk.inj hsame
    rw [if_neg hless]
    exact ⟨hst, h.untouched⟩

theorem Follows.addAll (h : Follows R settings codec order rank items taken w₀ t b w segs)
    (hcodec : codec.Sound (· ∈ items)) (hfits : ItemOrder.Fits order rank items) {as : List α}
    (ha : taken ++ as <+: items) :
    ∃ b' w' t' segs', b.addAll w as = (.ok (), b', w') ∧
      Follows R settings codec order rank items (taken ++ as) w₀ t' b' w' segs' := by
  induction as generalizing taken t b w segs with
  | nil => exact ⟨b, w, t, segs, rfl, by rwa [List.append_nil]⟩
  | cons a as ih =>
      rw [List.append_cons] at ha ⊢
      obtain ⟨b₁, w₁, segs₁, hadd, h₁⟩ := h.add hcodec hfits ((List.prefix_append _ as).trans ha)
      obtain ⟨b', w', t', segs', hall, h'⟩ := ih h₁ ha
      refine ⟨b', w', t', segs', ?_, h'⟩
      rw [RunGenerator.addAll, hadd]
      exact hall

/-! ## Handing the runs over -/

omit [ItemOrder O α] [SpillStore W] in
theorem holds_segments {files : Path → Option (List UInt8)} {decode : List UInt8 → Except Cause α}
    {fs : List SpillFile} {lists : List (List α)}
    (h : List.Forall₂ (fun f l => f.Holds files decode l) fs lists)
    (k : List.Forall₂ (fun l seg => l.Perm seg ∧ NonDecreasing rank l) lists segs) :
    List.Forall₂ (fun f seg => f.items = seg.length ∧
      ∃ l, f.Holds files decode l ∧ l.Perm seg ∧ NonDecreasing rank l) fs segs := by
  induction h generalizing segs with
  | nil =>
      obtain rfl := List.forall₂_nil_left_iff.mp k
      exact .nil
  | @cons f l fs lists hl _ ih =>
      obtain ⟨seg, segs', ⟨hperm, hsorted⟩, k', rfl⟩ := List.forall₂_cons_left_iff.mp k
      exact .cons ⟨hl.items_eq.trans hperm.length_eq, l, hl, hperm, hsorted⟩ (ih k')

theorem Follows.close_uncut (h : Follows R settings codec order rank items items w₀ t b w [])
    (hfits : ItemOrder.Fits order rank items) :
    ∃ sorted, b.close w = (.ok [.memory sorted], w₀) ∧ sorted.Perm items ∧
      NonDecreasing rank sorted := by
  have hspilled : t.spilled = [] := List.forall₂_nil_right_iff.mp h.cuts.runs
  have hfiles : b.files = [] := by
    have hholds := h.inFiles.holds
    rw [hspilled] at hholds
    exact List.forall₂_nil_right_iff.mp hholds
  obtain ⟨hsort, hperm, hsorted⟩ := h.good.sort_held hfits.handles
  have hall : t.held = items := h.cuts.cut.whole
  refine ⟨ItemOrder.sort t.order t.held, ?_, hall ▸ hperm, hsorted rank hfits⟩
  rw [RunGenerator.close, hfiles]
  simp only [List.isEmpty_nil, if_true]
  rw [h.mirrors.order, h.mirrors.held, hsort, h.untouched hspilled]

/-- If something was cut off, there is a file for each segment, and one for the rest
if there is a rest. -/
theorem Follows.close_cut (h : Follows R settings codec order rank items items w₀ t b w segs)
    (hcodec : codec.Sound (· ∈ items)) (hfits : ItemOrder.Fits order rank items)
    (hcut : segs ≠ []) :
    ∃ files w', b.close w = (.ok (files.map .file), w') ∧
      files.Pairwise (fun f g => f.seq < g.seq) ∧
      List.Forall₂ (fun f seg => f.items = seg.length ∧
        ∃ l, f.Holds (R.files w') codec.decode l ∧ l.Perm seg ∧ NonDecreasing rank l)
        files (if t.held.isEmpty then segs else segs ++ [t.held]) := by
  have hsome : ¬b.files.isEmpty = true := by
    intro hnone
    have hlen := h.inFiles.holds.length_eq.trans h.cuts.runs.length_eq
    rw [List.isEmpty_iff.mp hnone] at hlen
    exact hcut (List.eq_nil_of_length_eq_zero hlen.symm)
  have hbuffer : b.buffer.isEmpty = t.held.isEmpty := by
    rw [← Array.isEmpty_toList, h.mirrors.held]
  rw [RunGenerator.close, if_neg hsome, hbuffer]
  split
  · exact ⟨b.files, w, rfl, h.inFiles.rising, holds_segments h.inFiles.holds h.cuts.runs⟩
  · have hreach : settings.threshold ≤ satTotal codec.size items :=
      h.good.reached fun hnone => hcut (List.forall₂_nil_left_iff.mp (hnone ▸ h.cuts.runs))
    obtain ⟨b', w', hs, -⟩ :=
      h.mirrors.spill (fun a ha => hcodec a ha.1) hfits.handles h.good hreach
    have hst := h.mirrors.stored_spill h.inFiles
      (fun c hc => hcodec.roundTrips c (h.good.held_subset hc)) hs
    obtain ⟨-, hperm, hsorted⟩ := h.good.sort_held hfits.handles
    rw [hs]
    refine ⟨b'.files, w', rfl, hst.rising, holds_segments hst.holds ?_⟩
    exact List.rel_append h.cuts.runs (.cons ⟨hperm, hsorted rank hfits⟩ .nil)

/-! ## All inputs -/

/-- Over a store that does not fail, a generator takes in all items, and what it
holds between them is less than the threshold.  The items have just one greedy cut.
If that has no segments, one sorted run in memory is handed over, and the store was
never touched.  Otherwise there is one file for each segment and one for the rest, if
there is a rest, in order and with rising numbers; each of them holds what it was
written from, sorted, and tells how many items and bytes it has. -/
theorem close_hands_over_greedy_cut (R : Reliable W) {settings : Settings} {codec : Codec α}
    {order : O} {rank : α → α → Ordering} {tag : UInt32} {items : List α} {w : W}
    (hpos : 0 < settings.threshold) (hstore : R.ok w) (hroom : R.HasRoom settings tag 1 w)
    (hcodec : codec.Sound (· ∈ items)) (horder : ItemOrder.Fits order rank items) :
    let start : RunGenerator O α := { settings, codec, order, tag }
    (∀ taken, taken <+: items → ∃ b w₁, start.addAll w taken = (.ok (), b, w₁) ∧
      b.heldSize = satTotal codec.size b.buffer.toList ∧ b.heldSize < settings.threshold) ∧
    ∃ segs rest, (∀ segs' rest', GreedyCut settings.threshold codec.size items segs' rest' ↔
        segs' = segs ∧ rest' = rest) ∧
      ∃ b w₁ runs w₂, start.addAll w items = (.ok (), b, w₁) ∧ b.close w₁ = (.ok runs, w₂) ∧
        (segs = [] → w₂ = w ∧ ∃ sorted, runs = [.memory sorted] ∧ sorted.Perm items ∧
          NonDecreasing rank sorted) ∧
        (segs ≠ [] → ∃ files, runs = files.map .file ∧
          files.Pairwise (fun f g => f.seq < g.seq) ∧
          List.Forall₂ (fun f seg => f.items = seg.length ∧
            ∃ l, f.Holds (R.files w₂) codec.decode l ∧ l.Perm seg ∧ NonDecreasing rank l)
            files (if rest.isEmpty then segs else segs ++ [rest])) := by
  intro start
  have hstart : Follows R settings codec order rank items [] w { order } start w [] :=
    .fresh hpos hstore hroom
  refine ⟨?_, ?_⟩
  · intro taken htaken
    rw [← List.nil_append taken] at htaken
    obtain ⟨b, w₁, t, segs, hadd, h⟩ := hstart.addAll hcodec horder htaken
    refine ⟨b, w₁, hadd, ?_, ?_⟩
    · rw [h.mirrors.size, h.mirrors.held, h.good.size_eq]
    · rw [h.mirrors.size, h.good.size_eq]
      exact h.cuts.cut.under t.held (List.prefix_refl _)
  · obtain ⟨b, w₁, t, segs, hadd, h⟩ := hstart.addAll hcodec horder (List.prefix_refl items)
    have h : Follows R settings codec order rank items items w t b w₁ segs := h
    refine ⟨segs, t.held, fun segs' rest' => ⟨h.cuts.cut.unique, ?_⟩, b, w₁, ?_⟩
    · rintro ⟨rfl, rfl⟩
      exact h.cuts.cut
    by_cases hcut : segs = []
    · subst hcut
      obtain ⟨sorted, hclose, hperm, hsorted⟩ := h.close_uncut horder
      exact ⟨_, w, hadd, hclose, fun _ => ⟨rfl, sorted, rfl, hperm, hsorted⟩,
        fun hne => absurd rfl hne⟩
    · obtain ⟨files, w₂, hclose, hrising, hholds⟩ := h.close_cut hcodec horder hcut
      exact ⟨_, w₂, hadd, hclose, fun hnone => absurd hnone hcut,
        fun _ => ⟨files, rfl, hrising, hholds⟩⟩

/-- Three items of size one are cut behind the second, which makes two files. -/
theorem two_files_of_three :
    let codec : Codec UInt8 :=
      { encode := fun b => .ok [b]
        decode := fun bs => bs.head?.elim (.error (.text "empty")) .ok
        size := fun _ => 1 }
    let w₀ : PlannedStore := {}
    let settings : Settings := { Settings.standard ⟨"runs"⟩ with threshold := 2 }
    let order := PlainOrder.natural UInt8
    PlannedStore.reliable.ok w₀ ∧ PlannedStore.reliable.HasRoom settings 7 1 w₀ ∧
      codec.Sound (· ∈ [3, 1, 2]) ∧ ItemOrder.Fits order compare [3, 1, 2] ∧
      ∃ b w₁ f g w₂, addAll { settings, codec, order, tag := 7 } w₀ [3, 1, 2] = (.ok (), b, w₁) ∧
        b.close w₁ = (.ok [.file f, .file g], w₂) ∧ f.seq < g.seq ∧ f.items = 2 ∧ g.items = 1 := by
  intro codec w₀ settings order
  have hw : PlannedStore.reliable.ok w₀ := StorePlan.faultless_default
  have hroom : PlannedStore.reliable.HasRoom settings 7 1 w₀ := fun n _ => ⟨0, by decide, rfl⟩
  have hcodec : codec.Sound (· ∈ [3, 1, 2]) := by
    intro a _
    have hlen : 1 ≤ Frame.maxPayload := by decide
    exact ⟨[a], rfl, hlen, rfl⟩
  have horder : ItemOrder.Fits order compare [3, 1, 2] := PlainOrder.natural_fits [3, 1, 2]
  refine ⟨hw, hroom, hcodec, horder, ?_⟩
  have hpos : 0 < settings.threshold := by decide
  obtain ⟨-, segs, rest, honly, b, w₁, runs, w₂, hadd, hclose, -, hfiles⟩ :=
    close_hands_over_greedy_cut PlannedStore.reliable hpos hw hroom hcodec horder
  -- the cut by hand, which is the only one
  have hcut : GreedyCut settings.threshold codec.size [3, 1, 2] [[3, 1]] [2] :=
    ((GreedyCut.nil hpos).goOn (a := 3) (by decide)).cut (a := 1) (by decide)
      |>.goOn (a := 2) (by decide)
  obtain ⟨rfl, rfl⟩ := (honly _ _).mp hcut
  obtain ⟨files, rfl, hrising, heach⟩ := hfiles (by simp)
  obtain ⟨f, _, ⟨hf, -⟩, hlast, rfl⟩ := List.forall₂_cons_right_iff.mp heach
  obtain ⟨g, _, ⟨hg, -⟩, hnil, rfl⟩ := List.forall₂_cons_right_iff.mp hlast
  obtain rfl := List.forall₂_nil_right_iff.mp hnil
  exact ⟨b, w₁, f, g, w₂, hadd, hclose, by simpa using hrising, hf, hg⟩

end RunGenerator

end ExternalSort
