/-
Nothing is lost when spills fail.

However many calls to the store fail and however often an item cannot be written,
what lies in the files of a generator and what it holds in memory are together
the items that its order has accepted (`RunGenerator.Conserves`).  A spill moves
items from the one to the other or does nothing.
-/
import ExternalSort.Proofs.Order.Screen
import ExternalSort.Proofs.Run.Spilling

namespace ExternalSort

variable {O α W : Type} [ItemOrder O α] [SpillStore W]

/-- Whichever of the first of some items it was shown, an order is a total
preorder on those of them that it accepts. -/
def ItemOrder.Ranks (o : O) (rank : α → α → Ordering) (items : List α) : Prop :=
  ∀ shown, shown <+: items →
    IsPreorderOn (compare (screen o shown).1) rank (· ∈ (screen o items).2)

/-- A run has some items, in memory or in its file. -/
def Run.Holds (files : Path → Option (List UInt8)) (decode : List UInt8 → Except Cause α) :
    Run α → List α → Prop
  | .memory as, items => as = items
  | .file f, items => f.Holds files decode items

namespace RunGenerator

/-- Offers items one after the other, whether or not some of them fail. -/
def offerAll (b : RunGenerator O α) (w : W) (items : List α) : RunGenerator O α × W :=
  items.foldl (fun s a => (s.1.add s.2 a).2) (b, w)

/-- What lies in the files of a generator, and what it holds, are the items it
has accepted; and every list in a file was sorted. -/
structure Conserves (V : Honest W) (codec : Codec α) (order : O) (items shown : List α)
    (b : RunGenerator O α) (w : W) (stored : List (List α)) : Prop where
  inFiles : Stored V codec b w stored
  order_eq : b.order = (ItemOrder.screen order shown).1
  conserved : (stored.flatten ++ b.buffer.toList).Perm (ItemOrder.screen order shown).2
  sorted : ∀ rank, ItemOrder.Ranks order rank items → ∀ l ∈ stored, NonDecreasing rank l

variable {V : Honest W} {codec : Codec α} {order : O} {items shown : List α}
  {b b' : RunGenerator O α} {w w' : W} {stored : List (List α)} {rank : α → α → Ordering}

theorem accepted_subset (h : shown <+: items) {a : α}
    (ha : a ∈ (ItemOrder.screen order shown).2) : a ∈ (ItemOrder.screen order items).2 := by
  obtain ⟨rest, rfl⟩ := h
  rw [ItemOrder.screen_append]
  exact List.mem_append_left _ ha

theorem Conserves.held_accepted (h : Conserves V codec order items shown b w stored)
    (hshown : shown <+: items) :
    ∀ a ∈ b.buffer.toList, a ∈ (ItemOrder.screen order items).2 := by
  intro a ha
  exact accepted_subset hshown (h.conserved.subset (List.mem_append_right _ ha))

theorem Conserves.roundTrips (h : Conserves V codec order items shown b w stored)
    (hshown : shown <+: items) (hcodec : codec.RoundTrips (· ∈ items)) :
    codec.RoundTrips (· ∈ b.buffer.toList) := by
  intro a ha
  exact hcodec a ((ItemOrder.screen_sublist order items).subset (h.held_accepted hshown a ha))

theorem Conserves.sort_held (h : Conserves V codec order items shown b w stored)
    (hshown : shown <+: items) (hrank : ItemOrder.Ranks order rank items) {sorted : List α}
    (hsort : sortWith (ItemOrder.compare b.order) b.buffer.toList = .ok sorted) :
    NonDecreasing rank sorted := by
  rw [h.order_eq] at hsort
  exact sortWith_nonDecreasing (hrank shown hshown) (h.held_accepted hshown) hsort

/-! ## Spilling and adding -/

/-- A spill that is done moves everything from memory into a file. -/
theorem Conserves.spill_ok (h : Conserves V codec order items shown b w stored)
    (hshown : shown <+: items) (hcodec : codec.RoundTrips (· ∈ items))
    (hs : b.spill w = (.ok (), b', w')) :
    ∃ stored', Conserves V codec order items shown b' w' stored' ∧ b'.buffer = #[] := by
  obtain ⟨sorted, f, nextSeq, hsort, rfl, hstored⟩ :=
    h.inFiles.spill_ok (h.roundTrips hshown hcodec) hs
  refine ⟨stored ++ [sorted],
    { inFiles := hstored
      order_eq := h.order_eq
      conserved := ?_
      sorted := ?_ }, rfl⟩
  · have hperm := (sortWith_perm hsort).append_left stored.flatten
    simpa using hperm.trans h.conserved
  · intro rank hrank l hl
    rcases List.mem_append.mp hl with hl | hl
    · exact h.sorted rank hrank l hl
    · rw [List.mem_singleton.mp hl]
      exact h.sort_held hshown hrank hsort

/-- A spill, done or not, loses nothing. -/
theorem Conserves.spill (h : Conserves V codec order items shown b w stored)
    (hshown : shown <+: items) (hcodec : codec.RoundTrips (· ∈ items)) (hremoves : V.Removes) :
    ∃ stored', Conserves V codec order items shown (b.spill w).2.1 (b.spill w).2.2 stored' := by
  cases hs : b.spill w with
  | mk r s =>
      obtain ⟨b', w'⟩ := s
      cases r with
      | error e =>
          obtain ⟨buffer, nextSeq, rfl, hperm, -, hstored⟩ := h.inFiles.spill_error hremoves hs
          exact ⟨stored,
            { inFiles := hstored
              order_eq := h.order_eq
              conserved := (hperm.append_left stored.flatten).trans h.conserved
              sorted := h.sorted }⟩
      | ok u =>
          obtain ⟨stored', h', -⟩ := h.spill_ok hshown hcodec hs
          exact ⟨stored', h'⟩

theorem Conserves.hold (h : Conserves V codec order items shown b w stored) {a : α} {o : O}
    (ha : ItemOrder.accept b.order a = .ok o) :
    Conserves V codec order items (shown ++ [a]) (b.hold o a) w stored := by
  rw [h.order_eq] at ha
  have hscreen := ItemOrder.screen_accepted ha
  exact
    { inFiles := h.inFiles.mono h.inFiles.ok rfl rfl (Nat.le_refl _) fun _ _ => rfl
      order_eq := by rw [hscreen]; rfl
      conserved := by
        rw [hscreen]
        have := h.conserved.append_right [a]
        rw [List.append_assoc] at this
        simpa [RunGenerator.hold] using this
      sorted := h.sorted }

theorem Conserves.add (h : Conserves V codec order items shown b w stored) {a : α}
    (hshown : shown ++ [a] <+: items) (hcodec : codec.RoundTrips (· ∈ items))
    (hremoves : V.Removes) :
    ∃ stored', Conserves V codec order items (shown ++ [a]) (b.add w a).2.1 (b.add w a).2.2
      stored' := by
  cases ha : ItemOrder.accept b.order a with
  | error e =>
      rw [add_refused ha]
      rw [h.order_eq] at ha
      have hscreen := ItemOrder.screen_refused ha
      exact ⟨stored,
        { inFiles := h.inFiles
          order_eq := by rw [hscreen, h.order_eq]
          conserved := by rw [hscreen]; exact h.conserved
          sorted := h.sorted }⟩
  | ok o =>
      rw [add_accepted ha]
      split
      · exact (h.hold ha).spill hshown hcodec hremoves
      · exact ⟨stored, h.hold ha⟩

theorem Conserves.offerAll (h : Conserves V codec order items shown b w stored) {rest : List α}
    (hshown : shown ++ rest <+: items) (hcodec : codec.RoundTrips (· ∈ items))
    (hremoves : V.Removes) :
    ∃ stored', Conserves V codec order items (shown ++ rest) (b.offerAll w rest).1
      (b.offerAll w rest).2 stored' := by
  induction rest generalizing shown b w stored with
  | nil => exact ⟨stored, by simpa [RunGenerator.offerAll] using h⟩
  | cons a rest ih =>
      rw [← List.singleton_append, ← List.append_assoc] at hshown ⊢
      obtain ⟨stored₁, h₁⟩ := h.add ((List.prefix_append _ rest).trans hshown) hcodec hremoves
      exact ih h₁ hshown

theorem Conserves.fresh (hw : V.ok w) (settings : Settings) (codec : Codec α) (order : O)
    (tag : UInt32) (items : List α) :
    Conserves V codec order items [] { settings, codec, order, tag } w [] where
  inFiles := .fresh hw settings codec order tag
  order_eq := rfl
  conserved := .refl _
  sorted _ _ _ h := absurd h List.not_mem_nil

theorem Conserves.add_ok (h : Conserves V codec order items shown b w stored) {a : α}
    (hshown : shown ++ [a] <+: items) (hcodec : codec.RoundTrips (· ∈ items))
    (hadd : b.add w a = (.ok (), b', w')) :
    (∃ stored', Conserves V codec order items (shown ++ [a]) b' w' stored') ∧
      (ItemOrder.screen order (shown ++ [a])).2 = (ItemOrder.screen order shown).2 ++ [a] := by
  cases ha : ItemOrder.accept b.order a with
  | error e => exact absurd (hadd.symm.trans (add_refused ha w)) (by simp)
  | ok o =>
      have hheld := h.hold ha
      rw [add_accepted ha] at hadd
      rw [h.order_eq] at ha
      refine ⟨?_, congrArg Prod.snd (ItemOrder.screen_accepted ha)⟩
      split at hadd
      · obtain ⟨stored', h', -⟩ := hheld.spill_ok hshown hcodec hadd
        exact ⟨stored', h'⟩
      · obtain ⟨rfl, rfl⟩ := Prod.mk.inj (Prod.mk.inj hadd).2
        exact ⟨stored, hheld⟩

/-- Items that are all taken in were all accepted, whatever may fail. -/
theorem Conserves.addAll (h : Conserves V codec order items shown b w stored) {rest : List α}
    (hshown : shown ++ rest <+: items) (hcodec : codec.RoundTrips (· ∈ items))
    (hadd : b.addAll w rest = (.ok (), b', w')) :
    (∃ stored', Conserves V codec order items (shown ++ rest) b' w' stored') ∧
      (ItemOrder.screen order (shown ++ rest)).2 = (ItemOrder.screen order shown).2 ++ rest := by
  induction rest generalizing shown b w stored with
  | nil =>
      obtain ⟨rfl, rfl⟩ := Prod.mk.inj (Prod.mk.inj hadd).2
      rw [List.append_nil, List.append_nil]
      exact ⟨⟨stored, h⟩, rfl⟩
  | cons a rest ih =>
      rw [RunGenerator.addAll] at hadd
      split at hadd
      · exact absurd (Prod.mk.inj hadd).1 (by simp)
      next b₁ w₁ ha =>
      rw [← List.singleton_append, ← List.append_assoc] at hshown ⊢
      obtain ⟨⟨stored₁, h₁⟩, hacc⟩ := h.add_ok ((List.prefix_append _ rest).trans hshown) hcodec ha
      obtain ⟨h', hall⟩ := ih h₁ hshown hadd
      exact ⟨h', by rw [hall, hacc, List.append_assoc]⟩

/-- If the spill for an item that was accepted fails, the item is held with all
others, no file has changed, and the next item brings the next spill. -/
theorem Stored.add_error (h : Stored V codec b w stored) (hremoves : V.Removes) {a : α} {o : O}
    {e : Failure} (ha : ItemOrder.accept b.order a = .ok o)
    (hadd : b.add w a = (.error e, b', w')) :
    b'.files = b.files ∧ V.files w' = V.files w ∧ b'.buffer.toList.Perm (b.buffer.toList ++ [a]) ∧
      b'.heldSize = satAdd b.heldSize (codec.size a) ∧
      ∀ c o', ItemOrder.accept b'.order c = .ok o' → b'.add w' c = (b'.hold o' c).spill w' := by
  rw [add_accepted ha] at hadd
  split at hadd
  · next hfull =>
    have hheld : Stored V codec (b.hold o a) w stored :=
      h.mono h.ok rfl rfl (Nat.le_refl _) fun _ _ => rfl
    obtain ⟨buffer, nextSeq, rfl, hperm, hfiles, -⟩ := hheld.spill_error hremoves hadd
    refine ⟨rfl, hfiles, ?_, ?_, ?_⟩
    · simpa [RunGenerator.hold] using hperm
    · rw [← h.codec_eq]
      rfl
    · intro c o' hc
      rw [add_accepted hc, if_pos]
      -- The size of what is held only grows, and the threshold is within its bound.
      refine Nat.le_min.mpr ⟨Nat.le_trans hfull (Nat.le_add_right _ _), ?_⟩
      exact Nat.le_trans hfull (satAdd_le _ _)
  · exact absurd (Prod.mk.inj hadd).1 (by simp)

/-! ## Handing the runs over -/

theorem Conserves.fileRuns (h : Conserves V codec order items shown b w stored)
    (hempty : b.buffer = #[]) :
    List.Forall₂ (Run.Holds (V.files w) codec.decode) b.fileRuns stored ∧
      stored.flatten.Perm (ItemOrder.screen order shown).2 := by
  refine ⟨List.forall₂_map_left_iff.mpr h.inFiles.holds, ?_⟩
  have hperm := h.conserved
  rw [hempty] at hperm
  simpa using hperm

/-- Runs that are handed over have all that was accepted. -/
theorem Conserves.close (h : Conserves V codec order items items b w stored)
    (hcodec : codec.RoundTrips (· ∈ items)) {runs : List (Run α)}
    (hclose : b.close w = (.ok runs, w')) :
    ∃ lists, List.Forall₂ (Run.Holds (V.files w') codec.decode) runs lists ∧
      lists.flatten.Perm (ItemOrder.screen order items).2 ∧
      ∀ rank, ItemOrder.Ranks order rank items → ∀ l ∈ lists, NonDecreasing rank l := by
  have hall : items <+: items := List.prefix_refl items
  rw [RunGenerator.close] at hclose
  split at hclose
  · next hnone =>
    split at hclose
    · exact absurd (Prod.mk.inj hclose).1 (by simp)
    next sorted hsort =>
    obtain ⟨hruns, rfl⟩ := Prod.mk.inj hclose
    obtain rfl := Except.ok.inj hruns
    have hnothing : stored = [] := by
      have hfiles := h.inFiles.holds
      rw [List.isEmpty_iff.mp hnone] at hfiles
      exact List.forall₂_nil_left_iff.mp hfiles
    have hperm := h.conserved
    rw [hnothing] at hperm
    refine ⟨[sorted], .cons rfl .nil, ?_, ?_⟩
    · simpa using (sortWith_perm hsort).trans hperm
    · intro rank hrank l hl
      rw [List.mem_singleton.mp hl]
      exact h.sort_held hall hrank hsort
  split at hclose
  · next hempty =>
    obtain ⟨hruns, rfl⟩ := Prod.mk.inj hclose
    obtain rfl := Except.ok.inj hruns
    obtain ⟨hholds, hperm⟩ := h.fileRuns (Array.isEmpty_iff.mp hempty)
    exact ⟨stored, hholds, hperm, h.sorted⟩
  · split at hclose
    · exact absurd (Prod.mk.inj hclose).1 (by simp)
    next b₁ w₁ hs =>
    obtain ⟨hruns, rfl⟩ := Prod.mk.inj hclose
    obtain rfl := Except.ok.inj hruns
    obtain ⟨stored', h', hempty⟩ := h.spill_ok hall hcodec hs
    obtain ⟨hholds, hperm⟩ := h'.fileRuns hempty
    exact ⟨stored', hholds, hperm, h'.sorted⟩

theorem Conserves.ok_close (h : Conserves V codec order items items b w stored)
    (hcodec : codec.RoundTrips (· ∈ items)) {runs : List (Run α)}
    (hclose : b.close w = (.ok runs, w')) : V.ok w' := by
  rw [RunGenerator.close] at hclose
  split at hclose
  · split at hclose
    · exact absurd (Prod.mk.inj hclose).1 (by simp)
    · exact (Prod.mk.inj hclose).2 ▸ h.inFiles.ok
  split at hclose
  · exact (Prod.mk.inj hclose).2 ▸ h.inFiles.ok
  · split at hclose
    · exact absurd (Prod.mk.inj hclose).1 (by simp)
    next b₁ w₁ hs =>
    obtain ⟨stored', h', -⟩ := h.spill_ok (List.prefix_refl items) hcodec hs
    exact (Prod.mk.inj hclose).2 ▸ h'.inFiles.ok

/-! ## All ways of failing -/

/-- Whatever items are offered to a generator, and whichever calls to its store
fail but removals:

- its files and what it holds are together the items that were accepted;
- an item that is refused leaves no trace;
- if an item is accepted but the spill fails, there are the files that there were,
  the item is held with all others, and their size is that of all of them; and
  with the next item that is accepted the spill is tried again;
- runs that are handed over have all items that were accepted, each of them sorted
  if the order is one. -/
theorem spills_lose_nothing (V : Honest W) (hremoves : V.Removes) (settings : Settings)
    (codec : Codec α) (order : O) (tag : UInt32) {items : List α}
    (hcodec : codec.RoundTrips (· ∈ items)) {w₀ : W} (hw : V.ok w₀) :
    let start : RunGenerator O α := { settings, codec, order, tag }
    let b := (start.offerAll w₀ items).1
    let w := (start.offerAll w₀ items).2
    (∃ stored, List.Forall₂ (fun f l => f.Holds (V.files w) codec.decode l) b.files stored ∧
      (stored.flatten ++ b.buffer.toList).Perm (ItemOrder.screen order items).2) ∧
    (∀ a e, ItemOrder.accept b.order a = .error e → b.add w a = (.error (.ofCompare e), b, w)) ∧
    (∀ a o e b₁ w₁, ItemOrder.accept b.order a = .ok o → b.add w a = (.error e, b₁, w₁) →
      b₁.files = b.files ∧ V.files w₁ = V.files w ∧
        b₁.buffer.toList.Perm (b.buffer.toList ++ [a]) ∧
        b₁.heldSize = satAdd b.heldSize (codec.size a) ∧
        ∀ c o', ItemOrder.accept b₁.order c = .ok o' → b₁.add w₁ c = (b₁.hold o' c).spill w₁) ∧
    ∀ runs w₁, b.close w = (.ok runs, w₁) →
      ∃ lists, List.Forall₂ (Run.Holds (V.files w₁) codec.decode) runs lists ∧
        lists.flatten.Perm (ItemOrder.screen order items).2 ∧
        ∀ rank, ItemOrder.Ranks order rank items → ∀ l ∈ lists, NonDecreasing rank l := by
  intro start b w
  have hstart : Conserves V codec order items [] start w₀ [] :=
    { inFiles := .fresh hw settings codec order tag
      order_eq := rfl
      conserved := .refl _
      sorted := fun _ _ _ h => absurd h List.not_mem_nil }
  obtain ⟨stored, h⟩ := hstart.offerAll (List.prefix_refl items) hcodec hremoves
  have h : Conserves V codec order items items b w stored := h
  refine ⟨⟨stored, h.inFiles.holds, h.conserved⟩, fun a e ha => add_refused ha w, ?_, ?_⟩
  · intro a o e b₁ w₁ ha hadd
    exact h.inFiles.add_error hremoves ha hadd
  · intro runs w₁ hclose
    exact h.close hcodec hclose

/-- The first spill fails since no file can be created, the second one at the end of
its writing, and the third one has all items. -/
theorem third_spill_has_all :
    let codec : Codec UInt8 :=
      { encode := fun b => .ok [b]
        decode := fun bs => bs.head?.elim (.error (.text "empty")) .ok
        size := fun _ => 1 }
    let w₀ : PlannedStore :=
      { plan :=
          { createFault := fun n => if n = 0 then some ⟨.permissionDenied, "denied"⟩ else none
            sinkPlan := fun n => if n = 1 then { flush := fun _ => .error SinkPlan.full } else {} } }
    let settings : Settings := { Settings.standard ⟨"runs"⟩ with threshold := 2 }
    let order := PlainOrder.natural UInt8
    PlannedStore.honest.Removes ∧ PlannedStore.honest.ok w₀ ∧
      codec.RoundTrips (· ∈ [3, 1, 2, 4]) ∧
      ∃ b w f l, offerAll { settings, codec, order, tag := 7 } w₀ [3, 1, 2, 4] = (b, w) ∧
        b.files = [f] ∧ f.Holds (PlannedStore.honest.files w) codec.decode l ∧
        l.Perm [3, 1, 2, 4] := by
  intro codec w₀ settings order
  have hcodec : codec.RoundTrips (· ∈ [3, 1, 2, 4]) := by
    intro a _ payload he
    obtain rfl := Except.ok.inj he
    rfl
  have hw : PlannedStore.honest.ok w₀ := fun _ => rfl
  refine ⟨PlannedStore.honest_removes, hw, hcodec, ?_⟩
  have hall := (spills_lose_nothing PlannedStore.honest PlannedStore.honest_removes settings codec
    order 7 hcodec hw).1
  have hone : (offerAll { settings, codec, order, tag := 7 } w₀ [3, 1, 2, 4]).1.files.length = 1 := by
    decide +kernel
  have hnone : (offerAll { settings, codec, order, tag := 7 } w₀ [3, 1, 2, 4]).1.buffer.toList = [] := by
    decide +kernel
  generalize offerAll { settings, codec, order, tag := 7 } w₀ [3, 1, 2, 4] = r at hall hone hnone
  obtain ⟨b, w⟩ := r
  obtain ⟨stored, hholds, hperm⟩ := hall
  have hscreen : (ItemOrder.screen order [3, 1, 2, 4]).2 = [3, 1, 2, 4] := rfl
  rw [hnone, hscreen] at hperm
  obtain ⟨f, hf⟩ := List.length_eq_one_iff.mp hone
  rw [hf] at hholds
  obtain ⟨l, _, hl, hnil, rfl⟩ := List.forall₂_cons_left_iff.mp hholds
  obtain rfl := List.forall₂_nil_left_iff.mp hnil
  exact ⟨b, w, f, l, rfl, hf, hl, by simpa using hperm⟩

end RunGenerator

end ExternalSort
