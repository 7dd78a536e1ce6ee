/-
A table that was sorted is read again.

A sort that succeeds has written the header and a sorted permutation of the rows
that were read (`sort_ok`, `Sorter.sorted_of_gather`).  Their texts are lines, so
the same columns and as many rows are read of what was written
(`reads_tableText`).  By each key these rows stand as the sorted ones did, or they
have become equal where it told two zeros apart (`compareKey_reread`).  If only
the last key did that (`Legible`), the table is in order again
(`written_table_is_sorted`).

Numbers from `2 ^ 53` on are written with zeros for the digits that are not
needed to tell them from each other.  Among integers that is another number, and
the order may be lost (`written_number_exceeds_its_neighbour`).
-/
import ExternalSort.Proofs.Sorter.Completion
import ExternalSort.Proofs.Table.Cell
import ExternalSort.Proofs.Table.Sort
import ExternalSort.Proofs.Table.Writing

namespace ExternalSort

namespace FieldOrder

variable {R : Type} [HasFields R] {keys : List SortKey} {records : List R}

theorem compareBy_of_eq {s : SortKey} {a b : R} (h : compareKey s a b = .ok .eq) :
    compareBy (s :: keys) a b = compareBy keys a b := by
  rw [compareBy, h]

theorem compareBy_of_ne {s : SortKey} {a b : R} (h : compareKey s a b ≠ .ok .eq) :
    compareBy (s :: keys) a b = compareKey s a b := by
  rw [compareBy]
  split
  · next he => exact absurd he h
  · rfl

/-- Records that stand alike by each key stand alike, and if by the last key they have
become equal, they stand alike or have become equal. -/
theorem compareBy_congr {a b a' b' : R}
    (h : ∀ s ∈ keys.dropLast, compareKey s a' b' = compareKey s a b)
    (hlast : ∀ s ∈ keys.getLast?, compareKey s a' b' = compareKey s a b ∨
      compareKey s a' b' = .ok .eq) :
    compareBy keys a' b' = compareBy keys a b ∨ compareBy keys a' b' = .ok .eq := by
  induction keys with
  | nil => exact .inl rfl
  | cons s keys ih =>
      cases keys with
      | nil =>
          rcases hlast s rfl with he | he
          · exact .inl (by rw [compareBy, compareBy, he]; rfl)
          · exact .inr (compareBy_of_eq he)
      | cons t keys =>
          obtain ⟨hs, h⟩ := List.forall_mem_cons.mp h
          by_cases he : compareKey s a b = .ok .eq
          · rw [compareBy_of_eq he, compareBy_of_eq (hs.trans he)]
            exact ih h hlast
          · rw [compareBy_of_ne he, compareBy_of_ne (hs ▸ he), hs]
            exact .inl rfl

section Accepted

variable (h : (ItemOrder.screen (⟨ofKeys keys⟩ : RecordOrder R) records).2 = records)
include h

theorem comparable_of_accepted : Comparable keys records := by
  have hcompares := (comparable_screen (R := R) keys records).2
  rwa [h] at hcompares

/-- Records that were all accepted are in an order, unless the zeros meet. -/
theorem ranks_of_accepted (hz : ∀ s ∈ keys, ¬ZerosMeet s.name records) :
    ItemOrder.Ranks (⟨ofKeys keys⟩ : RecordOrder R) (rankBy keys) records := by
  intro shown _
  rw [h]
  let o : RecordOrder R := (ItemOrder.screen ⟨ofKeys keys⟩ shown).1
  show IsPreorderOn (compareBy o.fields.keys) _ _
  rw [show o.fields.keys = keys from (comparable_screen (R := R) keys shown).1]
  exact (comparable_of_accepted h).isPreorderOn hz

end Accepted

end FieldOrder

namespace Table

variable {W : Type} [SpillStore W] {sink sink' : Sink} {header : List String} {keys : List SortKey}

/-! ## Sorts that succeed -/

theorem writeLine_ok {line : String} (h : writeLine sink line = (.ok (), sink')) :
    sink'.bytes = sink.bytes ++ Text.utf8 line := by
  rw [writeLine] at h
  rcases hw : sink.writeAll (Text.utf8 line) with ⟨r, left, sink₁⟩
  rw [hw] at h
  obtain ⟨rfl, rfl⟩ := Prod.mk.inj h
  obtain ⟨-, hsplit, hall⟩ := Sink.writeAll_split hw
  rwa [hall rfl, List.append_nil] at hsplit

theorem writeRows_ok {rows : List Row} (h : writeRows sink rows = (.ok (), sink')) :
    sink'.bytes = sink.bytes ++ (rows.map rowLine).flatMap Text.utf8 := by
  induction rows generalizing sink with
  | nil =>
      obtain ⟨-, rfl⟩ := Prod.mk.inj h
      simp
  | cons row rows ih =>
      rw [writeRows] at h
      split at h
      · exact absurd (Prod.mk.inj h).1 (by simp)
      next sink₁ hline =>
      rw [ih h, writeLine_ok hline, List.map_cons, List.flatMap_cons, List.append_assoc]

theorem endOutput_ok {ending : Option Ending} {count n : Nat}
    (h : endOutput ending count sink = .ok n) : ending = some .ended ∧ n = count := by
  unfold endOutput at h
  split at h
  · exact absurd h (by simp)
  · exact absurd h (by simp)
  · split at h
    · exact absurd h (by simp)
    · exact ⟨rfl, (Except.ok.inj h).symm⟩

/-- A table that was sorted is what was gathered of the sort of its rows, behind the header. -/
theorem sort_ok {patience : Nat} {settings : Settings} {tag : UInt32} {source rest : Source}
    {w w' : W} {count : Nat} (hheader : takeHeader source = (.ok (some header), rest))
    (h : sort patience settings tag keys source sink w = (.ok count, sink', w')) :
    ∃ (sorter : RowSorter) (w₁ : W) (t : RowSorter × W) (rows : List Row),
      Sorter.start w settings (packing header) (rowOrder keys) tag
          ({ source := rest, columns := header } : RowStream) = (.ok sorter, w₁) ∧
        Producer.gather patience (sorter, w₁) = (t, rows, some .ended) ∧ rows.length = count ∧
        sink'.bytes = sink.bytes ++ (headerLine header :: rows.map rowLine).flatMap Text.utf8 := by
  rw [sort, hheader] at h
  dsimp only at h
  split at h
  · exact absurd (Prod.mk.inj h).1 (by simp)
  rw [sortRows] at h
  split at h
  · exact absurd (Prod.mk.inj h).1 (by simp)
  next sink₁ hline =>
  split at h
  · exact absurd (Prod.mk.inj h).1 (by simp)
  next sorter w₁ hstart =>
  rw [writeSorted] at h
  rcases hgather : Producer.gather patience (sorter, w₁) with ⟨⟨s, w₂⟩, rows, ending⟩
  rw [hgather] at h
  dsimp only at h
  split at h
  · exact absurd (Prod.mk.inj h).1 (by simp)
  next sink₂ hrows =>
  obtain ⟨hend, hrest⟩ := Prod.mk.inj h
  obtain ⟨rfl, -⟩ := Prod.mk.inj hrest
  obtain ⟨rfl, rfl⟩ := endOutput_ok hend
  refine ⟨sorter, w₁, _, rows, hstart, hgather, rfl, ?_⟩
  rw [writeRows_ok hrows, writeLine_ok hline, List.flatMap_cons, List.append_assoc]

/-! ## Rows that are written and read -/

variable {row : Row} {line : String}

/-- The cells that a row is written as. -/
def shown (row : Row) : List String := row.values.map Value.display

/-- The row that is read where a row was written. -/
def reread (header : List String) (row : Row) : Row := rowOf header (joined (shown row))

section OfLine

variable (h : OfLine header row line) (hd : header.Nodup)
include h hd

theorem OfLine.values : row.values = (cells line).map cellValue := by
  rw [h.row_eq]
  exact values_rowOf_of_nodup h.whole hd

theorem OfLine.fits_shown : Fits (shown row) := by
  have hcells := fits_cells h.one_line
  have hshown : shown row = (cells line).map fun cell => (cellValue cell).display := by
    rw [shown, h.values hd, List.map_map]
    rfl
  rw [hshown]
  refine ⟨by simpa using hcells.ne_nil, ?_, ?_⟩
  · intro w hw
    obtain ⟨cell, hcell, rfl⟩ := List.mem_map.mp hw
    rcases display_cellValue cell with he | hnum
    · rw [he]
      exact hcells.plain cell hcell
    · constructor
      · exact fun hm => absurd (hnum.all _ hm) (by decide)
      · exact fun hm => absurd (hnum.all _ hm) (by decide)
  · intro w hw c hc
    rw [List.getLast?_map] at hw
    obtain ⟨cell, hcell, rfl⟩ := Option.map_eq_some_iff.mp hw
    rcases display_cellValue cell with he | hnum
    · rw [he] at hc
      exact hcells.last cell hcell c hc
    · have hc := hnum.all c (List.mem_of_getLast? hc)
      rw [Bool.eq_false_iff]
      intro hend
      simp only [isLineEnd, Bool.or_eq_true, beq_iff_eq] at hend
      rcases hend with rfl | rfl <;> exact absurd hc (by decide)

theorem OfLine.shown_ne : shown row ≠ [""] := by
  intro hone
  rw [shown, h.values hd, List.map_map] at hone
  obtain ⟨cell, hcell, hempty⟩ := List.map_eq_singleton_iff.mp hone
  have hempty : (cellValue cell).display = "" := hempty
  have hblank : isBlankLine line = true := by
    refine isBlankLine_of_cells ?_
    rcases display_cellValue cell with he | hnum
    · rw [hcell, ← he, hempty]
    · rw [hempty] at hnum
      exact absurd rfl hnum.ne_nil
  exact absurd (hblank.symm.trans h.not_blank) (by simp)

theorem OfLine.field_reread (name : String) : HasFields.field (reread header row) name =
    (HasFields.field row name).map fun v => cellValue v.display := by
  have hfields : ∀ {l : String}, (cells l).length = header.length →
      (rowOf header l).fields = header.zip ((cells l).map cellValue) := fun hl =>
    Row.fields_ofList_of_nodup (by rwa [names_zip hl])
  have hcells : cells (joined (shown row)) = shown row := (h.fits_shown hd).cells_joined
  have hread : shown row = ((cells line).map cellValue).map Value.display := by
    rw [shown, h.values hd]
  have hwhole : (cells (joined (shown row))).length = header.length := by
    rw [hcells, hread, List.length_map, List.length_map, h.whole]
  have hall : (reread header row).fields =
      row.fields.map (Prod.map id fun v => cellValue v.display) := by
    rw [reread, hfields hwhole, hcells, hread, h.row_eq, hfields h.whole, List.map_map,
      List.zip_map_right]
    rfl
  show (reread header row).fields.lookup name = (row.fields.lookup name).map _
  rw [hall, lookup_map_snd]

theorem OfLine.exists_cell {name : String} {v : Value} (hv : HasFields.field row name = some v) :
    ∃ cell, cellValue cell = v := by
  obtain ⟨before, after, he, -⟩ := List.lookup_eq_some_iff.mp hv
  have hmem : v ∈ row.values := by
    rw [Row.values, he]
    simp
  rw [h.values hd] at hmem
  obtain ⟨cell, -, hcell⟩ := List.mem_map.mp hmem
  exact ⟨cell, hcell⟩

end OfLine

/-! ## Comparing rows that were written and read -/

/-- The column of some name. -/
def column (rows : List Row) (name : String) : List Value := rows.map (FieldOrder.valueOf name)

/-- The columns that some rows are sorted by can be written and read: floating-point numbers
that could be taken for integers are written exactly if there are integers beside them, the
zeros do not contradict each other, and two of them are not told apart but by the last key. -/
structure Legible (keys : List SortKey) (rows : List Row) : Prop where
  exact : ∀ s ∈ keys, ∀ i x, .int i ∈ column rows s.name → .float x ∈ column rows s.name → x.Exact
  zeros : ∀ s ∈ keys, ¬FieldOrder.ZerosMeet s.name rows
  one_zero : ∀ s ∈ keys.dropLast,
    ¬(Value.positiveZero ∈ column rows s.name ∧ Value.negativeZero ∈ column rows s.name)

variable {rows : List Row}

section Legible

variable (hlines : ∀ row ∈ rows, ∃ line, OfLine header row line) (hd : header.Nodup)
  (hcompares : FieldOrder.Comparable keys rows) (hlegible : Legible keys rows)
include hlines hd hcompares hlegible

/-- Rows that are written and read stand by a key as they stood, or they have become equal
where it told two zeros apart. -/
theorem compareKey_reread {s : SortKey} (hs : s ∈ keys) {a b : Row} (ha : a ∈ rows) (hb : b ∈ rows) :
    FieldOrder.compareKey s (reread header a) (reread header b) = FieldOrder.compareKey s a b ∨
      Opposite (FieldOrder.valueOf s.name a) (FieldOrder.valueOf s.name b) ∧
        FieldOrder.compareKey s (reread header a) (reread header b) = .ok .eq := by
  have hread : ∀ {row}, row ∈ rows → ∃ cell,
      HasFields.field row s.name = some (cellValue cell) ∧
      HasFields.field (reread header row) s.name = some (cellValue (cellValue cell).display) ∧
        cellValue cell ∈ column rows s.name := by
    intro row hrow
    obtain ⟨line, hline⟩ := hlines row hrow
    have hfield := hcompares.field_eq hs hrow
    have hin : FieldOrder.valueOf s.name row ∈ column rows s.name := List.mem_map_of_mem hrow
    obtain ⟨cell, hcell⟩ := hline.exists_cell hd hfield
    rw [← hcell] at hfield hin
    exact ⟨cell, hfield, by rw [hline.field_reread hd, hfield]; rfl, hin⟩
  obtain ⟨c, hv, hv', hvin⟩ := hread ha
  obtain ⟨d, hw, hw', hwin⟩ := hread hb
  have hcompare : ∀ {o : Ordering}, (cellValue (cellValue c).display).compare?
      (cellValue (cellValue d).display) = some o →
        FieldOrder.compareKey s (reread header a) (reread header b) = .ok (s.direction.apply o) := by
    intro o ho
    simp [FieldOrder.compareKey, FieldOrder.fieldOf, hv', hw', ho, bind, Except.bind]
  have hold := hcompares.compare?_eq hs ha hb
  rw [hcompares.compareKey_eq hs ha hb, FieldOrder.rankKey]
  rw [FieldOrder.valueOf, FieldOrder.valueOf, hv, hw] at hold ⊢
  by_cases hz : Opposite (cellValue c) (cellValue d)
  · refine .inr ⟨hz, ?_⟩
    rw [hcompare (compare?_display_of_opposite hz)]
    cases s.direction <;> rfl
  · have hbeside : Beside (cellValue c) (cellValue d) :=
      { left := fun x i hx hi => hlegible.exact s hs i x (hi ▸ hwin) (hx ▸ hvin)
        right := fun x i hi hx => hlegible.exact s hs i x (hi ▸ hvin) (hx ▸ hwin) }
    exact .inl (hcompare ((compare?_display hbeside hz).trans hold))

/-- Rows that were in order are in order when they are written and read. -/
theorem ordered_reread {sorted : List Row} (hin : ∀ row ∈ sorted, row ∈ rows)
    (hsorted : NonDecreasing (FieldOrder.rankBy keys) sorted) :
    (sorted.map (reread header)).Pairwise fun a b =>
      ∃ o, ItemOrder.compare (rowOrder keys) a b = .ok o ∧ o ≠ .gt := by
  rw [List.pairwise_map]
  refine List.Pairwise.imp_of_mem ?_ hsorted
  intro a b ha hb hle
  have hkey := fun {s} hs => compareKey_reread hlines hd hcompares hlegible (s := s) hs
    (hin a ha) (hin b hb)
  have hcolumn : ∀ {row name}, row ∈ sorted → FieldOrder.valueOf name row ∈ column rows name :=
    fun hrow => List.mem_map_of_mem (hin _ hrow)
  have hkeys : (rowOrder keys).fields.keys = keys := (FieldOrder.holds_ofKeys (R := Row) keys).keys_eq
  show ∃ o, FieldOrder.compareBy (rowOrder keys).fields.keys _ _ = .ok o ∧ o ≠ .gt
  rw [hkeys]
  have hcompare : FieldOrder.compareBy keys (reread header a) (reread header b) =
        FieldOrder.compareBy keys a b ∨
      FieldOrder.compareBy keys (reread header a) (reread header b) = .ok .eq := by
    refine FieldOrder.compareBy_congr ?_ ?_
    · intro s hs
      rcases hkey (List.mem_of_mem_dropLast hs) with he | ⟨⟨hp, hn⟩ | ⟨hn, hp⟩, -⟩
      · exact he
      · exact absurd ⟨hp ▸ hcolumn ha, hn ▸ hcolumn hb⟩ (hlegible.one_zero s hs)
      · exact absurd ⟨hp ▸ hcolumn hb, hn ▸ hcolumn ha⟩ (hlegible.one_zero s hs)
    · intro s hs
      exact (hkey (List.mem_of_getLast? hs)).imp_right And.right
  rcases hcompare with he | he
  · exact ⟨_, he.trans (hcompares.compareBy_eq (hin a ha) (hin b hb)), hle⟩
  · exact ⟨_, he, by decide⟩

end Legible

/-! ## The table that is written -/

theorem fits_header {source rest : Source} (h : takeHeader source = (.ok (some header), rest)) :
    Fits header := by
  rw [takeHeader] at h
  dsimp only at h
  split at h
  · exact absurd (Prod.mk.inj h).1 (by simp)
  · exact absurd (Prod.mk.inj h).1 (by simp)
  · next line hf ht =>
    have hcells := Except.ok.inj (Prod.mk.inj h).1
    split at hcells
    · exact absurd hcells (by simp)
    · obtain rfl := Option.some.inj hcells
      refine fits_cells ?_
      have htext : Text.text? (readLine source).1.bytes = some line := by
        rw [Text.text?, ht]
        rfl
      have hnone : '\n' ∉ "".toList := List.not_mem_nil
      have hone := lineFeed_not_mem_lineText hnone htext
      rwa [String.empty_append] at hone

/-- A table of rows that came of lines is read again. -/
theorem reads_tableText (hheader : Fits header) (hd : header.Nodup)
    (hlines : ∀ row ∈ rows, ∃ line, OfLine header row line) {copy : Source}
    (hfaults : copy.faults = 0)
    (hcopy : copy.bytes = Text.utf8 (tableText (header :: rows.map shown))) :
    ∃ rest, takeHeader copy = (.ok (some header), rest) ∧
      course header 1 "" rest = ⟨rows.map (reread header), .ended⟩ := by
  have hfits : ∀ ws ∈ header :: rows.map shown, Fits ws := by
    refine List.forall_mem_cons.mpr ⟨hheader, List.forall_mem_map.mpr ?_⟩
    intro row hrow
    obtain ⟨line, hline⟩ := hlines row hrow
    exact hline.fits_shown hd
  have hne : ∀ ws ∈ rows.map shown, ws ≠ [""] := by
    refine List.forall_mem_map.mpr ?_
    intro row hrow
    obtain ⟨line, hline⟩ := hlines row hrow
    exact hline.shown_ne hd
  have hwhole : ∀ l ∈ (rows.map shown).map joined, (cells l).length = header.length := by
    rw [List.map_map]
    refine List.forall_mem_map.mpr ?_
    intro row hrow
    obtain ⟨line, hline⟩ := hlines row hrow
    rw [Function.comp_apply, (hline.fits_shown hd).cells_joined, shown, hline.values hd,
      List.length_map, List.length_map, hline.whole]
  have htext : tableText (header :: rows.map shown) ≠ "" := by
    rw [tableText_cons]
    simp
  obtain ⟨rest, hread, -, hcourse⟩ := takeHeader_text hfaults hcopy htext
  rw [columnsOf_tableText hfits] at hread hcourse
  rw [bodyOf_tableText hfits hne] at hcourse
  refine ⟨rest, hread, ?_⟩
  rw [hcourse hwhole, List.map_map, List.map_map]
  rfl

/-- **A table that was sorted is read again as a table that is in order**, if it is legible:
its rows compare by the same keys, and none is after a later one. -/
theorem written_table_is_sorted {V : Honest W} (hopens : V.Opens) (hprepares : V.Prepares)
    {patience : Nat} {settings : Settings} {tag : UInt32} {source rest : Source} {w w' : W}
    {count : Nat} (hw : V.ok w) (hheader : takeHeader source = (.ok (some header), rest))
    (hd : header.Nodup)
    (hsort : sort patience settings tag keys source sink w = (.ok count, sink', w'))
    (hlegible : Legible keys (course header 1 "" rest).items) :
    ∃ text, sink'.bytes = sink.bytes ++ Text.utf8 text ∧
      ∀ copy : Source, copy.faults = 0 → copy.bytes = Text.utf8 text →
        ∃ rest' rows, takeHeader copy = (.ok (some header), rest') ∧
          course header 1 "" rest' = ⟨rows, .ended⟩ ∧ rows.length = count ∧
          rows.Pairwise fun a b =>
            ∃ o, ItemOrder.compare (rowOrder keys) a b = .ok o ∧ o ≠ .gt := by
  have hlines : ∀ row ∈ (course header 1 "" rest).items, ∃ line, OfLine header row line :=
    fun row hrow => ofLine_of_mem_course List.not_mem_nil hrow
  obtain ⟨sorter, w₁, t, rows, hstart, hgather, rfl, hbytes⟩ := sort_ok hheader hsort
  have hcodec : (packing header).RoundTrips (· ∈ (course header 1 "" rest).items) := by
    refine packing_roundTrips ?_
    intro row hrow
    obtain ⟨line, hline⟩ := hlines row hrow
    rw [hline.row_eq]
    exact names_rowOf hline.whole
  have hall : Sorter.Sorted (rowOrder keys) (course header 1 "" rest).items rows :=
    (Sorter.sorted_of_gather (S := RowStream) hopens hprepares hw (.inl rfl) hcodec hstart
      hgather).2
  generalize (course header 1 "" rest).items = items at hlines hall hlegible
  have hmem : ∀ row ∈ rows, row ∈ items := fun row hrow => hall.perm.subset hrow
  have hordered := ordered_reread hlines hd (FieldOrder.comparable_of_accepted hall.accepted)
    hlegible hmem (hall.nonDecreasing _ (FieldOrder.ranks_of_accepted hall.accepted hlegible.zeros))
  refine ⟨tableText (header :: rows.map shown), ?_, ?_⟩
  · rw [hbytes, utf8_tableText, List.map_cons, List.map_map]
    rfl
  · intro copy hfaults hcopy
    obtain ⟨rest', hread, hcourse⟩ := reads_tableText (fits_header hheader) hd
      (fun row hrow => hlines row (hmem row hrow)) hfaults hcopy
    exact ⟨rest', rows.map (reread header), hread, hcourse, List.length_map _, hordered⟩

/-- Numbers of both kinds and a null value that go through run files, among them a
floating-point number that is read again as an integer. -/
theorem four_written_numbers_are_sorted :
    let settings : Settings := { Settings.standard ⟨"runs"⟩ with threshold := 2 }
    let keys : List SortKey := [⟨"k", .descending⟩, ⟨"v", .ascending⟩]
    let r := sort 0 settings 7 keys
      (.ofBytes (Text.utf8 "k\tv\n-4\ta\n9007199254740992.0\tb\n\tc\n2.50\td\n")) {}
      ({} : PlannedStore)
    r.1 = .ok 4 ∧
      r.2.1.bytes = Text.utf8 "k\tv\n\tc\n9007199254740992\tb\n2.5\td\n-4\ta\n" ∧
      ∀ copy : Source, copy.faults = 0 → copy.bytes = r.2.1.bytes →
        ∃ rest rows, takeHeader copy = (.ok (some ["k", "v"]), rest) ∧
          course ["k", "v"] 1 "" rest = ⟨rows, .ended⟩ ∧ rows.length = 4 ∧
          rows.Pairwise fun a b =>
            ∃ o, ItemOrder.compare (rowOrder keys) a b = .ok o ∧ o ≠ .gt := by
  intro settings keys r
  let table := "k\tv\n-4\ta\n9007199254740992.0\tb\n\tc\n2.50\td\n"
  let source : Source := .ofBytes (Text.utf8 table)
  have hw : PlannedStore.candid.ok {} := ⟨fun _ => rfl, fun _ bs => by
    rw [show ({} : StorePlan).source _ bs = Source.ofBytes bs from rfl, Source.content_ofBytes]
    exact ⟨List.prefix_refl bs, fun _ => rfl⟩⟩
  have hsource : source.faults = 0 ∧ source.bytes = Text.utf8 table := by decide +kernel
  obtain ⟨rest, hheader, -, hcourse⟩ := takeHeader_text hsource.1 hsource.2 (by decide)
  have hcolumns : columnsOf table = ["k", "v"] := by decide +kernel
  have hcells : ∀ l ∈ bodyOf table, (cells l).length = (columnsOf table).length := by decide +kernel
  have hitems := congrArg Course.items (hcourse hcells)
  rw [hcolumns] at hheader hitems
  let rows := (bodyOf table).map (rowOf ["k", "v"])
  have hlegible : Legible keys rows := by
    have hk : column rows "k" = [.int (-4), .float (.ofMagnitude false 0x4340000000000000), .null,
        .float (.ofMagnitude false 0x4004000000000000)] := by
      decide +kernel
    have hv : column rows "v" = [.text "a", .text "b", .text "c", .text "d"] := by decide +kernel
    have hexact : ∀ s ∈ keys, ∀ x, .float x ∈ column rows s.name → x.Exact := by
      refine List.forall_mem_cons.mpr ⟨?_, List.forall_mem_singleton.mpr ?_⟩
      · intro x hx
        simp only [hk, List.mem_cons, reduceCtorEq, Value.float.injEq, List.not_mem_nil, or_false,
          false_or] at hx
        rcases hx with rfl | rfl <;> decide +kernel
      · simp [hv]
    have hwhole : ∀ s ∈ keys, ∀ row ∈ rows,
        HasFields.field row s.name ≠ some Value.wholeZero := by
      decide +kernel
    constructor
    · exact fun s hs _ x _ hx => hexact s hs x hx
    · intro s hs hmeet
      obtain ⟨row, hrow, hzero⟩ := hmeet.whole
      exact hwhole s hs row hrow hzero
    · decide +kernel
  have hok : r.1 = .ok 4 := by decide +kernel
  have hbytes : r.2.1.bytes =
      Text.utf8 "k\tv\n\tc\n9007199254740992\tb\n2.5\td\n-4\ta\n" := by decide +kernel
  obtain ⟨text, htext, hread⟩ := written_table_is_sorted PlannedStore.candid_opens
    PlannedStore.candid_prepares hw hheader (by decide)
    (show r = (.ok 4, r.2.1, r.2.2) from Prod.ext hok rfl) (hitems ▸ hlegible)
  refine ⟨hok, hbytes, ?_⟩
  intro copy hfaults hcopy
  exact hread copy hfaults (hcopy.trans htext)

/-- An integer is less than the floating-point number before it as that is written. -/
theorem written_number_exceeds_its_neighbour :
    let keys : List SortKey := [⟨"k", .ascending⟩]
    let r := sort 0 (.standard ⟨"runs"⟩) 7 keys
      (.ofBytes (Text.utf8 "k\n1152921504606846976.0\n1152921504606846990\n")) {}
      ({} : PlannedStore)
    r.1 = .ok 2 ∧
      r.2.1.bytes = Text.utf8 "k\n1152921504606847000\n1152921504606846990\n" ∧
      ItemOrder.compare (rowOrder keys) (rowOf ["k"] "1152921504606847000")
        (rowOf ["k"] "1152921504606846990") = .ok .gt := by
  decide +kernel

/-- Two zeros that a key told apart are read as one integer, and the next key tells the rows
in another order. -/
example :
    let keys : List SortKey := [⟨"k", .ascending⟩, ⟨"v", .ascending⟩]
    let r := sort 0 (.standard ⟨"runs"⟩) 7 keys (.ofBytes (Text.utf8 "k\tv\n0.0\t1\n-0.0\t2\n")) {}
      ({} : PlannedStore)
    r.1 = .ok 2 ∧ r.2.1.bytes = Text.utf8 "k\tv\n-0\t2\n0\t1\n" ∧
      ItemOrder.compare (rowOrder keys) (rowOf ["k", "v"] "-0\t2") (rowOf ["k", "v"] "0\t1") =
        .ok .gt := by
  decide +kernel

end Table

end ExternalSort
