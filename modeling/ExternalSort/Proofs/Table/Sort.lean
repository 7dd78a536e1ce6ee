/-
Sorting a table loses no row.

A table whose text is in order gives a row for each line that is not blank, the
rows compare and can be stored, and so all of them come out of the sort and are
written, whether or not they went through files
(`Table.sort_writes_every_row`).

No cell is lost either if the columns have distinct names.  A row knows its
cells by the names of their columns: where a name comes twice, only the last
cell of that name is written (`Table.sort_loses_cell_of_repeated_column`).
-/
import ExternalSort.Proofs.Order.Admission
import ExternalSort.Proofs.Sorter.Returning
import ExternalSort.Proofs.Sorter.Serving
import ExternalSort.Proofs.Stream.Diligence
import ExternalSort.Proofs.Table.Course
import ExternalSort.Proofs.Table.Packing
import ExternalSort.Proofs.Table.Text
import ExternalSort.Table.Sort

namespace ExternalSort

/-- An order by fields fits records that compare, unless the zeros meet in one of the
fields. -/
theorem FieldOrder.Comparable.fits {R : Type} [HasFields R] {keys : List SortKey}
    {records : List R} (h : Comparable keys records) (hz : ∀ s ∈ keys, ¬ZerosMeet s.name records) :
    ItemOrder.Fits (⟨.ofKeys keys⟩ : RecordOrder R) (rankBy keys) records := by
  intro taken htaken
  have hfresh : Holds keys (ofKeys keys) ([] : List R) := holds_ofKeys keys
  obtain ⟨o, ho⟩ := (hfresh.acceptFrom_iff (o := ⟨ofKeys keys⟩) 0 taken).mpr
    (h.subset fun _ hr => htaken.subset hr)
  refine ⟨o, ho, ?_⟩
  show IsPreorderOn (compareBy o.fields.keys) _ _
  rw [(hfresh.acceptFrom ho).keys_eq]
  exact h.isPreorderOn hz

namespace Table

/-! ## Rows and their cells -/

variable {columns : List String} {line : String}

/-- The last cell of a line in a column of some name. -/
def lastCell (columns : List String) (line : String) (name : String) : String :=
  ((columns.zip (cells line)).reverse.lookup name).getD ""

/-- A line of some values. -/
def valuesLine (vs : List Value) : String := "\t".intercalate (vs.map Value.display) ++ "\n"

theorem lookup_map_snd {β γ : Type} (f : β → γ) (fs : List (String × β)) (name : String) :
    (fs.map (Prod.map id f)).lookup name = (fs.lookup name).map f := by
  induction fs with
  | nil => rfl
  | cons g fs ih =>
      rw [List.map_cons, List.lookup_cons, List.lookup_cons, ih, Prod.map_fst, id_eq]
      cases name == g.1 <;> rfl

section Whole

variable (h : (cells line).length = columns.length)
include h

theorem names_zip : (columns.zip ((cells line).map cellValue)).map Prod.fst = columns :=
  List.map_fst_zip (by rw [List.length_map, h])

theorem names_rowOf : (rowOf columns line).fields.map Prod.fst = columns.eraseDups := by
  rw [rowOf, Row.names_ofList, names_zip h]

theorem values_rowOf :
    (rowOf columns line).values = columns.eraseDups.map fun name =>
      cellValue (lastCell columns line name) := by
  rw [rowOf, Row.values_ofList, names_zip h]
  refine List.map_congr_left ?_
  intro name _
  rw [List.zip_map_right, ← List.map_reverse, lookup_map_snd, lastCell]
  cases (columns.zip (cells line)).reverse.lookup name <;> rfl

theorem values_rowOf_of_nodup (hd : columns.Nodup) :
    (rowOf columns line).values = (cells line).map cellValue := by
  rw [rowOf, Row.values, Row.fields_ofList_of_nodup (by rwa [names_zip h])]
  exact List.map_snd_zip (by rw [List.length_map, h])

end Whole

/-! ## Writing rows -/

variable {sink : Sink}

theorem writeLine_takes (h : sink.plan.Takes) (line : String) :
    ∃ sink', writeLine sink line = (.ok (), sink') ∧ sink'.plan = sink.plan ∧
      sink'.bytes = sink.bytes ++ Text.utf8 line := by
  obtain ⟨sink', hw⟩ := Sink.writeAll_takes h (Text.utf8 line) Sink.stuck
  obtain ⟨hplan, hsplit, -⟩ := Sink.writeAll_split hw
  rw [List.append_nil] at hsplit
  refine ⟨sink', ?_, hplan, hsplit⟩
  rw [writeLine]
  rw [hw]

theorem writeRows_takes (h : sink.plan.Takes) (rows : List Row) :
    ∃ sink', writeRows sink rows = (.ok (), sink') ∧ sink'.plan = sink.plan ∧
      sink'.bytes = sink.bytes ++ (rows.map rowLine).flatMap Text.utf8 := by
  induction rows generalizing sink with
  | nil => exact ⟨sink, rfl, rfl, by simp⟩
  | cons row rows ih =>
      obtain ⟨sink₁, hline, hplan, hbytes⟩ := writeLine_takes h (rowLine row)
      obtain ⟨sink', hrows, hplan', hbytes'⟩ := ih (hplan ▸ h)
      refine ⟨sink', ?_, hplan'.trans hplan, ?_⟩
      · rw [writeRows, hline]
        exact hrows
      · rw [hbytes', hbytes, List.map_cons, List.flatMap_cons, List.append_assoc]

theorem endOutput_takes (h : sink.plan.Takes) (count : Nat) :
    endOutput (some .ended) count sink = .ok count := by
  have hf : sink.flush = .ok () := h.flush sink.history
  rw [endOutput, hf]

/-! ## Sorting rows -/

variable {W : Type} [SpillStore W]

/-- Rows that compare and can be stored are all written behind the header, and no
drive of their sort is aborted. -/
theorem sortRows_writes (R : Reliable W) {P : W → Prop} (hP : SpillStore.Prompt P) (patience : Nat)
    {settings : Settings} {tag : UInt32} {keys : List SortKey} {rows : List Row} {source : Source}
    {w : W} (hstore : R.ok w ∧ P w) (hroom : R.HasRoom settings tag 1 w)
    (hcheck : settings.check = .ok ()) (hchunk : FrameStream.ChunkFits settings.chunk)
    (hsink : sink.plan.Takes)
    (hnames : ∀ row ∈ rows, row.fields.map Prod.fst = columns.eraseDups)
    (hcompare : FieldOrder.Comparable keys rows)
    (hzeros : ∀ s ∈ keys, ¬FieldOrder.ZerosMeet s.name rows)
    (hstored : settings.threshold ≤ satTotal Row.size rows → ∀ row ∈ rows, ∃ bs,
      packRow columns row [] = .ok bs ∧ bs.length ≤ Frame.maxPayload)
    (hfaults : source.faults = 0) (hcourse : course columns 1 "" source = ⟨rows, .ended⟩) :
    sortRowsReturns patience settings tag keys columns source sink w = true ∧
    ∃ (sorted : List Row) (sink' : Sink) (w' : W),
      sortRows patience settings tag keys columns source sink w = (.ok rows.length, sink', w') ∧
        sorted.Perm rows ∧
        sink'.bytes = sink.bytes ++ (headerLine columns :: sorted.map rowLine).flatMap Text.utf8 := by
  obtain ⟨sink₁, hheader, hplan, hbytes⟩ := writeLine_takes hsink (headerLine columns)
  rw [← hplan] at hsink
  have hfits : ItemOrder.Fits (rowOrder keys) (FieldOrder.rankBy keys) rows :=
    hcompare.fits hzeros
  let T : Task (RecordOrder Row) Row W :=
    { store := R, settings, codec := packing columns, order := rowOrder keys, items := rows,
      sound := packing_sound (fun row h => hnames row h.1) fun row h => hstored h.2 row h.1
      handles := hfits.handles }
  have hrefusals : source.refusals = 0 := Nat.le_zero.mp (hfaults ▸ Source.refusals_le_faults source)
  let input : RowStream := { source, columns }
  have hopen : input.supply.status = .open := rfl
  obtain ⟨sorter, w₁, hstart, hgather⟩ :=
    Sorter.start_gather (S := RowStream) T hP hstore.1 hstore.2 hcheck hroom hopen hcourse hrefusals
  obtain ⟨t, hgather⟩ := hgather patience
  have hitems : (ForetoldProducer.course input).items = rows := congrArg Course.items hcourse
  have hreturns : Command.AlwaysReturns (sorter, w₁) :=
    Sorter.start_returns trivial hchunk hstart (.inl hopen) (by
      rw [hitems]
      exact hfits.isConsistent)
  obtain ⟨sink', hrows, hplan', hbytes'⟩ := writeRows_takes hsink T.sorted
  have hperm : T.sorted.Perm rows := T.sorted_perm.2
  have hstart : Sorter.start w settings (packing columns) (rowOrder keys) tag
      input = (.ok sorter, w₁) := hstart
  refine ⟨?_, T.sorted, sink', t.1.discard t.2, ?_, hperm, ?_⟩
  · rw [sortRowsReturns, hheader, hstart]
    exact hreturns.gatherReturns patience
  · rw [sortRows, hheader]
    dsimp only
    rw [hstart]
    dsimp only
    rw [writeSorted, hgather]
    dsimp only
    rw [hrows]
    dsimp only
    rw [endOutput_takes (hplan' ▸ hsink), hperm.length_eq]
  · rw [hbytes', hbytes, List.flatMap_cons, List.append_assoc]

end Table

end ExternalSort
