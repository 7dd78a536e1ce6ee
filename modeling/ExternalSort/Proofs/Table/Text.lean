/-
The table that a text is.

Of all characters only the line feed has its byte among its own, so the lines
that are read from the bytes of a text are its pieces between line feeds
(`Table.linesOf`).  The first of them names the columns, and each later one
that is not blank becomes a row; that is all a source gives that does not fail
(`Table.takeHeader_text`), in whatever pieces it gives the bytes.
-/
import ExternalSort.Proofs.Table.Course
import Mathlib.Data.List.DropRight

namespace ExternalSort

theorem Text.pieces_cases (p : Char → Bool) (cs : List Char) :
    (∀ c ∈ cs, p c = false) ∧ Text.pieces p cs = [cs] ∨
      ∃ piece c rest, cs = piece ++ c :: rest ∧ p c = true ∧ (∀ d ∈ piece, p d = false) ∧
        Text.pieces p cs = piece :: Text.pieces p rest := by
  induction cs with
  | nil => exact .inl ⟨fun _ h => absurd h List.not_mem_nil, rfl⟩
  | cons c cs ih =>
      rw [pieces]
      cases hc : p c with
      | true =>
          exact .inr ⟨[], c, cs, rfl, hc, fun _ h => absurd h List.not_mem_nil, if_pos rfl⟩
      | false =>
          rw [if_neg (by simp)]
          rcases ih with ⟨hall, hp⟩ | ⟨piece, d, rest, rfl, hd, hpiece, hp⟩
          · exact .inl ⟨List.forall_mem_cons.mpr ⟨hc, hall⟩, by rw [hp]⟩
          · refine .inr ⟨c :: piece, d, rest, rfl, hd, List.forall_mem_cons.mpr ⟨hc, hpiece⟩, ?_⟩
            rw [hp]

namespace Table

/-! ## Lines of a text -/

/-- The lines of a text.  Behind a line feed at the end there is an empty one. -/
def linesOf (text : String) : List String :=
  (Text.pieces (· == '\n') text.toList).map String.ofList

/-- Nothing stands in a line but what ends lines. -/
def isBlankLine (line : String) : Bool := (lineText line.toList).isEmpty

/-- The columns that the first line of a text names. -/
def columnsOf (text : String) : List String := cells ((linesOf text).headD "")

/-- The lines behind the first one that are not blank. -/
def bodyOf (text : String) : List String := (linesOf text).tail.filter fun l => !isBlankLine l

/-- The row of a line that has a cell for each column. -/
def rowOf (columns : List String) (line : String) : Row :=
  .ofList (columns.zip ((cells line).map cellValue))

/-- What is handed over of some lines. -/
def rowsOf (columns : List String) (lines : List String) : List Row :=
  (lines.filter fun l => !isBlankLine l).map (rowOf columns)

theorem rowsOf_cons (columns : List String) (line : String) (lines : List String) :
    rowsOf columns (line :: lines) = rowsOf columns [line] ++ rowsOf columns lines := by
  rw [rowsOf, rowsOf, rowsOf, ← List.map_append, ← List.filter_append, List.singleton_append]

theorem linesOf_cases (text : String) :
    '\n' ∉ text.toList ∧ linesOf text = [text] ∨
      ∃ line rest, text = line ++ "\n" ++ rest ∧ '\n' ∉ line.toList ∧
        linesOf text = line :: linesOf rest := by
  rw [linesOf]
  rcases Text.pieces_cases (· == '\n') text.toList with
    ⟨hall, hp⟩ | ⟨piece, c, rest, ht, hc, hpiece, hp⟩
  · refine .inl ⟨fun hm => absurd (hall _ hm) (by simp), ?_⟩
    rw [hp]
    simp
  · obtain rfl : c = '\n' := by simpa using hc
    refine .inr ⟨String.ofList piece, String.ofList rest, ?_, ?_, ?_⟩
    · refine String.toList_inj.mp ?_
      simp [ht]
    · rw [String.toList_ofList]
      exact fun hm => absurd (hpiece _ hm) (by simp)
    · rw [hp]
      simp [linesOf]

/-! ## Their bytes -/

theorem lineFeed_not_mem_encodeChar {c : Char} (h : c ≠ '\n') :
    lineFeed ∉ String.utf8EncodeChar c := by
  have hc : c.val.toNat ≠ 10 := fun he => h (Char.ext (UInt32.toNat_inj.mp he))
  rw [String.utf8EncodeChar]
  generalize c.val.toNat = v at hc
  have hb : ∀ n, n < 256 → n ≠ 10 → lineFeed ≠ UInt8.ofNat n := by
    intro n hn hne he
    have := congrArg UInt8.toNat he
    rw [UInt8.toNat_ofNat_of_lt' hn] at this
    exact hne this.symm
  -- one case for each number of bytes; where there are several, all of them are great
  split
  · simp only [List.mem_cons, List.not_mem_nil, or_false]
    exact hb v (by omega) hc
  split
  · simp only [List.mem_cons, List.not_mem_nil, or_false, not_or]
    exact ⟨hb _ (by omega) (by omega), hb _ (by omega) (by omega)⟩
  split
  · simp only [List.mem_cons, List.not_mem_nil, or_false, not_or]
    exact ⟨hb _ (by omega) (by omega), hb _ (by omega) (by omega), hb _ (by omega) (by omega)⟩
  · simp only [List.mem_cons, List.not_mem_nil, or_false, not_or]
    exact ⟨hb _ (by omega) (by omega), hb _ (by omega) (by omega), hb _ (by omega) (by omega),
      hb _ (by omega) (by omega)⟩

theorem cutLine_eq_none {bs : List UInt8} (h : lineFeed ∉ bs) : cutLine bs = none := by
  induction bs with
  | nil => rfl
  | cons b bs ih =>
      obtain ⟨hb, h⟩ := not_or.mp fun hm => h (List.mem_cons.mpr hm)
      rw [cutLine, if_neg fun e => hb e.symm, ih h]
      rfl

theorem cutLine_utf8 {line : String} (h : '\n' ∉ line.toList) :
    cutLine (Text.utf8 line) = none := by
  refine cutLine_eq_none ?_
  rw [Text.utf8, List.mem_flatMap]
  rintro ⟨c, hc, hm⟩
  exact lineFeed_not_mem_encodeChar (fun e => h (e ▸ hc)) hm

theorem cutLine_line {line : String} (h : '\n' ∉ line.toList) (rest : String) :
    cutLine (Text.utf8 (line ++ "\n" ++ rest)) = some (Text.utf8 (line ++ "\n"), Text.utf8 rest) := by
  have hfeed : cutLine (Text.utf8 "\n" ++ Text.utf8 rest) = some ([lineFeed], Text.utf8 rest) := rfl
  rw [Text.utf8_append, Text.utf8_append, List.append_assoc, cutLine_append_of_none (cutLine_utf8 h), hfeed]
  rfl

theorem readLine_line {line : String} (h : '\n' ∉ line.toList) (rest : String) :
    readLine (.ofBytes (Text.utf8 (line ++ "\n" ++ rest))) =
      ({ bytes := Text.utf8 (line ++ "\n") }, .ofBytes (Text.utf8 rest)) :=
  readLine_ofBytes_of_some (cutLine_line h rest)

theorem readLine_last {line : String} (h : '\n' ∉ line.toList) :
    readLine (.ofBytes (Text.utf8 line)) = ({ bytes := Text.utf8 line }, []) :=
  readLine_ofBytes_of_none (cutLine_utf8 h)

/-! ## Rows of a text -/

theorem lineText_lineFeed (line : String) :
    lineText (line ++ "\n").toList = lineText line.toList := by
  have hfeed : isLineEnd '\n' = true := rfl
  simp [lineText, Text.dropRightWhile, hfeed]

theorem cells_lineFeed (line : String) : cells (line ++ "\n") = cells line := by
  rw [cells, lineText_lineFeed, ← cells]

variable {columns : List String} {n : Nat} {line : String}

theorem judgeLine_text (h : isBlankLine line = false → (cells line).length = columns.length) :
    judgeLine columns n line = if isBlankLine line then .blank else .row (rowOf columns line) := by
  rw [judgeLine, isBlankLine]
  cases hb : (lineText line.toList).isEmpty with
  | true => rfl
  | false =>
      have hp : RowStream.parseRow columns (n + 1) line = .ok (rowOf columns line) := if_pos (h hb)
      simp [hp]

theorem judge_text (hne : line ≠ "")
    (h : isBlankLine line = false → (cells line).length = columns.length) :
    judge columns n "" { bytes := Text.utf8 line } =
      if isBlankLine line then .blank else .row (rowOf columns line) := by
  have hbytes := Text.utf8_isEmpty hne
  simp only [judge, Text.text?_utf8, hbytes, Bool.false_and, Bool.false_eq_true, if_false,
    String.empty_append]
  exact judgeLine_text h

theorem lead_line (c : Course Row) (k : Nat → String → Course Row) (hk : k (n + 1) "" = c)
    (line : String) : (if isBlankLine line then Verdict.blank
        else .row (rowOf columns line)).lead n k = c.after (rowsOf columns [line]) := by
  rw [rowsOf]
  cases hb : isBlankLine line with
  | true => simpa [Verdict.lead, hb] using hk
  | false => simp [Verdict.lead, hb, hk]

theorem judge_end (columns : List String) (n : Nat) : judge columns n "" {} = .ending .ended := by
  simp [judge, Text.text?_nil]

theorem course_empty (columns : List String) (n : Nat) :
    course columns n "" [] = ⟨[], .ended⟩ := by
  rw [course_eq, show (readLine []).1 = {} from rfl, judge_end]
  rfl

/-- A text gives a row for each line that is not blank. -/
theorem course_text (text : String)
    (h : ∀ l ∈ linesOf text, isBlankLine l = false → (cells l).length = columns.length) :
    course columns n "" (.ofBytes (Text.utf8 text)) = ⟨rowsOf columns (linesOf text), .ended⟩ := by
  induction hn : text.length using Nat.strongRecOn generalizing text n with
  | ind m ih =>
      rcases linesOf_cases text with ⟨hfeed, hl⟩ | ⟨line, rest, rfl, hfeed, hl⟩
      · rw [hl] at h ⊢
        rw [course_eq, readLine_last hfeed]
        by_cases hne : text = ""
        · subst hne
          rw [show (Text.utf8 "") = [] from rfl, judge_end]
          rfl
        · rw [judge_text hne (h text List.mem_cons_self), lead_line _ _ (course_empty columns (n + 1))]
          simp [Course.after]
      · rw [hl] at h ⊢
        obtain ⟨hline, hrest⟩ := List.forall_mem_cons.mp h
        have hlt : rest.length < m := by
          rw [← hn, String.length_append, String.length_append]
          have : "\n".length = 1 := rfl
          omega
        have hblank : isBlankLine (line ++ "\n") = isBlankLine line := by
          rw [isBlankLine, lineText_lineFeed, ← isBlankLine]
        have hrow : rowOf columns (line ++ "\n") = rowOf columns line := by
          rw [rowOf, cells_lineFeed, ← rowOf]
        rw [course_eq, readLine_line hfeed,
          judge_text (by simp) (by rwa [hblank, cells_lineFeed]), hblank, hrow,
          lead_line _ _ (ih _ hlt rest hrest rfl), rowsOf_cons columns line (linesOf rest)]
        rfl

/-! ## Sources of a text -/

theorem readLine_of_faults {source : Source} (hf : source.faults = 0) :
    (readLine source).1 = (readLine (.ofBytes source.bytes)).1 ∧ (readLine source).2.faults = 0 ∧
      ∀ columns n, course columns n "" (readLine source).2 =
        course columns n "" (readLine (.ofBytes source.bytes)).2 := by
  have hs := readLine_faults source
  have hfault : (readLine source).1.fault = none := by
    cases hr : (readLine source).1.fault with
    | none => rfl
    | some f =>
        rw [hf, hr, Option.toList_some, List.length_singleton] at hs
        exact absurd hs (by omega)
  obtain ⟨hread, hrest⟩ := readLine_ofBytes_bytes hfault
  refine ⟨hread.symm, by omega, ?_⟩
  intro columns n
  rw [course_ofBytes_bytes ((restsInText_of_faults [] hf).next hfault) Text.text?_nil]
  exact course_congr hrest.symm

theorem takeHeader_of_line {source : Source} {text : String} (hline : line ≠ "")
    (hcells : cells line = columnsOf text) (hr : (readLine source).1 = { bytes := Text.utf8 line }) :
    takeHeader source = (.ok (some (columnsOf text)), (readLine source).2) := by
  simp only [takeHeader, hr, Text.ofUtf8_utf8, Text.utf8_isEmpty hline, hcells,
    Bool.false_eq_true, if_false]

/-- A source of a text that does not fail gives the columns, and then a row for
each line that is not blank. -/
theorem takeHeader_text {source : Source} {text : String} (hf : source.faults = 0)
    (hb : source.bytes = Text.utf8 text) (hne : text ≠ "") :
    ∃ rest, takeHeader source = (.ok (some (columnsOf text)), rest) ∧ rest.faults = 0 ∧
      ((∀ l ∈ bodyOf text, (cells l).length = (columnsOf text).length) →
        course (columnsOf text) 1 "" rest =
          ⟨(bodyOf text).map (rowOf (columnsOf text)), .ended⟩) := by
  obtain ⟨hread, hfaults, hcourse⟩ := readLine_of_faults hf
  rw [hb] at hread hcourse
  refine ⟨(readLine source).2, ?_, hfaults, ?_⟩
  · rcases linesOf_cases text with ⟨hfeed, hl⟩ | ⟨line, rest, rfl, hfeed, hl⟩
    · rw [readLine_last hfeed] at hread
      exact takeHeader_of_line hne (by rw [columnsOf, hl]; rfl) hread
    · rw [readLine_line hfeed] at hread
      refine takeHeader_of_line (by simp) ?_ hread
      rw [columnsOf, hl, cells_lineFeed]
      rfl
  · intro hcells
    have hlines : ∀ l ∈ (linesOf text).tail, isBlankLine l = false →
        (cells l).length = (columnsOf text).length := by
      intro l hl hblank
      exact hcells l (List.mem_filter.mpr ⟨hl, by simp [hblank]⟩)
    rw [hcourse]
    rcases linesOf_cases text with ⟨hfeed, hl⟩ | ⟨line, rest, ht, hfeed, hl⟩
    · rw [readLine_last hfeed, course_empty, bodyOf, hl]
      rfl
    · rw [hl] at hlines
      rw [bodyOf, hl]
      generalize columnsOf text = columns at hlines ⊢
      rw [ht, readLine_line hfeed, course_text rest hlines]
      rfl

/-! ## Lines of any source -/

/-- What was read of a line has no line feed but at its end, and then no fault has stopped
the reading. -/
theorem readLine_text {source : Source} {text : String}
    (ht : Text.text? (readLine source).1.bytes = some text) :
    '\n' ∉ text.toList ∨
      (readLine source).1.fault = none ∧ ∃ l, text = l ++ "\n" ∧ '\n' ∉ l.toList := by
  have hbytes : (readLine source).1.bytes = Text.utf8 text := Text.text?_eq_some_iff.mp ht
  rcases linesOf_cases text with ⟨hfeed, -⟩ | ⟨l, rest, rfl, hfeed, -⟩
  · exact .inl hfeed
  · have hcut := cutLine_line hfeed rest
    rw [← hbytes] at hcut
    rcases readLine_cases source with ⟨f, -, hnone⟩ | ⟨hfault, hsome | ⟨hnone, hall, -⟩⟩
    · exact absurd (hcut.symm.trans hnone) (by simp)
    · -- the bytes up to the first line feed are those of the whole text
      refine .inr ⟨hfault, l, ?_, hfeed⟩
      rw [cutLine_eq hsome, cutLine_append_of_some hcut] at hsome
      obtain ⟨hfirst, -⟩ := Prod.mk.inj (Option.some.inj hsome)
      rw [hbytes] at hfirst
      exact (Text.utf8_injective hfirst).symm
    · rw [hall] at hcut
      exact absurd (hcut.symm.trans hnone) (by simp)

/-- A row has come of a line that is not blank and has a cell for each column. -/
structure OfLine (columns : List String) (row : Row) (line : String) : Prop where
  row_eq : row = rowOf columns line
  whole : (cells line).length = columns.length
  not_blank : isBlankLine line = false
  one_line : '\n' ∉ lineText line.toList

theorem lineFeed_not_mem_lineText {source : Source} {text : String}
    (hline : '\n' ∉ line.toList) (ht : Text.text? (readLine source).1.bytes = some text) :
    '\n' ∉ lineText (line ++ text).toList := by
  have hpart : ∀ l : String, '\n' ∉ l.toList → '\n' ∉ lineText (line ++ l).toList := by
    intro l hl hm
    have hm := (List.rdropWhile_prefix isLineEnd _).subset hm
    rw [String.toList_append] at hm
    exact (List.mem_append.mp hm).elim hline hl
  rcases readLine_text ht with hfeed | ⟨-, l, rfl, hl⟩
  · exact hpart text hfeed
  · rw [← String.append_assoc, lineText_lineFeed]
    exact hpart l hl

theorem judgeLine_row {row : Row} (h : judgeLine columns n line = .row row) :
    row = rowOf columns line ∧ (cells line).length = columns.length ∧
      isBlankLine line = false := by
  rw [judgeLine] at h
  split at h
  · exact absurd h (by simp)
  next hblank =>
  cases hp : RowStream.parseRow columns (n + 1) line with
  | error f => exact absurd h (by simp [hp])
  | ok row' =>
      obtain rfl : row' = row := by simpa [hp] using h
      rw [RowStream.parseRow] at hp
      split at hp
      · next hlen => exact ⟨(Except.ok.inj hp).symm, hlen, by simpa [isBlankLine] using hblank⟩
      · exact absurd hp (by simp)

theorem ofLine_of_mem_course {s : Source} {row : Row} (hline : '\n' ∉ line.toList)
    (h : row ∈ (course columns n line s).items) : ∃ l, OfLine columns row l := by
  have hstart : '\n' ∉ ("" : String).toList := List.not_mem_nil
  fun_induction course columns n line s with
  | case1 n line s rest hj ih =>
      refine ih ?_ h
      obtain ⟨f, hf, hk⟩ := fault_of_wait hj
      simp only [judge, hf, if_pos hk] at hj
      obtain rfl := Verdict.wait.inj hj
      cases ht : Text.text? (readLine s).1.bytes with
      | none => simpa using hline
      | some text =>
          rcases readLine_text ht with hfeed | ⟨hnone, -⟩
          · simp [hline, hfeed]
          · exact absurd (hnone.symm.trans hf) (by simp)
  | case2 n line s e hj => exact absurd h List.not_mem_nil
  | case3 n line s hj ih => exact ih hstart h
  | case4 n line s row' hj ih =>
      rcases List.mem_cons.mp h with rfl | h
      · obtain ⟨hf, -⟩ := fault_of_line hj (by simp) (by simp)
        simp only [judge, hf] at hj
        split at hj
        · exact absurd hj (by simp)
        next text ht =>
        split at hj
        · exact absurd hj (by simp)
        · obtain ⟨hrow, hlen, hblank⟩ := judgeLine_row hj
          exact ⟨_, hrow, hlen, hblank, lineFeed_not_mem_lineText hline ht⟩
      · exact ih hstart h

end Table

end ExternalSort
