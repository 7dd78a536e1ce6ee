/-
The text of a table.

The cells of a line that was read can stand in a line again (`fits_cells`): there
is no tab in them, no line feed, and the last one does not end as lines do.  Of
cells that can, the line has just these cells (`Fits.cells_joined`), and a text of
such lines has just these lines (`columnsOf_tableText`, `bodyOf_tableText`).
-/
import ExternalSort.Proofs.Binary64.Text
import ExternalSort.Proofs.Table.Text
import ExternalSort.Proofs.Text.Ends
import ExternalSort.Proofs.Text.Pieces
import ExternalSort.Table.Sort
import Mathlib.Data.List.DropRight

namespace ExternalSort

namespace Table

/-! ## Cells of one line -/

/-- A line of some cells. -/
def joined (ws : List String) : String := "\t".intercalate ws

/-- Some cells can stand in one line: there is no tab and no line feed in them, and the
last one does not end as lines do. -/
structure Fits (ws : List String) : Prop where
  ne_nil : ws ≠ []
  plain : ∀ w ∈ ws, '\t' ∉ w.toList ∧ '\n' ∉ w.toList
  last : ∀ w ∈ ws.getLast?, ∀ c ∈ w.toList.getLast?, isLineEnd c = false

variable {line : String} {ws : List String} {w : String}

theorem toList_joined (ws : List String) :
    (joined ws).toList = ['\t'].intercalate (ws.map String.toList) := by
  rw [joined, String.toList_intercalate]
  rfl

theorem map_toList_cells (line : String) :
    (cells line).map String.toList = (lineText line.toList).splitOn '\t' := by
  rw [cells, Text.pieces_eq_splitOnP, List.map_map, List.splitOn]
  exact List.map_id'' (fun _ => String.toList_ofList) _

theorem joined_cells (line : String) : (joined (cells line)).toList = lineText line.toList := by
  rw [toList_joined, map_toList_cells, List.intercalate_splitOn]

theorem lineText_eq_self {cs : List Char} :
    lineText cs = cs ↔ ∀ c ∈ cs.getLast?, isLineEnd c = false :=
  Text.dropRightWhile_eq_self

theorem ends_joined (h : w ∈ ws.getLast?) :
    (∀ c ∈ (joined ws).toList.getLast?, isLineEnd c = false) ↔
      ∀ c ∈ w.toList.getLast?, isLineEnd c = false := by
  obtain ⟨ini, rfl⟩ := List.getLast?_eq_some_iff.mp h
  by_cases hini : ini = []
  · subst hini
    rw [List.nil_append, joined, String.intercalate_singleton]
  · rw [joined, String.intercalate_append_of_ne_nil hini (by simp), String.intercalate_singleton,
      String.toList_append, List.getLast?_append, String.toList_append, List.getLast?_append]
    cases hw : w.toList.getLast? with
    | some c => rfl
    | none => simp [isLineEnd]

/-- The cells of a line can stand in one. -/
theorem fits_cells (h : '\n' ∉ lineText line.toList) : Fits (cells line) := by
  have hjoined := joined_cells line
  refine ⟨?_, ?_, ?_⟩
  · intro hnil
    have hsplit := map_toList_cells line
    rw [hnil] at hsplit
    exact absurd hsplit.symm (List.splitOn_ne_nil _ _)
  · intro w hw
    obtain ⟨cs, hcs, rfl⟩ := List.mem_map.mp hw
    rw [String.toList_ofList]
    constructor
    · intro hm
      exact absurd (Text.of_mem_pieces hcs _ hm).1 (by decide)
    · intro hm
      exact h (Text.of_mem_pieces hcs _ hm).2
  · intro w hw
    rw [← ends_joined hw, hjoined, ← lineText_eq_self]
    exact List.rdropWhile_idempotent isLineEnd _

theorem Fits.lineText_joined (h : Fits ws) : lineText (joined ws).toList = (joined ws).toList := by
  have hlast := List.getLast?_eq_some_getLast h.ne_nil
  rw [lineText_eq_self, ends_joined hlast]
  exact h.last _ hlast

/-- A line has the cells that were joined. -/
theorem Fits.cells_joined (h : Fits ws) : cells (joined ws) = ws := by
  have hinj : Function.Injective (List.map String.toList) :=
    List.map_injective_iff.mpr fun _ _ hs => String.toList_inj.mp hs
  refine hinj ?_
  rw [map_toList_cells, h.lineText_joined, toList_joined]
  refine List.splitOn_intercalate '\t' ?_ ?_
  · intro cs hcs
    obtain ⟨w, hw, rfl⟩ := List.mem_map.mp hcs
    exact (h.plain w hw).1
  · simpa using h.ne_nil

theorem Fits.lineFeed_not_mem (h : Fits ws) : '\n' ∉ (joined ws).toList := by
  have hall : ∀ {ls : List (List Char)}, (∀ l ∈ ls, '\n' ∉ l) → '\n' ∉ ['\t'].intercalate ls := by
    intro ls hls hm
    induction ls with
    | nil => exact absurd hm List.not_mem_nil
    | cons l ls ih =>
        by_cases hnil : ls = []
        · rw [hnil, List.intercalate_singleton] at hm
          exact hls l List.mem_cons_self hm
        · rw [List.intercalate_cons_of_ne_nil hnil] at hm
          simp only [List.mem_append, List.mem_singleton] at hm
          rcases hm with (hm | hm) | hm
          · exact hls l List.mem_cons_self hm
          · exact absurd hm (by decide)
          · exact ih (fun l hl => hls l (List.mem_cons_of_mem _ hl)) hm
  rw [toList_joined]
  refine hall ?_
  intro cs hcs
  obtain ⟨w, hw, rfl⟩ := List.mem_map.mp hcs
  exact (h.plain w hw).2

theorem Fits.isBlankLine_joined (h : Fits ws) (hb : isBlankLine (joined ws) = true) : ws = [""] := by
  rw [isBlankLine, h.lineText_joined, List.isEmpty_iff] at hb
  have hcells := h.cells_joined
  rw [cells, hb] at hcells
  exact hcells.symm

theorem isBlankLine_of_cells (h : cells line = [""]) : isBlankLine line = true := by
  rw [isBlankLine, ← joined_cells, h]
  rfl

/-! ## Tables -/

/-- Lines of cells, each with its line feed. -/
def tableText (lines : List (List String)) : String :=
  String.join (lines.map fun ws => joined ws ++ "\n")

variable {header : List String} {lines : List (List String)}

theorem tableText_cons (ws : List String) (lines : List (List String)) :
    tableText (ws :: lines) = joined ws ++ "\n" ++ tableText lines := by
  refine String.toList_inj.mp ?_
  simp [tableText, String.toList_join]

theorem utf8_tableText (lines : List (List String)) : Text.utf8 (tableText lines) =
    (lines.map fun ws => joined ws ++ "\n").flatMap Text.utf8 := by
  induction lines with
  | nil => rfl
  | cons ws lines ih => rw [tableText_cons, Text.utf8_append, ih, List.map_cons, List.flatMap_cons]

theorem linesOf_line (h : '\n' ∉ line.toList) (rest : String) :
    linesOf (line ++ "\n" ++ rest) = line :: linesOf rest := by
  have hsplit : ∀ text : String, linesOf text = (text.toList.splitOn '\n').map String.ofList := by
    intro text
    rw [linesOf, Text.pieces_eq_splitOnP]
    rfl
  have hfeed : ("\n" : String).toList = ['\n'] := rfl
  rw [hsplit, hsplit, String.toList_append, String.toList_append, List.append_assoc, hfeed,
    List.singleton_append, List.splitOn_append_cons_self_of_not_mem h, List.map_cons,
    String.ofList_toList]

theorem linesOf_tableText (h : ∀ ws ∈ lines, Fits ws) :
    linesOf (tableText lines) = lines.map joined ++ [""] := by
  induction lines with
  | nil => rfl
  | cons ws lines ih =>
      obtain ⟨hws, h⟩ := List.forall_mem_cons.mp h
      rw [tableText_cons, linesOf_line hws.lineFeed_not_mem, ih h]
      rfl

/-- The columns that were written are read. -/
theorem columnsOf_tableText (h : ∀ ws ∈ header :: lines, Fits ws) :
    columnsOf (tableText (header :: lines)) = header := by
  rw [columnsOf, linesOf_tableText h]
  exact (h header List.mem_cons_self).cells_joined

/-- The lines that were written are read, if none of them is blank. -/
theorem bodyOf_tableText (h : ∀ ws ∈ header :: lines, Fits ws) (hne : ∀ ws ∈ lines, ws ≠ [""]) :
    bodyOf (tableText (header :: lines)) = lines.map joined := by
  have hblank : isBlankLine "" = true := rfl
  rw [bodyOf, linesOf_tableText h, List.map_cons, List.cons_append, List.tail_cons,
    List.filter_append, List.filter_eq_self.mpr]
  · simp [hblank]
  · intro line hline
    obtain ⟨ws, hws, rfl⟩ := List.mem_map.mp hline
    rw [Bool.not_eq_true', Bool.eq_false_iff]
    exact fun hb => hne ws hws ((h ws (List.mem_cons_of_mem _ hws)).isBlankLine_joined hb)

end Table

end ExternalSort
