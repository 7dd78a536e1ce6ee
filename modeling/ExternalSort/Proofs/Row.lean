/-
Rows that are made of named values.

A name that is set again keeps its place and loses its value, so a row made of
named values has their distinct names in the order in which they came
(`Row.names_ofList`).  It has all the values only if no name came twice
(`Row.fields_ofList_of_nodup`).
-/
import ExternalSort.Row

namespace ExternalSort.Row

variable {name : String} {v : Value} {fs : List (String × Value)} {g : String × Value} {row : Row}

theorem fields_set (row : Row) (name : String) (v : Value) :
    (row.set name v).fields = setField name v row.fields := rfl

theorem setField_of_not_mem (h : name ∉ fs.map Prod.fst) :
    setField name v fs = fs ++ [(name, v)] := by
  induction fs with
  | nil => rfl
  | cons f fs ih =>
      rw [List.map_cons] at h
      obtain ⟨hf, h⟩ := not_or.mp fun e => h (List.mem_cons.mpr e)
      rw [setField, if_neg fun e => hf e.symm, ih h]
      rfl

theorem mem_setField (h : g ∈ setField name v fs) : g ∈ fs ∨ g = (name, v) := by
  induction fs with
  | nil => exact .inr (List.mem_singleton.mp h)
  | cons f fs ih =>
      rw [setField] at h
      split at h
      · next hf =>
        rcases List.mem_cons.mp h with hg | hg
        · exact .inr (hf ▸ hg)
        · exact .inl (List.mem_cons_of_mem _ hg)
      · rcases List.mem_cons.mp h with hg | hg
        · exact .inl (hg ▸ List.mem_cons_self)
        · exact (ih hg).imp_left (List.mem_cons_of_mem _)

/-- Names that are set after others come behind them, each where it stands
first. -/
theorem names_foldl_set (fs : List (String × Value)) (row : Row) :
    (fs.foldl (fun r f => r.set f.1 f.2) row).fields.map Prod.fst =
      row.fields.map Prod.fst ++
        ((fs.map Prod.fst).removeAll (row.fields.map Prod.fst)).eraseDups := by
  induction fs generalizing row with
  | nil => simp
  | cons f fs ih =>
      rw [List.foldl_cons, ih, fields_set, map_fst_setField, List.map_cons, List.cons_removeAll]
      generalize row.fields.map Prod.fst = names
      by_cases hf : f.1 ∈ names
      · rw [if_pos hf, if_neg (by simpa using hf)]
      · have hrest : (fs.map Prod.fst).removeAll (names ++ [f.1]) =
            ((fs.map Prod.fst).removeAll names).filter fun b => !b == f.1 := by
          rw [List.removeAll, List.removeAll, List.filter_filter]
          refine List.filter_congr ?_
          intro b _
          rw [Bool.eq_iff_iff]
          simp [and_comm]
        rw [if_neg hf, if_pos (by simpa using hf), List.eraseDups_cons, hrest, List.append_assoc,
          List.singleton_append]

theorem mem_foldl_set (h : g ∈ (fs.foldl (fun r f => r.set f.1 f.2) row).fields) :
    g ∈ row.fields ∨ g ∈ fs := by
  induction fs generalizing row with
  | nil => exact .inl h
  | cons f fs ih =>
      rcases ih h with hg | hg
      · rcases mem_setField hg with hg | rfl
        · exact .inl hg
        · exact .inr List.mem_cons_self
      · exact .inr (List.mem_cons_of_mem _ hg)

/-- A row has the distinct names of what it was made of, each where it stands
first. -/
theorem names_ofList (fs : List (String × Value)) :
    (ofList fs).fields.map Prod.fst = (fs.map Prod.fst).eraseDups := by
  have hall : (fs.map Prod.fst).removeAll [] = fs.map Prod.fst := by simp [List.removeAll]
  rw [ofList, names_foldl_set, show empty.fields = [] from rfl, List.map_nil, hall, List.nil_append]

theorem mem_of_mem_ofList (h : g ∈ (ofList fs).fields) : g ∈ fs :=
  (mem_foldl_set h).resolve_left List.not_mem_nil

theorem eq_map_of_names {f : String → Value} {names : List String} (hn : fs.map Prod.fst = names)
    (hf : ∀ g ∈ fs, g.2 = f g.1) : fs = names.map fun n => (n, f n) := by
  subst hn
  rw [List.map_map]
  refine (List.map_id fs).symm.trans (List.map_congr_left ?_)
  intro g hg
  rw [Function.comp_apply, ← hf g hg]
  rfl

theorem fields_ofList (columns : List String) (f : String → Value) :
    (ofList (columns.map fun n => (n, f n))).fields =
      columns.eraseDups.map fun n => (n, f n) := by
  refine eq_map_of_names ?_ ?_
  · rw [names_ofList, List.map_map]
    exact congrArg List.eraseDups (List.map_id columns)
  · intro g hg
    obtain ⟨n, -, rfl⟩ := List.mem_map.mp (mem_of_mem_ofList hg)
    rfl

theorem foldl_set_of_nodup (h : ((row.fields ++ fs).map Prod.fst).Nodup) :
    (fs.foldl (fun r f => r.set f.1 f.2) row).fields = row.fields ++ fs := by
  induction fs generalizing row with
  | nil => simp
  | cons f fs ih =>
      have hf : f.1 ∉ row.fields.map Prod.fst := by
        rw [List.map_append, List.map_cons] at h
        intro hm
        exact (List.nodup_append.mp h).2.2 f.1 hm f.1 List.mem_cons_self rfl
      have hset : (row.set f.1 f.2).fields = row.fields ++ [f] := setField_of_not_mem hf
      rw [List.foldl_cons, ih (by rwa [hset, List.append_assoc, List.singleton_append]), hset,
        List.append_assoc, List.singleton_append]

/-- If no name comes twice, a row is what it was made of. -/
theorem fields_ofList_of_nodup (h : (fs.map Prod.fst).Nodup) : (ofList fs).fields = fs :=
  foldl_set_of_nodup h

theorem eq_of_fields {r s : Row} (h : r.fields = s.fields) : r = s := by
  cases r
  cases s
  cases h
  rfl

theorem get?_of_mem (h : g ∈ row.fields) : row.get? g.1 = some g.2 := by
  obtain ⟨fields, hd⟩ := row
  rw [get?]
  dsimp only at h ⊢
  induction fields with
  | nil => exact absurd h List.not_mem_nil
  | cons f fields ih =>
      obtain ⟨hf, hd⟩ := List.nodup_cons.mp hd
      obtain rfl | h := List.mem_cons.mp h
      · exact List.lookup_cons_self
      · have hne : (g.1 == f.1) = false :=
          beq_eq_false_iff_ne.mpr fun e => hf (e ▸ List.mem_map_of_mem h)
        rw [List.lookup_cons, hne]
        exact ih hd h

theorem fields_eq (row : Row) :
    row.fields = (row.fields.map Prod.fst).map fun n => (n, (row.get? n).getD .null) := by
  refine eq_map_of_names rfl ?_
  intro g hg
  rw [get?_of_mem hg, Option.getD_some]

/-! ## Names that come twice -/

theorem lookup_setField (name : String) (v : Value) (fs : List (String × Value)) (n : String) :
    (setField name v fs).lookup n = if n = name then some v else fs.lookup n := by
  induction fs with
  | nil =>
      rw [setField, List.lookup_cons]
      by_cases h : n = name
      · simp [h]
      · simp [h, beq_false_of_ne h]
  | cons f fs ih =>
      obtain ⟨k, w⟩ := f
      rw [setField]
      split
      · next hk =>
        rw [List.lookup_cons, List.lookup_cons, hk]
        by_cases h : n = name
        · simp [h]
        · simp [h, beq_false_of_ne h]
      · next hk =>
        rw [List.lookup_cons, List.lookup_cons, ih]
        by_cases h : n = k
        · simp [h, hk]
        · simp [beq_false_of_ne h]

theorem get?_foldl_set (fs : List (String × Value)) (row : Row) (n : String) :
    (fs.foldl (fun r f => r.set f.1 f.2) row).get? n = (fs.reverse.lookup n).or (row.get? n) := by
  induction fs generalizing row with
  | nil => rfl
  | cons f fs ih =>
      have hset : (row.set f.1 f.2).get? n = ([f].lookup n).or (row.get? n) := by
        rw [get?, fields_set, lookup_setField, get?, List.lookup_cons]
        by_cases h : n = f.1
        · simp [h]
        · simp [h, beq_false_of_ne h]
      rw [List.foldl_cons, ih, hset, List.reverse_cons, List.lookup_append, Option.or_assoc]

theorem values_ofList (fs : List (String × Value)) :
    (ofList fs).values = (fs.map Prod.fst).eraseDups.map fun n =>
      (fs.reverse.lookup n).getD .null := by
  have hget : ∀ n, (ofList fs).get? n = fs.reverse.lookup n := by
    intro n
    rw [ofList, get?_foldl_set]
    exact Option.or_none
  rw [values, fields_eq, names_ofList, List.map_map]
  refine List.map_congr_left ?_
  intro n _
  rw [Function.comp_apply, hget]

end ExternalSort.Row
