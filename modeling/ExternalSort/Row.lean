/-
Rows: ordered lists of named values.

No name stands twice in a row.  Setting a name that is there already
replaces its value and keeps its place.
-/
import ExternalSort.HasFields
import ExternalSort.Total

namespace ExternalSort

/-- An ordered list of named values with distinct names. -/
structure Row where
  fields : List (String × Value)
  nodup : (fields.map Prod.fst).Nodup := by decide
deriving DecidableEq

namespace Row

def empty : Row := ⟨[], List.nodup_nil⟩

instance : Inhabited Row := ⟨empty⟩

/-- Sets a name in a list of fields: in its place if it is there, else at
the end. -/
def setField (name : String) (v : Value) : List (String × Value) → List (String × Value)
  | [] => [(name, v)]
  | (n, w) :: fs => if n = name then (n, v) :: fs else (n, w) :: setField name v fs

theorem map_fst_setField (name : String) (v : Value) (fs : List (String × Value)) :
    (setField name v fs).map Prod.fst =
      if name ∈ fs.map Prod.fst then fs.map Prod.fst else fs.map Prod.fst ++ [name] := by
  induction fs with
  | nil => rfl
  | cons f fs ih =>
    obtain ⟨n, w⟩ := f
    by_cases h : n = name
    · simp [setField, h]
    · have h' : ¬name = n := fun e => h e.symm
      simp only [setField, h, if_false, List.map_cons, ih, List.mem_cons, h', false_or]
      split <;> simp

theorem nodup_setField (name : String) (v : Value) {fs : List (String × Value)}
    (h : (fs.map Prod.fst).Nodup) : ((setField name v fs).map Prod.fst).Nodup := by
  rw [map_fst_setField]
  split
  · exact h
  · next hn =>
    rw [List.nodup_append]
    refine ⟨h, by simp, ?_⟩
    intro a ha b hb e
    simp only [List.mem_singleton] at hb
    exact hn (hb ▸ e ▸ ha)

/-- Sets a name to a value. -/
def set (r : Row) (name : String) (v : Value) : Row :=
  ⟨setField name v r.fields, nodup_setField name v r.nodup⟩

/-- The row of some named values, set one after the other. -/
def ofList (fs : List (String × Value)) : Row := fs.foldl (fun r f => r.set f.1 f.2) empty

/-- The value of a name. -/
def get? (r : Row) (name : String) : Option Value := r.fields.lookup name

def length (r : Row) : Nat := r.fields.length

def values (r : Row) : List Value := r.fields.map Prod.snd

/-- How many bytes a row is estimated to take: its names and its values. -/
def size (r : Row) : Nat :=
  total (fun f => f.1.utf8ByteSize + f.2.size) r.fields

/-- Whether two rows have the same names in the same order, with values
that are equal as values. -/
def sameRow (r s : Row) : Bool :=
  r.fields.length == s.fields.length &&
    (r.fields.zip s.fields).all fun (f, g) => f.1 == g.1 && f.2.sameValue g.2

instance : HasFields Row := ⟨get?⟩

end Row

end ExternalSort
