/-
Names inside a directory.

A name that leads neither further down nor back up (`Path.IsName`) is the last one of the
path of a file in a directory, after those of the directory, however the path of the directory
is written (`Path.names_join`, `Path.parts_join`).
-/
import ExternalSort.Path
import ExternalSort.Proofs.Text.Pieces

namespace ExternalSort.Path

/-- A text that is the name of one thing in a directory. -/
structure IsName (name : String) : Prop where
  ne_empty : name ≠ ""
  ne_here : name ≠ "."
  ne_up : name ≠ ".."
  no_slash : '/' ∉ name.toList

variable {name : String}

theorem IsName.head_ne (h : IsName name) : name.toList.head? ≠ some '/' := fun hs =>
  h.no_slash (List.mem_of_head? hs)

theorem names_append (front back : String) :
    names ⟨front ++ "/" ++ back⟩ = names ⟨front⟩ ++ names ⟨back⟩ := by
  have hlist : (front ++ "/" ++ back).toList = front.toList ++ '/' :: back.toList := by simp
  rw [names, hlist, Text.pieces_append rfl, List.map_append, List.filter_append]
  rfl

theorem names_name (h : IsName name) : names ⟨name⟩ = [name] := by
  have hpiece : Text.pieces (· == '/') name.toList = [name.toList] := by
    refine Text.pieces_eq_singleton ?_
    intro c hc
    have : c ≠ '/' := fun he => h.no_slash (he ▸ hc)
    simpa using this
  rw [names, hpiece]
  simp [h.ne_empty]

theorem endsOpen_cases {dir : Path} (h : dir.endsOpen = true) :
    dir = ⟨""⟩ ∨ ∃ front, dir = ⟨front ++ "/"⟩ := by
  obtain ⟨text⟩ := dir
  rw [endsOpen, Bool.or_eq_true, String.isEmpty_iff, beq_iff_eq] at h
  refine h.imp (congrArg mk) ?_
  intro hlast
  obtain ⟨cs, hcs⟩ := List.getLast?_eq_some_iff.mp hlast
  refine ⟨String.ofList cs, congrArg mk (String.toList_inj.mp ?_)⟩
  rw [hcs, String.toList_append, String.toList_ofList]
  rfl

theorem names_join (h : IsName name) (dir : Path) :
    (dir.join name).names = dir.names ++ [name] := by
  rw [join, if_neg h.head_ne]
  split
  · next hopen =>
    rcases endsOpen_cases hopen with rfl | ⟨front, rfl⟩
    · rw [String.empty_append, names_name h]
      rfl
    · have hfront : names ⟨front ++ "/"⟩ = names ⟨front⟩ := by
        rw [← String.append_empty (s := front ++ "/"), names_append]
        exact List.append_nil _
      rw [names_append, names_name h, hfront]
  · rw [names_append, names_name h]

theorem head_join (h : IsName name) (dir : Path) :
    (dir.join name).text.toList.head? = some '/' ↔ dir.text.toList.head? = some '/' := by
  rw [join, if_neg h.head_ne]
  split
  · cases hd : dir.text.toList with
    | nil => simp [hd, h.head_ne]
    | cons c cs => simp [hd]
  · next hopen =>
    cases hd : dir.text.toList with
    | nil => exact absurd (by simp [endsOpen, String.toList_eq_nil_iff.mp hd]) hopen
    | cons c cs => simp [hd]

/-- In a directory stands what has one more part, its name. -/
theorem parts_join (h : IsName name) (dir : Path) :
    (dir.join name).parts = dir.parts ++ [name] := by
  have hstart : ((dir.names ++ [name]).take 1).filter (· == ".") =
      (dir.names.take 1).filter (· == ".") := by
    cases dir.names with
    | nil => simp [h.ne_here]
    | cons n ns => rfl
  have hname : [name].filter (· != ".") = [name] := by
    simp [h.ne_here]
  rw [parts, parts, names_join h, List.filter_append, hname, hstart]
  simp only [head_join h, List.append_assoc]

end ExternalSort.Path
