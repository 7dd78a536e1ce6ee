/-
The pieces of a text between separators.
-/
import ExternalSort.Text.Blank

namespace ExternalSort.Text

theorem pieces_eq_splitOnP (p : Char → Bool) (cs : List Char) :
    pieces p cs = cs.splitOnP p := by
  induction cs with
  | nil => rfl
  | cons c cs ih =>
      rw [pieces, List.splitOnP_cons_eq_if_modifyHead, ih]
      split
      · rfl
      · cases hs : cs.splitOnP p with
        | nil => exact absurd hs (List.splitOnP_ne_nil p cs)
        | cons w ws => rfl

theorem of_mem_pieces {p : Char → Bool} {cs piece : List Char}
    (h : piece ∈ pieces p cs) : ∀ c ∈ piece, p c = false ∧ c ∈ cs := by
  induction cs generalizing piece with
  | nil =>
      obtain rfl := List.mem_singleton.mp h
      exact fun _ hc => absurd hc List.not_mem_nil
  | cons d cs ih =>
      intro c hc
      rw [pieces] at h
      split at h
      · rcases List.mem_cons.mp h with rfl | h
        · exact absurd hc List.not_mem_nil
        · exact ⟨(ih h c hc).1, List.mem_cons_of_mem d (ih h c hc).2⟩
      · next hd =>
        have hd : p d = false := Bool.eq_false_iff.mpr hd
        cases hp : pieces p cs with
        | nil =>
            rw [pieces_eq_splitOnP] at hp
            exact absurd hp (List.splitOnP_ne_nil p cs)
        | cons w ws =>
            rw [hp] at h ih
            rcases List.mem_cons.mp h with rfl | h
            · rcases List.mem_cons.mp hc with rfl | hc
              · exact ⟨hd, List.mem_cons_self⟩
              · have := ih List.mem_cons_self c hc
                exact ⟨this.1, List.mem_cons_of_mem d this.2⟩
            · have := ih (List.mem_cons_of_mem w h) c hc
              exact ⟨this.1, List.mem_cons_of_mem d this.2⟩

theorem pieces_append {p : Char → Bool} {c : Char} (h : p c = true) (cs ds : List Char) :
    pieces p (cs ++ c :: ds) = pieces p cs ++ pieces p ds := by
  rw [pieces_eq_splitOnP, List.splitOnP_append_cons cs ds h, pieces_eq_splitOnP, pieces_eq_splitOnP]

theorem pieces_eq_singleton {p : Char → Bool} {cs : List Char} (h : ∀ c ∈ cs, p c = false) :
    pieces p cs = [cs] := by
  rw [pieces_eq_splitOnP, List.splitOnP_eq_singleton h]

end ExternalSort.Text
