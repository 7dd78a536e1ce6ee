/-
The ends of a text, and what cutting characters of a class off them leaves.
-/
import ExternalSort.Text.Blank
import Mathlib.Data.List.DropRight
import Mathlib.Data.List.TakeWhile

namespace ExternalSort.Text

variable {p : Char → Bool} {cs : List Char}

theorem dropWhile_eq_self : cs.dropWhile p = cs ↔ ∀ c ∈ cs.head?, p c = false := by
  cases cs with
  | nil => simp
  | cons c cs => simp [List.dropWhile_eq_self_iff]

theorem dropRightWhile_eq_self :
    dropRightWhile p cs = cs ↔ ∀ c ∈ cs.getLast?, p c = false := by
  rw [show dropRightWhile p cs = cs.rdropWhile p from rfl, List.rdropWhile_eq_self_iff]
  constructor
  · intro h c hc
    obtain ⟨hne, rfl⟩ := List.mem_getLast?_eq_getLast hc
    simpa using h hne
  · intro h hne
    simpa using h _ (List.getLast_mem_getLast? hne)

/-- No blank begins a text or ends it. -/
structure Trimmed (cs : List Char) : Prop where
  first : ∀ c ∈ cs.head?, isBlank c = false
  last : ∀ c ∈ cs.getLast?, isBlank c = false

theorem trimmed_trim (cs : List Char) : Trimmed (trim cs) where
  first := by
    intro c hc
    obtain ⟨rest, hrest⟩ : trim cs <+: cs.dropWhile isBlank := List.rdropWhile_prefix isBlank _
    refine dropWhile_eq_self.mp (List.dropWhile_idempotent isBlank cs) c ?_
    rw [← hrest, List.head?_append, Option.mem_def.mp hc]
    rfl
  last := dropRightWhile_eq_self.mp (List.rdropWhile_idempotent isBlank _)

theorem trim_eq_self : trim cs = cs ↔ Trimmed cs := by
  constructor
  · intro h
    exact h ▸ trimmed_trim cs
  · intro h
    rw [trim, dropWhile_eq_self.mpr h.first, dropRightWhile_eq_self.mpr h.last]

theorem trim_sublist (cs : List Char) : (trim cs).Sublist cs :=
  (List.rdropWhile_prefix isBlank _).sublist.trans (List.dropWhile_sublist isBlank)

end ExternalSort.Text
