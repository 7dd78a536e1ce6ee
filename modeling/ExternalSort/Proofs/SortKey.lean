/-
Sort keys that are printed and read again.

A descending key is printed behind a minus sign, and an ascending one as its
name alone.  Reading takes one sign off, whatever comes after it.  So a name
that itself begins with a sign, or with a blank, can be given behind a plus
sign, but the key is printed without it, and then the beginning of its name
is taken for something else.  All other keys are read back as they were
(`printed_keys_read_back`).
-/
import ExternalSort.Proofs.Text.Ends
import ExternalSort.Proofs.Text.Pieces
import ExternalSort.SortKey

namespace ExternalSort.SortKey

variable {s : String} {f : SortKey} {keys : List SortKey} {cs : List Char} {c : Char}

/-! ## Single keys -/

/-- A key that was read: its name is not empty, and no blank ends it. -/
structure Named (f : SortKey) : Prop where
  nonempty : f.name.toList ≠ []
  last : ∀ c ∈ f.name.toList.getLast?, Text.isBlank c = false

/-- A key whose text shows its direction and where its name begins. -/
def Legible (f : SortKey) : Prop :=
  f.direction = .ascending →
    ∀ c ∈ f.name.toList.head?, c ≠ '-' ∧ c ≠ '+' ∧ Text.isBlank c = false

instance (f : SortKey) : Decidable f.Legible :=
  decidable_of_iff (f.direction = .ascending → f.name.toList.head?.all
      fun c => c ≠ '-' && c ≠ '+' && !Text.isBlank c) <| by
    rw [Legible]
    cases f.name.toList.head? <;> simp [and_assoc]

/-- What a text without blanks around it gives: what is behind its sign, or all
of it if there is none. -/
theorem signed_cases (cs : List Char) :
    (∃ r, cs = '-' :: r ∧ signed cs = (.descending, r)) ∨
      (∃ r, cs = '+' :: r ∧ signed cs = (.ascending, r)) ∨
      signed cs = (.ascending, cs) ∧ ∀ c ∈ cs.head?, c ≠ '-' ∧ c ≠ '+' := by
  unfold signed
  split
  · exact .inl ⟨_, rfl, rfl⟩
  · exact .inr (.inl ⟨_, rfl, rfl⟩)
  · next hminus hplus =>
    refine .inr (.inr ⟨rfl, ?_⟩)
    intro c hc
    obtain ⟨r, rfl⟩ := List.head?_eq_some_iff.mp hc
    exact ⟨fun h => hminus r (h ▸ rfl), fun h => hplus r (h ▸ rfl)⟩

theorem signed_suffix (cs : List Char) : (signed cs).2 <:+ cs := by
  rcases signed_cases cs with ⟨r, rfl, h⟩ | ⟨r, rfl, h⟩ | ⟨h, -⟩
  · rw [h]
    exact List.suffix_cons _ r
  · rw [h]
    exact List.suffix_cons _ r
  · exact (congrArg Prod.snd h) ▸ List.suffix_rfl

theorem parse_eq_ok : parse s = .ok f ↔
    signed (Text.trim s.toList) = (f.direction, f.name.toList) ∧ f.name.toList ≠ [] := by
  obtain ⟨name, direction⟩ := f
  rw [parse]
  cases hs : signed (Text.trim s.toList) with
  | mk d cs =>
      cases cs with
      | nil =>
          simp only [List.isEmpty_nil, if_true, reduceCtorEq, Prod.mk.injEq, false_iff]
          rintro ⟨⟨-, hnil⟩, hne⟩
          exact hne hnil.symm
      | cons c cs =>
          simp only [List.isEmpty_cons, Bool.false_eq_true, if_false, Except.ok.injEq,
            SortKey.mk.injEq, Prod.mk.injEq]
          constructor
          · rintro ⟨rfl, rfl⟩
            simp
          · rintro ⟨⟨rfl, hname⟩, -⟩
            exact ⟨by rw [hname, String.ofList_toList], rfl⟩

theorem name_suffix (h : parse s = .ok f) : f.name.toList <:+ Text.trim s.toList := by
  have hs := signed_suffix (Text.trim s.toList)
  rwa [(parse_eq_ok.mp h).1] at hs

theorem named_of_parse (h : parse s = .ok f) : f.Named where
  nonempty := (parse_eq_ok.mp h).2
  last := by
    intro c hc
    obtain ⟨before, hname⟩ := name_suffix h
    refine (Text.trimmed_trim s.toList).last c ?_
    rw [← hname, List.getLast?_append, Option.mem_def.mp hc]
    rfl

theorem toList_text (f : SortKey) : f.text.toList =
    match f.direction with
    | .ascending => f.name.toList
    | .descending => '-' :: f.name.toList := by
  rw [text]
  cases f.direction with
  | ascending => rfl
  | descending => exact String.toList_append

/-- The text of a key is read as the key if it is legible, and only then. -/
theorem Named.parse_text (h : f.Named) : parse f.text = .ok f ↔ f.Legible := by
  rw [parse_eq_ok, toList_text, Legible, and_iff_left h.nonempty]
  cases hd : f.direction with
  | descending =>
      refine iff_of_true ?_ (by simp)
      have htrim : Text.Trimmed ('-' :: f.name.toList) := by
        refine ⟨by simp [Text.isBlank], ?_⟩
        rw [List.getLast?_cons_of_ne_nil h.nonempty]
        exact h.last
      rw [Text.trim_eq_self.mpr htrim]
      rfl
  | ascending =>
      simp only [forall_const]
      constructor
      · intro hs
        rcases signed_cases (Text.trim f.name.toList) with ⟨r, -, hr⟩ | ⟨r, hr, hr'⟩ | ⟨hr, hhead⟩
        · exact absurd (hr.symm.trans hs) (by simp)
        · -- What is behind the sign is shorter than the name.
          obtain rfl : r = f.name.toList := (Prod.mk.inj (hr'.symm.trans hs)).2
          have hlen := (Text.trim_sublist f.name.toList).length_le
          rw [hr, List.length_cons] at hlen
          omega
        · have hself : Text.trim f.name.toList = f.name.toList :=
            (Prod.mk.inj (hr.symm.trans hs)).2
          rw [hself] at hhead
          intro c hc
          exact ⟨(hhead c hc).1, (hhead c hc).2, (Text.trim_eq_self.mp hself).first c hc⟩
      · intro hl
        have htrim : Text.Trimmed f.name.toList := ⟨fun c hc => (hl c hc).2.2, h.last⟩
        rw [Text.trim_eq_self.mpr htrim]
        rcases signed_cases f.name.toList with ⟨r, hr, -⟩ | ⟨r, hr, -⟩ | ⟨hr, -⟩
        · exact absurd rfl (hl '-' (by rw [hr]; rfl)).1
        · exact absurd rfl (hl '+' (by rw [hr]; rfl)).2.1
        · exact hr

/-! ## Lists of keys -/

/-- The text of a list of keys. -/
def textAll (keys : List SortKey) : String := ", ".intercalate (keys.map text)

/-- A text that stands in a list as one of its parts. -/
structure Part (part : String) : Prop where
  nonempty : part.toList ≠ []
  whole : ∀ c ∈ part.toList, separates c = false

theorem part_of_mem_parts {part : String} (h : part ∈ parts s) : Part part := by
  obtain ⟨cs, hcs, rfl⟩ := List.mem_map.mp h
  obtain ⟨hpiece, hne⟩ := List.mem_filter.mp hcs
  rw [← String.toList_ofList (l := cs)] at hpiece hne
  exact ⟨by simpa using hne, fun c hc => (Text.of_mem_pieces hpiece c hc).1⟩

theorem parts_cons {part rest : String} (h : Part part) :
    parts (part ++ ", " ++ rest) = part :: parts rest := by
  have hcomma : separates ',' = true := by decide
  have hblank : separates ' ' = true := by decide
  have htext : (part ++ ", " ++ rest).toList = part.toList ++ ',' :: ([] ++ ' ' :: rest.toList) := by
    simp
  have hpieces : Text.pieces separates (part ++ ", " ++ rest).toList =
      part.toList :: [] :: Text.pieces separates rest.toList := by
    rw [htext, Text.pieces_append hcomma, Text.pieces_append hblank,
      Text.pieces_eq_singleton h.whole]
    rfl
  rw [parts, hpieces]
  simp [h.nonempty, parts]

theorem parts_singleton {part : String} (h : Part part) : parts part = [part] := by
  rw [parts, Text.pieces_eq_singleton h.whole]
  simp [h.nonempty]

theorem parts_intercalate {ps : List String} (h : ∀ p ∈ ps, Part p) (hne : ps ≠ []) :
    parts (", ".intercalate ps) = ps := by
  induction ps with
  | nil => exact absurd rfl hne
  | cons p ps ih =>
      obtain ⟨hp, hps⟩ := List.forall_mem_cons.mp h
      cases ps with
      | nil =>
          rw [String.intercalate_singleton]
          exact parts_singleton hp
      | cons q qs =>
          rw [String.intercalate_cons_cons, parts_cons hp, ih hps (by simp)]

theorem parseAll_eq_ok :
    parseAll s = .ok keys ↔ (parts s).mapM parse = .ok keys ∧ keys ≠ [] := by
  rw [parseAll]
  cases (parts s).mapM parse with
  | error e => simp [bind, Except.bind]
  | ok fs =>
      cases fs with
      | nil =>
          simp only [bind, Except.bind, List.isEmpty_nil, if_true, reduceCtorEq, Except.ok.injEq,
            false_iff]
          rintro ⟨rfl, hne⟩
          exact hne rfl
      | cons f fs =>
          simp only [bind, Except.bind, List.isEmpty_cons, Bool.false_eq_true, if_false,
            Except.ok.injEq]
          constructor
          · rintro rfl
            simp
          · exact And.left

theorem mapM_parse_eq_ok {ps : List String} :
    ps.mapM parse = .ok keys ↔ ps.map parse = keys.map .ok := by
  induction ps generalizing keys with
  | nil =>
      rw [List.mapM_nil, List.map_nil, eq_comm (a := []), List.map_eq_nil_iff]
      exact ⟨fun h => (Except.ok.inj h).symm, fun h => h ▸ rfl⟩
  | cons p ps ih =>
      rw [List.mapM_cons, List.map_cons]
      cases keys with
      | nil =>
          cases parse p with
          | error e => simp [bind, Except.bind]
          | ok f => cases ps.mapM parse <;> simp [bind, Except.bind, pure, Except.pure]
      | cons g gs =>
          rw [List.map_cons, List.cons.injEq, ← ih]
          cases parse p with
          | error e => simp [bind, Except.bind]
          | ok f => cases ps.mapM parse <;> simp [bind, Except.bind, pure, Except.pure]

theorem part_text {part : String} (hp : Part part) (h : parse part = .ok f) : Part f.text := by
  have hname : ∀ c ∈ f.name.toList, separates c = false := by
    intro c hc
    exact hp.whole c ((Text.trim_sublist _).subset ((name_suffix h).subset hc))
  have hne := (named_of_parse h).nonempty
  cases hd : f.direction with
  | ascending =>
      have htext : f.text.toList = f.name.toList := by rw [toList_text, hd]
      exact ⟨by rwa [htext], by rwa [htext]⟩
  | descending =>
      have htext : f.text.toList = '-' :: f.name.toList := by rw [toList_text, hd]
      refine ⟨by simp [htext], ?_⟩
      rw [htext]
      exact List.forall_mem_cons.mpr ⟨by decide, hname⟩

theorem exists_part_of_mem (h : parseAll s = .ok keys) (hf : f ∈ keys) :
    ∃ part, Part part ∧ parse part = .ok f := by
  have hok : .ok f ∈ (parts s).map parse := by
    rw [mapM_parse_eq_ok.mp (parseAll_eq_ok.mp h).1]
    exact List.mem_map_of_mem hf
  obtain ⟨part, hpart, hread⟩ := List.mem_map.mp hok
  exact ⟨part, part_of_mem_parts hpart, hread⟩

theorem parseAll_textAll (h : parseAll s = .ok keys) :
    parseAll (textAll keys) = .ok keys ↔ ∀ f ∈ keys, parse f.text = .ok f := by
  have hne : keys ≠ [] := (parseAll_eq_ok.mp h).2
  have hparts : ∀ p ∈ keys.map text, Part p := by
    intro p hp
    obtain ⟨f, hf, rfl⟩ := List.mem_map.mp hp
    obtain ⟨part, hpart, hread⟩ := exists_part_of_mem h hf
    exact part_text hpart hread
  rw [parseAll_eq_ok, and_iff_left hne, textAll, parts_intercalate hparts (by simpa using hne),
    mapM_parse_eq_ok, List.map_map]
  exact List.map_inj_left

/-- A key that was read is read back from its text exactly if it is legible, and so is a
list of keys exactly if all of them are: a descending key always is, and an ascending one
unless its name begins with a sign or a blank. -/
theorem printed_keys_read_back (s : String) :
    (∀ f, parse s = .ok f → (parse f.text = .ok f ↔ f.Legible)) ∧
      ∀ keys, parseAll s = .ok keys →
        (parseAll (textAll keys) = .ok keys ↔ ∀ f ∈ keys, f.Legible) := by
  refine ⟨fun f h => (named_of_parse h).parse_text, ?_⟩
  intro keys h
  rw [parseAll_textAll h]
  refine forall₂_congr fun f hf => ?_
  obtain ⟨part, -, hread⟩ := exists_part_of_mem h hf
  exact (named_of_parse hread).parse_text

/-- A minus sign that is doubled stands for a descending key whose name begins with one,
and it is printed as it was given. -/
theorem minus_before_minus_is_kept :
    ∃ keys, parseAll "-age, +name --x" = .ok keys ∧ (∀ f ∈ keys, f.Legible) ∧
      textAll keys = "-age, name, --x" ∧ parseAll (textAll keys) = .ok keys := by
  have hread : parseAll "-age, +name --x" =
      .ok [⟨"age", .descending⟩, ⟨"name", .ascending⟩, ⟨"-x", .descending⟩] := by
    decide +kernel
  have hlegible : ∀ f ∈ [(⟨"age", .descending⟩ : SortKey), ⟨"name", .ascending⟩,
      ⟨"-x", .descending⟩], f.Legible := by
    decide +kernel
  exact ⟨_, hread, hlegible, by decide +kernel,
    ((printed_keys_read_back _).2 _ hread).mpr hlegible⟩

/-- A plus sign before another sign is not printed, and then the other sign is taken for
that of the key. -/
theorem plus_before_sign_is_lost :
    parse "++a" = .ok ⟨"+a", .ascending⟩ ∧
      parse (text ⟨"+a", .ascending⟩) = .ok ⟨"a", .ascending⟩ ∧
      parseAll "+-a" = .ok [⟨"-a", .ascending⟩] ∧
      parseAll (textAll [⟨"-a", .ascending⟩]) = .ok [⟨"a", .descending⟩] := by
  decide +kernel

end ExternalSort.SortKey
