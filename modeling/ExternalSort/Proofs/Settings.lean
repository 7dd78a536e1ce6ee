/-
The names of spill files.

The name of a sort stands in the names of its files without what could lead out of their
directory: each run of control characters, punctuation and blanks has become one underscore
(`Settings.Settled`).  As there is no dash left in it, nor one in the numbers behind it,
the dashes of a file name tell where its parts end, and each part tells what it was made
from (`Settings.spillName_inj`).  So two files have the same path only if they are the same
file of the same sort.
-/
import ExternalSort.Proofs.Path
import ExternalSort.Proofs.Text.Number
import ExternalSort.Settings

namespace ExternalSort

namespace Settings

/-! ## The name of the sort -/

/-- Texts with single underscores in the place of unsafe characters; in a run, there is no
underscore at the beginning. -/
inductive Settled : Bool → List Char → Prop
  | nil {inRun : Bool} : Settled inRun []
  | underscore {cs : List Char} : Settled true cs → Settled false ('_' :: cs)
  | plain {inRun : Bool} {c : Char} {cs : List Char} : isUnsafe c = false → Settled false cs →
      Settled inRun (c :: cs)

variable {inRun : Bool} {cs : List Char}

theorem settled_safeChars (inRun : Bool) (cs : List Char) : Settled inRun (safeChars inRun cs) := by
  induction cs generalizing inRun with
  | nil => exact .nil
  | cons c cs ih =>
      rw [safeChars]
      cases hc : isUnsafe c with
      | false => exact .plain hc (ih false)
      | true =>
          cases inRun with
          | true => exact ih true
          | false => exact .underscore (ih true)

theorem Settled.safeChars_eq (h : Settled inRun cs) : safeChars inRun cs = cs := by
  induction h with
  | nil => rfl
  | underscore _ ih => exact congrArg ('_' :: ·) ih
  | plain hc _ ih => rw [safeChars, hc, if_neg Bool.false_ne_true, ih]

theorem Settled.safe (h : Settled inRun cs) : ∀ c ∈ cs, isUnsafe c = false ∨ c = '_' := by
  induction h with
  | nil => exact fun _ hc => absurd hc List.not_mem_nil
  | underscore _ ih => exact List.forall_mem_cons.mpr ⟨.inr rfl, ih⟩
  | plain hc _ ih => exact List.forall_mem_cons.mpr ⟨.inl hc, ih⟩

theorem Settled.not_underscore_prefix (h : Settled true cs) : ¬ ['_'] <+: cs := by
  intro hp
  cases h with
  | nil => exact absurd hp (by simp)
  | plain hc _ =>
      obtain rfl := (List.cons_prefix_cons.mp hp).1
      exact absurd hc (by decide)

theorem Settled.no_doubles (h : Settled inRun cs) : ¬ ['_', '_'] <:+: cs := by
  induction h with
  | nil => simp
  | underscore h ih =>
      rw [List.infix_cons_iff]
      rintro (hp | hi)
      · exact h.not_underscore_prefix (List.cons_prefix_cons.mp hp).2
      · exact ih hi
  | plain hc _ ih =>
      rw [List.infix_cons_iff]
      rintro (hp | hi)
      · obtain rfl := (List.cons_prefix_cons.mp hp).1
        exact absurd hc (by decide)
      · exact ih hi

theorem settled_fileStem (s : Settings) : Settled false s.fileStem.toList := by
  rw [fileStem, String.toList_ofList]
  exact settled_safeChars false s.id.toList

theorem fileStem_again (s : Settings) : { s with id := s.fileStem }.fileStem = s.fileStem := by
  rw [fileStem, s.settled_fileStem.safeChars_eq, String.ofList_toList]

/-! ## The names of files -/

theorem toList_spillName (s : Settings) (tag : UInt32) (seq : Nat) :
    (s.spillName tag seq).toList =
      s.fileStem.toList ++ '-' :: ((Text.padded 16 8 tag.toNat).toList ++
        '-' :: ((Text.padded 10 6 seq).toList ++ ['.', 's', 'o', 'r', 't'])) := by
  simp [spillName]

/-- What stands in the name of a file is safe, apart from three marks. -/
theorem of_mem_spillName (s : Settings) (tag : UInt32) (seq : Nat) :
    ∀ c ∈ (s.spillName tag seq).toList, isUnsafe c = false ∨ c ∈ ['_', '-', '.'] := by
  have hstem : ∀ c ∈ s.fileStem.toList, isUnsafe c = false ∨ c ∈ ['_', '-', '.'] := by
    intro c hc
    refine (s.settled_fileStem.safe c hc).imp_right ?_
    rintro rfl
    decide
  have hdash : isUnsafe '-' = false ∨ '-' ∈ ['_', '-', '.'] := by decide
  have hnumber : ∀ base width n, 1 < base → base ≤ 16 →
      ∀ c ∈ (Text.padded base width n).toList, isUnsafe c = false ∨ c ∈ ['_', '-', '.'] :=
    fun base width n h h' => Text.of_mem_padded h h' (by decide)
  rw [toList_spillName]
  simp only [List.forall_mem_append, List.forall_mem_cons]
  exact ⟨hstem, hdash, hnumber 16 8 _ (by decide) (by decide), hdash,
    hnumber 10 6 _ (by decide) (by decide), by decide, by decide, by decide, by decide, by decide,
    fun _ h => absurd h List.not_mem_nil⟩

theorem spillName_plain (s : Settings) (tag : UInt32) (seq : Nat) :
    ∀ c ∈ (s.spillName tag seq).toList,
      c ≠ '/' ∧ c ≠ '\\' ∧ Text.isControl c = false ∧ Text.isBlank c = false := by
  intro c hc
  rcases s.of_mem_spillName tag seq c hc with h | h
  · have hmark : ∀ d, isUnsafe d = true → c ≠ d := by
      rintro d hd rfl
      exact absurd (hd.symm.trans h) (by simp)
    rw [isUnsafe, Bool.or_eq_false_iff, Bool.or_eq_false_iff] at h
    exact ⟨hmark '/' (by decide), hmark '\\' (by decide), h.1.1, h.2⟩
  · simp only [List.mem_cons, List.not_mem_nil, or_false] at h
    rcases h with rfl | rfl | rfl <;> decide

theorem dash_inj {a a' b b' : List Char} (ha : '-' ∉ a) (ha' : '-' ∉ a')
    (h : a ++ '-' :: b = a' ++ '-' :: b') : a = a' ∧ b = b' := by
  have hpieces := congrArg (List.splitOn '-') h
  rw [List.splitOn_append_cons_self_of_not_mem ha,
    List.splitOn_append_cons_self_of_not_mem ha'] at hpieces
  obtain ⟨rfl, -⟩ := List.cons.inj hpieces
  exact ⟨rfl, (List.cons.inj (List.append_cancel_left h)).2⟩

theorem spillName_inj {s t : Settings} {tag tag' : UInt32} {m n : Nat}
    (h : s.spillName tag m = t.spillName tag' n) :
    s.fileStem = t.fileStem ∧ tag = tag' ∧ m = n := by
  have hstem : ∀ s : Settings, '-' ∉ s.fileStem.toList := by
    intro s hc
    rcases s.settled_fileStem.safe _ hc with h | h <;> exact absurd h (by decide)
  have hnumber : ∀ width n, '-' ∉ (Text.padded 16 width n).toList := by
    intro width n hc
    exact Text.of_mem_padded (P := (· ≠ '-')) (by decide) (by decide) (by decide) _ hc rfl
  have h := congrArg String.toList h
  rw [toList_spillName, toList_spillName] at h
  obtain ⟨hs, h⟩ := dash_inj (hstem s) (hstem t) h
  obtain ⟨ht, h⟩ := dash_inj (hnumber 8 _) (hnumber 8 _) h
  have hn := List.append_cancel_right h
  exact ⟨String.toList_inj.mp hs,
    UInt32.toNat_inj.mp (Text.padded_inj (by decide) (by decide) (String.toList_inj.mp ht)),
    Text.padded_inj (by decide) (by decide) (String.toList_inj.mp hn)⟩

theorem isName_spillName (s : Settings) (tag : UInt32) (seq : Nat) :
    Path.IsName (s.spillName tag seq) := by
  have hdash : '-' ∈ (s.spillName tag seq).toList := by simp [toList_spillName]
  have hne : ∀ name : String, '-' ∉ name.toList → s.spillName tag seq ≠ name := by
    rintro name hn rfl
    exact hn hdash
  exact ⟨hne "" (by decide), hne "." (by decide), hne ".." (by decide),
    fun h => (s.spillName_plain tag seq _ h).1 rfl⟩

theorem spillPath_parts_inj {s t : Settings} (hd : s.directory = t.directory) {tag tag' : UInt32}
    {m n : Nat} (h : (s.spillPath tag m).parts = (t.spillPath tag' n).parts) :
    s.fileStem = t.fileStem ∧ tag = tag' ∧ m = n := by
  rw [spillPath, spillPath, Path.parts_join (s.isName_spillName tag m),
    Path.parts_join (t.isName_spillName tag' n), hd, List.append_cancel_left_eq] at h
  exact spillName_inj (List.singleton_inj.mp h)

theorem spillPath_inj {s : Settings} {tag : UInt32} {m n : Nat}
    (h : s.spillPath tag m = s.spillPath tag n) : m = n :=
  (spillPath_parts_inj rfl (congrArg Path.parts h)).2.2

end Settings

/-- **Spill files of different sorts, writers or numbers have different paths**, and each stands
in the directory of its sort: two paths in one directory are the same, as texts or by their
parts, exactly if the names of the sorts that were made safe, the tags and the numbers are.
Whatever the name of a sort is, there is no separator, no control character and no blank in the
name of a file, which is one more part of the path behind those of the directory.  What is left
of the name of the sort has no two underscores in a row and no other punctuation, and it is
safe already. -/
theorem spill_paths_distinct_and_confined (s t : Settings) (hd : s.directory = t.directory)
    (tag tag' : UInt32) (m n : Nat) :
    let same := s.fileStem = t.fileStem ∧ tag = tag' ∧ m = n
    let name := s.spillName tag m
    (s.spillPath tag m = t.spillPath tag' n ↔ same) ∧
      ((s.spillPath tag m).sameAs (t.spillPath tag' n) = true ↔ same) ∧
      (s.spillPath tag m).parts = s.directory.parts ++ [name] ∧ name ≠ "." ∧ name ≠ ".." ∧
      (∀ c ∈ name.toList,
        c ≠ '/' ∧ c ≠ '\\' ∧ Text.isControl c = false ∧ Text.isBlank c = false) ∧
      ¬ ['_', '_'] <:+: s.fileStem.toList ∧
      (∀ c ∈ s.fileStem.toList, Text.isPunctuation c = true → c = '_') ∧
      { s with id := s.fileStem }.fileStem = s.fileStem := by
  intro same name
  have hname := s.isName_spillName tag m
  have hsame : same → s.spillPath tag m = t.spillPath tag' n := by
    rintro ⟨hs, rfl, rfl⟩
    rw [Settings.spillPath, Settings.spillPath, Settings.spillName, Settings.spillName, hs, hd]
  have hparts : (s.spillPath tag m).parts = (t.spillPath tag' n).parts → same :=
    Settings.spillPath_parts_inj hd
  refine ⟨⟨fun h => hparts (congrArg Path.parts h), hsame⟩, ?_, Path.parts_join hname _,
    hname.ne_here, hname.ne_up, s.spillName_plain tag m, s.settled_fileStem.no_doubles, ?_,
    s.fileStem_again⟩
  · rw [Path.sameAs, beq_iff_eq]
    exact ⟨hparts, fun h => congrArg Path.parts (hsame h)⟩
  · intro c hc hp
    refine (s.settled_fileStem.safe c hc).resolve_left ?_
    intro h
    simp [Settings.isUnsafe, hp] at h

/-- Names that differ in an unsafe character only share their paths, but not for different
numbers, even of more places than are padded. -/
theorem job_names_share_paths :
    let spaced : Settings := { Settings.standard ⟨"/tmp/x"⟩ with id := "job 7" }
    let slashed : Settings := { Settings.standard ⟨"/tmp/x"⟩ with id := "job/ 7" }
    spaced.directory = slashed.directory ∧
      spaced.spillPath 0xBEEF 1000000 = slashed.spillPath 0xBEEF 1000000 ∧
      spaced.spillPath 0xBEEF 1000000 ≠ slashed.spillPath 0xBEEF 10000000 := by
  intro spaced slashed
  have hstem : spaced.fileStem = slashed.fileStem := by decide
  refine ⟨rfl, ?_, ?_⟩
  · exact (spill_paths_distinct_and_confined spaced slashed rfl _ _ _ _).1.mpr ⟨hstem, rfl, rfl⟩
  · intro h
    have hsame := (spill_paths_distinct_and_confined spaced slashed rfl _ _ _ _).1.mp h
    exact absurd hsame.2.2 (by decide)

end ExternalSort
