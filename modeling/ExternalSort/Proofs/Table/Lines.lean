/-
Reading a line from a source that gives it in pieces.

Whatever pieces the bytes come in, a line that is read to its end is the first
line of all that is still to come (`readLine_cases`).  A fault in the middle of
a line cuts it; `RestsInText` says of a source that it never cuts a character,
nor the line behind bytes that are no text.
-/
import ExternalSort.Proofs.Bytes.Reading
import ExternalSort.Proofs.Text.Utf8
import ExternalSort.Table.Lines

namespace ExternalSort

namespace Table

/-! ## Lines of bytes -/

/-- What there is of a line, of which `held` was there, after more bytes. -/
def unfinished (held bs : List UInt8) : List UInt8 :=
  bs.foldl (fun held b => if b = lineFeed then [] else held ++ [b]) held

variable {bs cs line rest held : List UInt8}

theorem cutLine_append_of_some (h : cutLine bs = some (line, rest)) (cs : List UInt8) :
    cutLine (bs ++ cs) = some (line, rest ++ cs) := by
  induction bs generalizing line with
  | nil => exact absurd h (by simp [cutLine])
  | cons b bs ih =>
      rw [List.cons_append]
      simp only [cutLine] at h ⊢
      split at h
      · next hb =>
        obtain ⟨rfl, rfl⟩ := Prod.mk.inj (Option.some.inj h)
        rw [if_pos hb]
      · next hb =>
        obtain ⟨⟨l, r⟩, hl, he⟩ := Option.map_eq_some_iff.mp h
        obtain ⟨rfl, rfl⟩ := Prod.mk.inj he
        rw [if_neg hb, ih hl]
        rfl

theorem cutLine_append_of_none (h : cutLine bs = none) (cs : List UInt8) :
    cutLine (bs ++ cs) = (cutLine cs).map fun (line, rest) => (bs ++ line, rest) := by
  induction bs with
  | nil => exact Option.map_id'.symm
  | cons b bs ih =>
      simp only [cutLine] at h
      split at h
      · exact absurd h (by simp)
      · next hb =>
        rw [List.cons_append, cutLine, if_neg hb, ih (Option.map_eq_none_iff.mp h), Option.map_map]
        rfl

theorem unfinished_of_some (h : cutLine bs = some (line, rest)) :
    unfinished held bs = unfinished [] rest := by
  induction bs generalizing held line with
  | nil => exact absurd h (by simp [cutLine])
  | cons b bs ih =>
      simp only [cutLine] at h
      rw [unfinished, List.foldl_cons]
      split at h
      · next hb =>
        obtain ⟨rfl, rfl⟩ := Prod.mk.inj (Option.some.inj h)
        rw [if_pos hb]
        rfl
      · obtain ⟨⟨l, r⟩, hl, he⟩ := Option.map_eq_some_iff.mp h
        obtain ⟨rfl, rfl⟩ := Prod.mk.inj he
        exact ih hl

theorem unfinished_of_none (h : cutLine bs = none) : unfinished held bs = held ++ bs := by
  induction bs generalizing held with
  | nil => exact (List.append_nil held).symm
  | cons b bs ih =>
      simp only [cutLine] at h
      rw [unfinished, List.foldl_cons]
      split at h
      · exact absurd h (by simp)
      · next hb =>
        rw [if_neg hb]
        exact (ih (Option.map_eq_none_iff.mp h)).trans (by simp)

/-! ## Lines of a source -/

/-- Reading stops at a fault, before the end of the line; or the line is the
first one of all that is to come; or it is all, and has no end. -/
theorem readLine_cases (s : Source) :
    (∃ f, (readLine s).1.fault = some f ∧ cutLine (readLine s).1.bytes = none) ∨
      (readLine s).1.fault = none ∧
        (cutLine s.bytes = some ((readLine s).1.bytes, (readLine s).2.bytes) ∨
          cutLine s.bytes = none ∧ (readLine s).1.bytes = s.bytes ∧ (readLine s).2 = []) := by
  fun_induction readLine s with
  | case1 => exact .inr ⟨rfl, .inr ⟨rfl, rfl, rfl⟩⟩
  | case2 s ih => exact ih
  | case3 f s => exact .inl ⟨f, rfl, rfl⟩
  | case4 bs s line rest h => exact .inr ⟨rfl, .inl (cutLine_append_of_some h _)⟩
  | case5 bs s h r s' hr ih =>
      rw [hr] at ih
      simp only [Source.bytes_cons, ReadEvent.bytes]
      rcases ih with ⟨f, hf, hc⟩ | ⟨hf, hc | ⟨hc, hb, hs⟩⟩
      · exact .inl ⟨f, hf, by rw [cutLine_append_of_none h, hc]; rfl⟩
      · exact .inr ⟨hf, .inl (by rw [cutLine_append_of_none h, hc]; rfl)⟩
      · refine .inr ⟨hf, .inr ⟨by rw [cutLine_append_of_none h, hc]; rfl, ?_, hs⟩⟩
        rw [← hb]

theorem readLine_ofBytes_of_some (h : cutLine bs = some (line, rest)) :
    readLine (.ofBytes bs) = ({ bytes := line }, .ofBytes rest) := by
  simp [Source.ofBytes, readLine, h]

theorem readLine_ofBytes_of_none (h : cutLine bs = none) :
    readLine (.ofBytes bs) = ({ bytes := bs }, []) := by
  simp [Source.ofBytes, readLine, h]

theorem readLine_ofBytes_bytes {s : Source} (h : (readLine s).1.fault = none) :
    (readLine (.ofBytes s.bytes)).1 = (readLine s).1 ∧
      readLine (readLine (.ofBytes s.bytes)).2 = readLine (.ofBytes (readLine s).2.bytes) := by
  have hread : ∀ {bs}, bs = (readLine s).1.bytes → LineRead.mk bs none = (readLine s).1 := by
    rintro bs rfl
    rw [← h]
  rcases readLine_cases s with ⟨f, hf, -⟩ | ⟨-, hc | ⟨hc, hb, hs⟩⟩
  · exact absurd (hf.symm.trans h) (by simp)
  · rw [readLine_ofBytes_of_some hc]
    exact ⟨hread rfl, rfl⟩
  · rw [readLine_ofBytes_of_none hc, hs]
    exact ⟨hread hb.symm, rfl⟩

theorem readLine_faults (s : Source) :
    s.faults = (readLine s).2.faults + (readLine s).1.fault.toList.length := by
  fun_induction readLine s with
  | case1 => rfl
  | case2 s ih => exact ih
  | case3 f s => exact List.countP_cons_of_pos rfl
  | case4 bs s line rest h => rfl
  | case5 bs s h r s' hr ih => simpa [Source.faults, hr] using ih

theorem readLine_refusals (s : Source) :
    s.refusals = (readLine s).2.refusals +
      if (readLine s).1.fault.any (·.kind = .wouldBlock) then 1 else 0 := by
  fun_induction readLine s with
  | case1 => rfl
  | case2 s ih => exact ih
  | case3 f s => simp [Source.refusals_cons, Source.isRefusal]
  | case4 bs s line rest h => rfl
  | case5 bs s h r s' hr ih =>
      rw [hr] at ih
      rw [Source.refusals_cons, ih]
      rfl

/-! ## Sources that rest between characters -/

/-- Whether a source, of which `held` is the present line so far, never fails
but for not being ready, and then has given nothing but text of its line. -/
def RestsInText : List UInt8 → Source → Prop
  | _, [] => True
  | held, .data bs :: s => RestsInText (unfinished held bs) s
  | held, .interrupt :: s => RestsInText held s
  | held, .fault f :: s =>
    f.kind = .wouldBlock ∧ (Text.text? held).isSome = true ∧ RestsInText held s

theorem restsInText_of_faults (held : List UInt8) {s : Source} (h : s.faults = 0) :
    RestsInText held s := by
  induction s generalizing held with
  | nil => trivial
  | cons e s ih =>
      cases e with
      | data bs => exact ih _ h
      | interrupt => exact ih _ h
      | fault f => exact absurd h (by simp [Source.faults])

theorem RestsInText.next {s : Source} (h : RestsInText held s)
    (hf : (readLine s).1.fault = none) : RestsInText [] (readLine s).2 := by
  fun_induction readLine s generalizing held with
  | case1 => trivial
  | case2 s ih => exact ih h hf
  | case3 f s => exact absurd hf (by simp)
  | case4 bs s line rest hc =>
      rw [RestsInText, unfinished_of_some hc] at h
      exact h
  | case5 bs s hc r s' hr ih =>
      rw [hr] at ih
      exact ih h hf

/-- Where reading stops, the source is not ready, and what there is of the line
is text. -/
theorem RestsInText.pause {s : Source} (h : RestsInText held s) {f : Fault}
    (hf : (readLine s).1.fault = some f) :
    f.kind = .wouldBlock ∧ (Text.text? (held ++ (readLine s).1.bytes)).isSome = true ∧
      RestsInText (held ++ (readLine s).1.bytes) (readLine s).2 := by
  fun_induction readLine s generalizing held with
  | case1 => exact absurd hf (by simp)
  | case2 s ih => exact ih h hf
  | case3 g s =>
      obtain rfl := Option.some.inj hf
      rw [List.append_nil]
      exact h
  | case4 bs s line rest hc => exact absurd hf (by simp)
  | case5 bs s hc r s' hr ih =>
      rw [RestsInText, unfinished_of_none hc] at h
      rw [hr] at ih
      dsimp only
      rw [← List.append_assoc]
      exact ih h hf

end Table

end ExternalSort
