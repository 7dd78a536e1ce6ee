/-
Rows come back from their bytes.

A value is read from its bytes whatever stands behind them
(`Table.unpackValue_packValue`), and so are the values of the columns one
after the other.  Bytes have no names: the row that is read has the distinct
names of the columns, and null where the row that was written lacks one
(`Table.unpackRow_packRow`).
-/
import ExternalSort.Proofs.Bytes.Writing
import ExternalSort.Proofs.Frame.RoundTrip
import ExternalSort.Proofs.Row
import ExternalSort.Proofs.Text.Utf8
import ExternalSort.Table.Packing

namespace ExternalSort

namespace Table

/-! ## Values -/

theorem takeNat_bigEndian {width n : Nat} (h : n < 256 ^ width) (rest : List UInt8) :
    takeNat width (bigEndian width n ++ rest) = .ok (n, rest) := by
  have hl : ¬(bigEndian width n ++ rest).length < width := by
    rw [List.length_append, length_bigEndian]
    omega
  rw [takeNat, takeBytes, if_neg hl, List.splitAt_eq, Except.map]
  simp only [List.take_left' (length_bigEndian width n),
    List.drop_left' (length_bigEndian width n), ofBigEndian_bigEndian h]

theorem takeText_utf8 {s : String} (h : (Text.utf8 s).length < 0x100000000) (rest : List UInt8) :
    takeText (bigEndian 4 (Text.utf8 s).length ++ (Text.utf8 s ++ rest)) = .ok (s, rest) := by
  have hl : ¬(Text.utf8 s ++ rest).length < (Text.utf8 s).length := by
    rw [List.length_append]
    omega
  simp only [takeText, takeNat_bigEndian (show (Text.utf8 s).length < 256 ^ 4 from h)]
  change (if (Text.utf8 s ++ rest).length < (Text.utf8 s).length then _ else _) = _
  rw [if_neg hl, List.splitAt_eq, List.take_left, List.drop_left]
  dsimp only
  rw [Text.ofUtf8_utf8]
  rfl

/-- The length of a text fits its four bytes. -/
def Storable (v : Value) : Prop := ∀ s, v = .text s → (Text.utf8 s).length < 0x100000000

/-- A payload is read as its value, of whatever kind. -/
theorem unpackPayload_packPayload {v : Value} (h : Storable v) :
    ∃ payload, packPayload v = .ok payload ∧
      ∀ rest, unpackPayload v.kind (payload ++ rest) = .ok (v, rest) := by
  cases v with
  | null => exact ⟨[], rfl, fun _ => rfl⟩
  | bool b =>
      have hb : [if b then (1 : UInt8) else 0] = bigEndian 1 b.toNat := by cases b <;> rfl
      refine ⟨_, rfl, fun rest => ?_⟩
      rw [Value.kind, unpackPayload, hb, takeNat_bigEndian (by cases b <;> decide)]
      cases b <;> rfl
  | int i =>
      refine ⟨_, rfl, fun rest => ?_⟩
      rw [Value.kind, unpackPayload, takeNat_bigEndian (UInt64.toNat_lt _)]
      simp [Except.map]
  | float x =>
      refine ⟨_, rfl, fun rest => ?_⟩
      rw [Value.kind, unpackPayload, takeNat_bigEndian (UInt64.toNat_lt _)]
      simp [Except.map]
  | text s =>
      have hs := h s rfl
      refine ⟨bigEndian 4 (Text.utf8 s).length ++ Text.utf8 s, ?_, fun rest => ?_⟩
      · exact if_neg (Nat.not_le.mpr hs)
      · rw [Value.kind, unpackPayload, List.append_assoc, takeText_utf8 hs]
        rfl
  | date d =>
      refine ⟨_, rfl, fun rest => ?_⟩
      rw [Value.kind, unpackPayload, takeNat_bigEndian (UInt32.toNat_lt _)]
      simp [Except.map]
  | dateTime t =>
      refine ⟨_, rfl, fun rest => ?_⟩
      rw [Value.kind, unpackPayload, takeNat_bigEndian (UInt64.toNat_lt _)]
      simp [Except.map]
  | time t =>
      refine ⟨_, rfl, fun rest => ?_⟩
      rw [Value.kind, unpackPayload, takeNat_bigEndian (UInt64.toNat_lt _)]
      simp [Except.map]

theorem tag_reads (k : Kind) : ¬nullTag ≤ k.tag ∧ Kind.ofTag? k.tag = some k := by
  cases k <;> decide

theorem eq_null_of_isNull {v : Value} (h : v.isNull) : v = .null := by
  cases v with
  | null => rfl
  | _ => exact absurd h (by simp [Value.isNull, Value.kind])

/-- A value is read from its bytes. -/
theorem unpackValue_packValue {v : Value} (h : Storable v) :
    ∃ bs, packValue v = .ok bs ∧ ∀ rest, unpackValue (bs ++ rest) = .ok (v, rest) := by
  by_cases hn : v.isNull
  · obtain rfl := eq_null_of_isNull hn
    exact ⟨[nullTag], rfl, fun rest => rfl⟩
  · obtain ⟨payload, hp, hread⟩ := unpackPayload_packPayload h
    obtain ⟨htag, hkind⟩ := tag_reads v.kind
    refine ⟨v.kind.tag :: payload, ?_, fun rest => ?_⟩
    · rw [packValue, if_neg hn, hp]
      rfl
    · rw [List.cons_append, unpackValue, if_neg htag, hkind]
      exact hread rest

/-! ## Rows -/

variable {columns : List String} {row : Row}

/-- The value of a row in a column: null if the row lacks it. -/
def valueIn (row : Row) (name : String) : Value := (row.get? name).getD .null

theorem unpackFields_packRow (h : ∀ name ∈ columns, Storable (valueIn row name)) :
    ∃ bs, (∀ buffer, packRow columns row buffer = .ok (buffer ++ bs)) ∧
      ∀ rest, unpackFields columns (bs ++ rest) =
        .ok (columns.map fun name => (name, valueIn row name), rest) := by
  induction columns with
  | nil =>
      refine ⟨[], fun buffer => ?_, fun rest => rfl⟩
      rw [List.append_nil]
      rfl
  | cons name columns ih =>
      obtain ⟨hname, h⟩ := List.forall_mem_cons.mp h
      obtain ⟨value, hvalue, hread⟩ := unpackValue_packValue hname
      obtain ⟨bs, hrow, hreads⟩ := ih h
      refine ⟨value ++ bs, fun buffer => ?_, fun rest => ?_⟩
      · rw [valueIn] at hvalue
        rw [packRow, List.foldlM_cons, hvalue, ← List.append_assoc]
        exact hrow (buffer ++ value)
      · rw [unpackFields, List.append_assoc, hread]
        change (unpackFields columns (bs ++ rest) >>= _) = _
        rw [hreads]
        rfl

theorem storable_valueIn
    (h : ∀ name s, (name, Value.text s) ∈ row.fields → (Text.utf8 s).length < 2 ^ 32)
    (name : String) : Storable (valueIn row name) := by
  intro s hs
  cases hg : row.get? name with
  | none =>
      rw [valueIn, hg] at hs
      exact absurd hs (by simp)
  | some v =>
      rw [valueIn, hg, Option.getD_some] at hs
      subst hs
      obtain ⟨before, after, he, -⟩ := List.lookup_eq_some_iff.mp hg
      exact h name s (he ▸ by simp)

theorem unpackRow_packed (h : ∀ name ∈ columns, Storable (valueIn row name)) :
    ∃ bs, (∀ buffer, packRow columns row buffer = .ok (buffer ++ bs)) ∧
      unpackRow columns bs = .ok (.ofList (columns.map fun name => (name, valueIn row name))) := by
  obtain ⟨bs, hpack, hreads⟩ := unpackFields_packRow h
  refine ⟨bs, hpack, ?_⟩
  have hread := hreads []
  rw [List.append_nil] at hread
  rw [unpackRow, hread]
  rfl

theorem ofList_valueIn (h : row.fields.map Prod.fst = columns.eraseDups) :
    Row.ofList (columns.map fun name => (name, valueIn row name)) = row := by
  refine Row.eq_of_fields ((Row.fields_ofList columns (valueIn row)).trans ?_)
  rw [← h]
  exact row.fields_eq.symm

theorem storable_of_packRow {buffer bs : List UInt8} (h : packRow columns row buffer = .ok bs) :
    ∀ name ∈ columns, Storable (valueIn row name) := by
  induction columns generalizing buffer with
  | nil => exact fun _ hm => absurd hm List.not_mem_nil
  | cons name columns ih =>
      rw [packRow, List.foldlM_cons] at h
      change ((packValue (valueIn row name)).map (buffer ++ ·) >>= packRow columns row) = .ok bs at h
      cases hv : packValue (valueIn row name) with
      | error e =>
          rw [hv] at h
          exact absurd h (by simp [Except.map, bind, Except.bind])
      | ok value =>
          rw [hv] at h
          refine List.forall_mem_cons.mpr ⟨?_, ih h⟩
          intro s hs
          rw [hs] at hv
          by_contra hlong
          have hpayload : packPayload (.text s) = .error longText := if_pos (Nat.not_lt.mp hlong)
          rw [packValue, if_neg (by simp [Value.isNull, Value.kind]), hpayload] at hv
          exact absurd hv (by simp [Except.map])

theorem packing_roundTrips {P : Row → Prop}
    (hnames : ∀ row, P row → row.fields.map Prod.fst = columns.eraseDups) :
    (packing columns).RoundTrips P := by
  intro row hrow bs hbs
  obtain ⟨bs', hpack, hread⟩ := unpackRow_packed (storable_of_packRow hbs)
  obtain rfl : bs' = bs := Except.ok.inj ((hpack []).symm.trans hbs)
  show (unpackRow columns bs').mapError _ = _
  rw [hread, ofList_valueIn (hnames row hrow)]
  rfl

theorem packing_sound {P : Row → Prop}
    (hnames : ∀ row, P row → row.fields.map Prod.fst = columns.eraseDups)
    (hfits : ∀ row, P row → ∃ bs, packRow columns row [] = .ok bs ∧ bs.length ≤ Frame.maxPayload) :
    (packing columns).Sound P := by
  intro row hrow
  obtain ⟨bs, hbs, hlen⟩ := hfits row hrow
  exact ⟨bs, hbs, hlen, packing_roundTrips hnames row hrow bs hbs⟩

/-- **A row that is written and read has the distinct columns in their order,
each with the value of the row or null.**  Only texts of 4 GiB cannot be
written; what the buffer holds before does not matter. -/
theorem unpackRow_packRow (columns : List String) (row : Row)
    (h : ∀ name s, (name, Value.text s) ∈ row.fields → (Text.utf8 s).length < 2 ^ 32) :
    ∃ bs back, (∀ buffer, packRow columns row buffer = .ok (buffer ++ bs)) ∧
      unpackRow columns bs = .ok back ∧
      back.fields = columns.eraseDups.map (fun name => (name, (row.get? name).getD .null)) ∧
      (row.fields.map Prod.fst = columns.eraseDups → back = row) := by
  obtain ⟨bs, hpack, hread⟩ := unpackRow_packed fun name _ => storable_valueIn h name
  exact ⟨bs, _, hpack, hread, Row.fields_ofList columns (valueIn row), ofList_valueIn⟩

/-- A column that stands twice comes back once, a column that the row lacks as
null, and the sign of a zero and an empty text as they were. -/
theorem unpackRow_packRow_repeated :
    ∃ bs back,
      packRow ["t", "k", "t", "gone"]
        ⟨[("k", .float ⟨0x8000000000000000⟩), ("t", .text "")], by decide⟩ [7] = .ok (7 :: bs) ∧
      unpackRow ["t", "k", "t", "gone"] bs = .ok back ∧
      back.fields = [("t", .text ""), ("k", .float ⟨0x8000000000000000⟩), ("gone", .null)] := by
  have hshort : ∀ name s,
      (name, Value.text s) ∈ [("k", .float ⟨0x8000000000000000⟩), ("t", .text "")] →
        (Text.utf8 s).length < 2 ^ 32 := by
    intro name s h
    obtain ⟨rfl, rfl⟩ : name = "t" ∧ s = "" := by simpa using h
    decide
  obtain ⟨bs, back, hpack, hread, hfields, -⟩ := unpackRow_packRow ["t", "k", "t", "gone"]
    ⟨[("k", .float ⟨0x8000000000000000⟩), ("t", .text "")], by decide⟩ hshort
  exact ⟨bs, back, hpack [7], hread, hfields⟩

end Table

end ExternalSort
