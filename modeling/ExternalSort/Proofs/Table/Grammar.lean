/-
The bytes that are rows.

A value says with its first byte how long it is, and a text with the four
bytes behind it.  So the bytes of a row are those of one value for each
column, one after the other, and whatever can be read as a row has no other
row at its front and is not at the front of another (`Table.unpackRow_accepts`).
All of this holds of any bytes: a length that is read is compared with what is
left before anything is cut off, which a reader that fails past the end shows
(`Table.unpackRow?`).
-/
import ExternalSort.Proofs.Table.Packing

namespace ExternalSort.Table

/-! ## The grammar -/

/-- The bytes of a value, as its first byte tells. -/
inductive ValueBytes : List UInt8 → Prop
  /-- A byte with its highest bit set stands alone. -/
  | flagged {t : UInt8} : t &&& 0x80 ≠ 0 → ValueBytes [t]
  | null : ValueBytes [0]
  | bool {b : UInt8} : ValueBytes [1, b]
  /-- Whole and floating-point numbers, date-times and times. -/
  | eight {t : UInt8} {payload : List UInt8} : t ∈ [2, 3, 6, 7] → payload.length = 8 →
      ValueBytes (t :: payload)
  | date {payload : List UInt8} : payload.length = 4 → ValueBytes (5 :: payload)
  | text {header : List UInt8} {s : String} : header.length = 4 →
      ofBigEndian header = (Text.utf8 s).length → ValueBytes (4 :: (header ++ Text.utf8 s))

/-- Bytes that are one value for each column. -/
def RowBytes (columns : List String) (bs : List UInt8) : Prop :=
  ∃ values : List (List UInt8), values.length = columns.length ∧
    (∀ value ∈ values, ValueBytes value) ∧ bs = values.flatten

variable {columns : List String} {bs rest : List UInt8}

/-! ## Numbers and texts -/

theorem takeNat_eq_ok {width n : Nat} :
    takeNat width bs = .ok (n, rest) ↔
      ∃ digits, digits.length = width ∧ bs = digits ++ rest ∧ n = ofBigEndian digits := by
  rw [takeNat, takeBytes]
  constructor
  · intro h
    split at h
    · exact absurd h (by simp [Except.map])
    · next hlen =>
      rw [List.splitAt_eq] at h
      obtain ⟨rfl, rfl⟩ := Prod.mk.inj (Except.ok.inj h)
      refine ⟨bs.take width, ?_, (List.take_append_drop width bs).symm, rfl⟩
      rw [List.length_take]
      omega
  · rintro ⟨digits, rfl, rfl, rfl⟩
    have hlen : ¬(digits ++ rest).length < digits.length := by
      rw [List.length_append]
      omega
    rw [if_neg hlen, List.splitAt_eq, List.take_left, List.drop_left]
    rfl

theorem takeText_of_takeNat {length : Nat} {behind : List UInt8}
    (h : takeNat 4 bs = .ok (length, behind)) :
    takeText bs =
      if behind.length < length then .error (.overrun length behind.length)
      else ((Text.ofUtf8 (behind.take length)).mapError .badText).map (·, behind.drop length) := by
  simp only [takeText, h, List.splitAt_eq]
  change (if behind.length < length then _ else _) = _
  split
  · rfl
  · cases Text.ofUtf8 (behind.take length) <;> rfl

theorem takeText_eq_ok {s : String} :
    takeText bs = .ok (s, rest) ↔
      ∃ header, header.length = 4 ∧ ofBigEndian header = (Text.utf8 s).length ∧
        bs = header ++ (Text.utf8 s ++ rest) := by
  constructor
  · intro h
    cases hn : takeNat 4 bs with
    | error e =>
        rw [takeText, hn] at h
        exact absurd h (by simp [bind, Except.bind])
    | ok r =>
        obtain ⟨length, behind⟩ := r
        obtain ⟨header, hheader, hbs, rfl⟩ := takeNat_eq_ok.mp hn
        rw [takeText_of_takeNat hn] at h
        split at h
        · exact absurd h (by simp)
        · next hlen =>
          cases ht : Text.ofUtf8 (behind.take (ofBigEndian header)) with
          | error e =>
              rw [ht] at h
              exact absurd h (by simp [Except.mapError, Except.map])
          | ok t =>
              rw [ht] at h
              obtain ⟨rfl, rfl⟩ := Prod.mk.inj (Except.ok.inj h)
              have htext := Text.ofUtf8_eq_ok_iff.mp ht
              refine ⟨header, hheader, ?_, ?_⟩
              · rw [← htext, List.length_take]
                omega
              · rw [← htext, List.take_append_drop, hbs]
  · rintro ⟨header, hheader, hlength, rfl⟩
    have hlen : ¬(Text.utf8 s ++ rest).length < (Text.utf8 s).length := by
      rw [List.length_append]
      omega
    rw [takeText_of_takeNat (takeNat_eq_ok.mpr ⟨header, hheader, rfl, hlength.symm⟩),
      if_neg hlen, List.take_left, List.drop_left, Text.ofUtf8_utf8]
    rfl

/-! ## Values -/

theorem flagged_iff (t : UInt8) : t &&& 0x80 ≠ 0 ↔ nullTag ≤ t := by
  obtain ⟨⟨t⟩⟩ := t
  revert t
  decide +kernel

theorem ofTag?_eq_some {t : UInt8} {k : Kind} : Kind.ofTag? t = some k ↔ t = k.tag := by
  constructor
  · intro h
    have hk : ∀ n < 8, ∀ k, Kind.all[n]? = some k → k.tag.toNat = n := by decide
    obtain ⟨hlt, -⟩ := List.getElem?_eq_some_iff.mp h
    exact UInt8.toNat_inj.mp (hk t.toNat hlt k h).symm
  · rintro rfl
    exact (tag_reads k).2

theorem map_takeNat_eq_ok {width : Nat} {f : Nat × List UInt8 → Value × List UInt8}
    (hf : ∀ r, (f r).2 = r.2) :
    (∃ v, (takeNat width bs).map f = .ok (v, rest)) ↔
      ∃ payload, payload.length = width ∧ bs = payload ++ rest := by
  constructor
  · rintro ⟨v, h⟩
    cases hn : takeNat width bs with
    | error e =>
        rw [hn] at h
        exact absurd h (by simp [Except.map])
    | ok r =>
        rw [hn] at h
        obtain rfl : r.2 = rest := (hf r).symm.trans (congrArg Prod.snd (Except.ok.inj h))
        obtain ⟨payload, hlen, hbs, -⟩ := takeNat_eq_ok.mp hn
        exact ⟨payload, hlen, hbs⟩
  · rintro ⟨payload, hlen, hbs⟩
    rw [takeNat_eq_ok.mpr ⟨payload, hlen, hbs, rfl⟩]
    exact ⟨_, congrArg Except.ok (Prod.ext rfl (hf _))⟩

theorem unpackValue_tag (k : Kind) (bs : List UInt8) :
    unpackValue (k.tag :: bs) = unpackPayload k bs := by
  rw [unpackValue, if_neg (tag_reads k).1, (tag_reads k).2]

/-- How many bytes tell a value of some kind; those of a text vary. -/
def payloadWidth? : Kind → Option Nat
  | .null => some 0
  | .bool => some 1
  | .date => some 4
  | .text => none
  | _ => some 8

theorem payloadWidth?_eq_none {k : Kind} : payloadWidth? k = none ↔ k = .text := by
  cases k <;> decide

theorem unpackPayload_fixed {k : Kind} {width : Nat} (h : payloadWidth? k = some width) :
    (∃ v, unpackPayload k bs = .ok (v, rest)) ↔
      ∃ payload, payload.length = width ∧ bs = payload ++ rest := by
  cases k with
  | text => exact absurd (payloadWidth?_eq_none.mpr rfl) (h ▸ Option.some_ne_none _)
  | null =>
      obtain rfl := Option.some.inj h
      constructor
      · rintro ⟨v, hv⟩
        exact ⟨[], rfl, (Prod.mk.inj (Except.ok.inj hv)).2⟩
      · rintro ⟨payload, hlen, rfl⟩
        obtain rfl := List.eq_nil_of_length_eq_zero hlen
        exact ⟨.null, rfl⟩
  | _ =>
      obtain rfl := Option.some.inj h
      rw [unpackPayload]
      exact map_takeNat_eq_ok fun _ => rfl

theorem unpackPayload_text :
    (∃ v, unpackPayload .text bs = .ok (v, rest)) ↔
      ∃ header s, header.length = 4 ∧ ofBigEndian header = (Text.utf8 s).length ∧
        bs = header ++ (Text.utf8 s ++ rest) := by
  rw [unpackPayload]
  constructor
  · rintro ⟨v, h⟩
    cases ht : takeText bs with
    | error e =>
        rw [ht] at h
        exact absurd h (by simp [Except.map])
    | ok r =>
        obtain ⟨s, behind⟩ := r
        rw [ht] at h
        obtain ⟨-, rfl⟩ := Prod.mk.inj (Except.ok.inj h)
        obtain ⟨header, hread⟩ := takeText_eq_ok.mp ht
        exact ⟨header, s, hread⟩
  · rintro ⟨header, s, hread⟩
    rw [takeText_eq_ok.mpr ⟨header, hread⟩]
    exact ⟨.text s, rfl⟩

/-- A first byte without the highest bit is the tag of a kind. -/
theorem valueBytes_tag {k : Kind} {payload : List UInt8} :
    ValueBytes (k.tag :: payload) ↔
      (∃ width, payloadWidth? k = some width ∧ payload.length = width) ∨
        (k = .text ∧ ∃ header s, header.length = 4 ∧
          ofBigEndian header = (Text.utf8 s).length ∧ payload = header ++ Text.utf8 s) := by
  constructor
  · intro h
    generalize ht : k.tag = t at h
    cases h with
    | flagged hflag => exact absurd ((flagged_iff t).mp hflag) (ht ▸ (tag_reads k).1)
    | null => cases k <;> first | exact absurd ht (by decide) | exact .inl ⟨_, rfl, rfl⟩
    | bool => cases k <;> first | exact absurd ht (by decide) | exact .inl ⟨_, rfl, rfl⟩
    | eight hmem hlen =>
        subst ht
        cases k <;> first | exact absurd hmem (by decide) | exact .inl ⟨_, rfl, hlen⟩
    | date hlen => cases k <;> first | exact absurd ht (by decide) | exact .inl ⟨_, rfl, hlen⟩
    | text hlen hlength =>
        cases k <;> first | exact absurd ht (by decide) | exact .inr ⟨rfl, _, _, hlen, hlength, rfl⟩
  · rintro (⟨width, hw, rfl⟩ | ⟨rfl, header, s, hlen, hlength, rfl⟩)
    · cases k with
      | text => exact absurd hw (by simp [payloadWidth?])
      | null =>
          obtain rfl := List.eq_nil_of_length_eq_zero (Option.some.inj hw).symm
          exact .null
      | bool =>
          obtain ⟨b, rfl⟩ := List.length_eq_one_iff.mp (Option.some.inj hw).symm
          exact .bool
      | date => exact .date (Option.some.inj hw).symm
      | _ => exact .eight (by decide) (Option.some.inj hw).symm
    · exact .text hlen hlength

theorem ValueBytes.flagged_or_tag {value : List UInt8} (h : ValueBytes value) :
    (∃ t, nullTag ≤ t ∧ value = [t]) ∨ ∃ (k : Kind) (payload : List UInt8),
      value = k.tag :: payload := by
  cases h with
  | flagged hflag => exact .inl ⟨_, (flagged_iff _).mp hflag, rfl⟩
  | null => exact .inr ⟨.null, [], rfl⟩
  | bool => exact .inr ⟨.bool, _, rfl⟩
  | eight hmem _ =>
      simp only [List.mem_cons, List.not_mem_nil, or_false] at hmem
      obtain rfl | rfl | rfl | rfl := hmem
      · exact .inr ⟨.int, _, rfl⟩
      · exact .inr ⟨.float, _, rfl⟩
      · exact .inr ⟨.dateTime, _, rfl⟩
      · exact .inr ⟨.time, _, rfl⟩
  | date _ => exact .inr ⟨.date, _, rfl⟩
  | text _ _ => exact .inr ⟨.text, _, rfl⟩

theorem unpackValue_accepts :
    (∃ v, unpackValue bs = .ok (v, rest)) ↔ ∃ value, ValueBytes value ∧ bs = value ++ rest := by
  constructor
  · rintro ⟨v, h⟩
    cases bs with
    | nil => exact absurd h (by simp [unpackValue])
    | cons t bs =>
        by_cases hflag : nullTag ≤ t
        · rw [unpackValue, if_pos hflag] at h
          obtain ⟨-, rfl⟩ := Prod.mk.inj (Except.ok.inj h)
          exact ⟨[t], .flagged ((flagged_iff t).mpr hflag), rfl⟩
        cases hk : Kind.ofTag? t with
        | none =>
            rw [unpackValue, if_neg hflag, hk] at h
            exact absurd h (by simp)
        | some k =>
            obtain rfl := ofTag?_eq_some.mp hk
            rw [unpackValue_tag] at h
            cases hw : payloadWidth? k with
            | some width =>
                obtain ⟨payload, hlen, rfl⟩ := (unpackPayload_fixed hw).mp ⟨v, h⟩
                exact ⟨k.tag :: payload, valueBytes_tag.mpr (.inl ⟨width, hw, hlen⟩), rfl⟩
            | none =>
                obtain rfl := payloadWidth?_eq_none.mp hw
                obtain ⟨header, s, hlen, hlength, rfl⟩ := unpackPayload_text.mp ⟨v, h⟩
                refine ⟨4 :: (header ++ Text.utf8 s), .text hlen hlength, ?_⟩
                rw [List.cons_append, List.append_assoc]
                rfl
  · rintro ⟨value, hvalue, rfl⟩
    obtain ⟨t, hflag, rfl⟩ | ⟨k, payload, rfl⟩ := hvalue.flagged_or_tag
    · exact ⟨.null, if_pos hflag⟩
    rw [List.cons_append, unpackValue_tag]
    obtain ⟨width, hw, hlen⟩ | ⟨rfl, header, s, hlen, hlength, rfl⟩ := valueBytes_tag.mp hvalue
    · exact (unpackPayload_fixed hw).mpr ⟨payload, hlen, rfl⟩
    · exact unpackPayload_text.mpr ⟨header, s, hlen, hlength, List.append_assoc ..⟩

/-! ## Rows -/

theorem unpackFields_accepts :
    (∃ fields, unpackFields columns bs = .ok (fields, rest)) ↔
      ∃ values : List (List UInt8), values.length = columns.length ∧
        (∀ value ∈ values, ValueBytes value) ∧ bs = values.flatten ++ rest := by
  induction columns generalizing bs with
  | nil =>
      constructor
      · rintro ⟨fields, h⟩
        obtain ⟨-, rfl⟩ := Prod.mk.inj (Except.ok.inj h)
        exact ⟨[], rfl, fun _ hm => absurd hm List.not_mem_nil, rfl⟩
      · rintro ⟨values, hlen, -, rfl⟩
        obtain rfl := List.eq_nil_of_length_eq_zero hlen
        exact ⟨[], rfl⟩
  | cons name columns ih =>
      constructor
      · rintro ⟨fields, h⟩
        rw [unpackFields] at h
        cases hv : unpackValue bs with
        | error e =>
            rw [hv] at h
            exact absurd h (by simp [bind, Except.bind])
        | ok r =>
            obtain ⟨v, behind⟩ := r
            rw [hv] at h
            change (unpackFields columns behind >>= _) = _ at h
            cases hf : unpackFields columns behind with
            | error e =>
                rw [hf] at h
                exact absurd h (by simp [bind, Except.bind])
            | ok r =>
                obtain ⟨more, left⟩ := r
                rw [hf] at h
                obtain ⟨-, rfl⟩ := Prod.mk.inj (Except.ok.inj h)
                obtain ⟨value, hvalue, rfl⟩ := unpackValue_accepts.mp ⟨v, hv⟩
                obtain ⟨values, hlen, hvalues, rfl⟩ := ih.mp ⟨more, hf⟩
                refine ⟨value :: values, congrArg (· + 1) hlen,
                  List.forall_mem_cons.mpr ⟨hvalue, hvalues⟩, ?_⟩
                rw [List.flatten_cons, List.append_assoc]
      · rintro ⟨values, hlen, hvalues, rfl⟩
        cases values with
        | nil => exact absurd hlen (by simp)
        | cons value values =>
            obtain ⟨hvalue, hvalues⟩ := List.forall_mem_cons.mp hvalues
            obtain ⟨v, hv⟩ := unpackValue_accepts.mpr ⟨value, hvalue, rfl⟩
            obtain ⟨more, hf⟩ := ih.mpr ⟨values, Nat.succ.inj hlen, hvalues, rfl⟩
            refine ⟨(name, v) :: more, ?_⟩
            rw [List.flatten_cons, List.append_assoc, unpackFields, hv]
            change (unpackFields columns (values.flatten ++ rest) >>= _) = _
            rw [hf]
            rfl

/-- A row can be read from the bytes. -/
def Accepts (columns : List String) (bs : List UInt8) : Prop :=
  ∃ row, unpackRow columns bs = .ok row

theorem accepts_iff_unpackFields :
    Accepts columns bs ↔ ∃ fields, unpackFields columns bs = .ok (fields, []) := by
  constructor
  · rintro ⟨row, h⟩
    rw [unpackRow] at h
    cases hf : unpackFields columns bs with
    | error e =>
        rw [hf] at h
        exact absurd h (by simp [bind, Except.bind])
    | ok r =>
        obtain ⟨fields, left⟩ := r
        rw [hf] at h
        change (if left.isEmpty then _ else _) = _ at h
        split at h
        · next he => exact ⟨fields, by rw [List.isEmpty_iff.mp he]⟩
        · exact absurd h (by simp)
  · rintro ⟨fields, h⟩
    refine ⟨.ofList fields, ?_⟩
    rw [unpackRow, h]
    rfl

theorem accepts_iff : Accepts columns bs ↔ RowBytes columns bs := by
  rw [accepts_iff_unpackFields, unpackFields_accepts, RowBytes]
  simp only [List.append_nil]

theorem unpackFields_behind (h : RowBytes columns bs) (more : List UInt8) :
    ∃ fields, unpackFields columns (bs ++ more) = .ok (fields, more) := by
  obtain ⟨values, hlen, hvalues, rfl⟩ := h
  exact unpackFields_accepts.mpr ⟨values, hlen, hvalues, rfl⟩

theorem eq_nil_of_accepts_append {more : List UInt8} (h : Accepts columns bs)
    (h' : Accepts columns (bs ++ more)) : more = [] := by
  obtain ⟨fields, hf⟩ := unpackFields_behind (accepts_iff.mp h) more
  obtain ⟨fields', hf'⟩ := accepts_iff_unpackFields.mp h'
  exact (Prod.mk.inj (Except.ok.inj (hf.symm.trans hf'))).2

/-- No two rows stand one at the front of the other. -/
theorem accepts_prefixFree {other : List UInt8} (h : Accepts columns bs)
    (h' : Accepts columns other) (hp : bs <+: other ∨ other <+: bs) : bs = other := by
  obtain ⟨more, rfl⟩ | ⟨more, rfl⟩ := hp
  · rw [eq_nil_of_accepts_append h h', List.append_nil]
  · rw [eq_nil_of_accepts_append h' h, List.append_nil]

/-! ## Cutting within the bytes -/

/-- Cuts bytes in two, which fails past their end. -/
def split? (n : Nat) (bs : List UInt8) : Option (List UInt8 × List UInt8) :=
  if n ≤ bs.length then some (bs.splitAt n) else none

/-- What needs no cut. -/
def uncut {α : Type} (x : Except RowError α) : ExceptT RowError Option α := .mk (some x)

def takeBytes? (n : Nat) (bs : List UInt8) :
    ExceptT RowError Option (List UInt8 × List UInt8) :=
  if bs.length < n then throw .tooShort else .lift (split? n bs)

def takeNat? (width : Nat) (bs : List UInt8) : ExceptT RowError Option (Nat × List UInt8) := do
  let (digits, rest) ← takeBytes? width bs
  return (ofBigEndian digits, rest)

def takeText? (bs : List UInt8) : ExceptT RowError Option (String × List UInt8) := do
  let (length, rest) ← takeNat? 4 bs
  if rest.length < length then throw (.overrun length rest.length)
  else
    let (text, rest) ← ExceptT.lift (split? length rest)
    let s ← uncut ((Text.ofUtf8 text).mapError .badText)
    return (s, rest)

def unpackPayload? (k : Kind) (bs : List UInt8) : ExceptT RowError Option (Value × List UInt8) :=
  match k with
  | .null => return (.null, bs)
  | .bool => return (← takeNat? 1 bs).map (fun n => .bool (n != 0)) id
  | .int => return (← takeNat? 8 bs).map (fun n => .int (UInt64.ofNat n).toInt64) id
  | .float => return (← takeNat? 8 bs).map (fun n => .float ⟨UInt64.ofNat n⟩) id
  | .text => return (← takeText? bs).map .text id
  | .date => return (← takeNat? 4 bs).map (fun n => .date (UInt32.ofNat n).toInt32) id
  | .dateTime => return (← takeNat? 8 bs).map (fun n => .dateTime (UInt64.ofNat n).toInt64) id
  | .time => return (← takeNat? 8 bs).map (fun n => .time (UInt64.ofNat n).toInt64) id

def unpackValue? (bs : List UInt8) : ExceptT RowError Option (Value × List UInt8) := do
  if bs.length < 1 then throw .tooShort
  else
    let t ← ExceptT.lift bs[0]?
    let (_, bs) ← ExceptT.lift (split? 1 bs)
    if nullTag ≤ t then return (.null, bs)
    else match Kind.ofTag? t with
      | none => throw (.unknownTag t)
      | some k => unpackPayload? k bs

def unpackFields? : List String → List UInt8 →
    ExceptT RowError Option (List (String × Value) × List UInt8)
  | [], bs => return ([], bs)
  | name :: names, bs => do
    let (v, bs) ← unpackValue? bs
    let (fs, bs) ← unpackFields? names bs
    return ((name, v) :: fs, bs)

/-- Reads a row like `unpackRow`, and fails where that would look or cut past
the end of the bytes. -/
def unpackRow? (columns : List String) (bs : List UInt8) : ExceptT RowError Option Row := do
  let (fs, rest) ← unpackFields? columns bs
  if rest.isEmpty then return Row.ofList fs else throw (.trailing rest.length)

variable {α β : Type}

theorem uncut_bind (x : Except RowError α) (f : α → Except RowError β) :
    (uncut x >>= fun a => uncut (f a)) = uncut (x >>= f) := by
  cases x <;> rfl

theorem split?_eq {n : Nat} (h : ¬bs.length < n) : split? n bs = some (bs.splitAt n) :=
  if_pos (Nat.not_lt.mp h)

theorem takeBytes?_eq (n : Nat) (bs : List UInt8) : takeBytes? n bs = uncut (takeBytes n bs) := by
  rw [takeBytes?, takeBytes]
  split
  · rfl
  · next h =>
    rw [split?_eq h]
    rfl

theorem takeNat?_eq (width : Nat) (bs : List UInt8) :
    takeNat? width bs = uncut (takeNat width bs) := by
  rw [takeNat?, takeBytes?_eq, takeNat]
  cases takeBytes width bs <;> rfl

theorem takeText?_eq (bs : List UInt8) : takeText? bs = uncut (takeText bs) := by
  rw [takeText?, takeNat?_eq]
  cases hn : takeNat 4 bs with
  | error e =>
      rw [takeText, hn]
      rfl
  | ok r =>
      obtain ⟨length, behind⟩ := r
      rw [takeText_of_takeNat hn]
      change (if behind.length < length then _ else _) = _
      split
      · rfl
      · next h =>
        rw [split?_eq h, List.splitAt_eq]
        change (uncut ((Text.ofUtf8 (behind.take length)).mapError .badText) >>= _) = _
        cases Text.ofUtf8 (behind.take length) <;> rfl

theorem unpackPayload?_eq (k : Kind) (bs : List UInt8) :
    unpackPayload? k bs = uncut (unpackPayload k bs) := by
  cases k with
  | null => rfl
  | bool =>
      rw [unpackPayload?, unpackPayload, takeNat?_eq]
      cases takeNat 1 bs <;> rfl
  | text =>
      rw [unpackPayload?, unpackPayload, takeText?_eq]
      cases takeText bs <;> rfl
  | date =>
      rw [unpackPayload?, unpackPayload, takeNat?_eq]
      cases takeNat 4 bs <;> rfl
  | _ =>
      rw [unpackPayload?, unpackPayload, takeNat?_eq]
      cases takeNat 8 bs <;> rfl

theorem unpackValue?_eq (bs : List UInt8) : unpackValue? bs = uncut (unpackValue bs) := by
  cases bs with
  | nil => rfl
  | cons t bs =>
      have hlen : ¬(t :: bs).length < 1 := by
        rw [List.length_cons]
        omega
      rw [unpackValue?, if_neg hlen, split?_eq hlen, List.splitAt_eq, unpackValue]
      change (if nullTag ≤ t then _ else _) = _
      split
      · rfl
      · cases Kind.ofTag? t with
        | none => rfl
        | some k => exact unpackPayload?_eq k bs

theorem unpackFields?_eq (columns : List String) (bs : List UInt8) :
    unpackFields? columns bs = uncut (unpackFields columns bs) := by
  induction columns generalizing bs with
  | nil => rfl
  | cons name columns ih =>
      rw [unpackFields?, unpackFields, unpackValue?_eq, ← uncut_bind]
      refine congrArg _ (funext fun r => ?_)
      obtain ⟨v, behind⟩ := r
      dsimp only
      rw [ih, ← uncut_bind]
      rfl

theorem unpackRow?_eq (columns : List String) (bs : List UInt8) :
    unpackRow? columns bs = uncut (unpackRow columns bs) := by
  rw [unpackRow?, unpackRow, unpackFields?_eq, ← uncut_bind]
  refine congrArg _ (funext fun r => ?_)
  obtain ⟨fields, left⟩ := r
  dsimp only
  split <;> rfl

/-! ## What is accepted -/

/-- **The bytes of a row are those of one value for each column, and no row is
at the front of another.**  Whatever the bytes, nothing is looked at or cut off
past their end. -/
theorem unpackRow_accepts (columns : List String) (bs : List UInt8) :
    (Accepts columns bs ↔ RowBytes columns bs) ∧
    (Accepts columns bs → ∀ other, bs <+: other ∨ other <+: bs → other ≠ bs →
      ¬Accepts columns other) ∧
    (unpackRow? columns bs).run = some (unpackRow columns bs) := by
  refine ⟨accepts_iff, fun h other hp hne h' => ?_, unpackRow?_eq columns bs⟩
  exact hne (accepts_prefixFree h h' hp).symm

/-- A flagged byte and a text of one letter are a row of two columns, and are
none without the letter. -/
theorem unpackRow_accepts_two :
    Accepts ["k", "t"] [0xFF, 4, 0, 0, 0, 1, 0x61] ∧
      ¬Accepts ["k", "t"] [0xFF, 4, 0, 0, 0, 1] := by
  obtain ⟨hgrammar, halone, -⟩ := unpackRow_accepts ["k", "t"] [0xFF, 4, 0, 0, 0, 1, 0x61]
  have hrow : RowBytes ["k", "t"] [0xFF, 4, 0, 0, 0, 1, 0x61] := by
    refine ⟨[[0xFF], 4 :: ([0, 0, 0, 1] ++ Text.utf8 "a")], rfl, ?_, by decide⟩
    have htext : ValueBytes (4 :: ([0, 0, 0, 1] ++ Text.utf8 "a")) := .text rfl (by decide)
    exact List.forall_mem_cons.mpr ⟨.flagged (by decide), by simpa using htext⟩
  have haccepts := hgrammar.mpr hrow
  exact ⟨haccepts, halone haccepts _ (.inr ⟨[0x61], rfl⟩) (by decide)⟩

end ExternalSort.Table
