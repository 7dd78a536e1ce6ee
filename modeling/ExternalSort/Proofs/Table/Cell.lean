/-
Values of cells, written and read again.

A cell is written as it is, unless it is a number, and what is read of it is the
value again, but for floating-point numbers that are written like integers
(`cellValue_display`).  Of two floating-point numbers the texts stand as the
numbers do; beside an integer that holds only of a number that is written exactly.
All other values keep their kinds, so that values are compared as before
(`compare?_display`).  The two zeros cannot be told apart when they are read
again (`compare?_display_of_opposite`).
-/
import ExternalSort.Proofs.Binary64.Text
import ExternalSort.Proofs.Order.Values
import ExternalSort.Table.Cell

namespace ExternalSort

open Text (Digits withSign)

namespace Table

variable {cell : String} {v w v' w' : Value} {x : Binary64}

/-! ## Characters of numbers -/

/-- Characters that a number is written with. -/
def isNumeral (c : Char) : Bool := c.isDigit || c == '-' || c == '.'

/-- A number is written with at least one character, and its characters say that it is
one. -/
structure Numeral (cs : List Char) : Prop where
  ne_nil : cs ≠ []
  all : ∀ c ∈ cs, isNumeral c = true

theorem isNumeral_of_isDigit {c : Char} (h : c.isDigit = true) : isNumeral c = true := by
  rw [isNumeral, h]
  rfl

theorem numeral_withSign {cs : List Char} (h : Numeral cs) (negative : Bool) :
    Numeral (withSign negative cs) := by
  cases negative with
  | true => exact ⟨List.cons_ne_nil _ _, List.forall_mem_cons.mpr ⟨rfl, h.all⟩⟩
  | false => exact h

theorem numeral_toInt (i : Int) : Numeral (toString i).toList := by
  have hd := Digits.toDigits i.natAbs
  rw [Text.toString_toInt]
  exact numeral_withSign ⟨hd.ne_nil, fun c hc => isNumeral_of_isDigit (hd.all c hc)⟩ _

theorem numeral_spelled {d : Decimal} {cs : List Char} (h : d.Spelled cs) : Numeral cs := by
  cases h with
  | whole _ hcs => exact ⟨hcs.ne_nil, fun c hc => isNumeral_of_isDigit (hcs.all c hc)⟩
  | pointed hw hp =>
      refine ⟨by simp, ?_⟩
      intro c hc
      rcases List.mem_append.mp hc with hc | hc
      · exact isNumeral_of_isDigit (hw.all c hc)
      · rcases List.mem_cons.mp hc with rfl | hc
        · rfl
        · exact isNumeral_of_isDigit (hp c hc)

theorem numeral_text (hf : x.isFinite = true) : Numeral x.text.toList := by
  rw [Binary64.text_eq hf]
  exact numeral_withSign (numeral_spelled x.written.spelled_positional) _

theorem cellValue_of_numeral (h : Numeral cell.toList) :
    cellValue cell = match Text.int64? cell.toList with
      | some i => .int i
      | none =>
        match floatCell? cell.toList with
        | some x => .float x
        | none => .text cell := by
  have hne : ∀ s : String, (∃ c ∈ s.toList, isNumeral c = false) → cell ≠ s := by
    rintro s ⟨c, hc, hn⟩ rfl
    exact absurd ((h.all c hc).symm.trans hn) (by simp)
  have hempty : ¬cell.isEmpty = true := by
    rw [String.isEmpty_iff]
    rintro rfl
    exact h.ne_nil rfl
  have htrue : cell ≠ "true" := hne "true" ⟨'t', by decide, by decide⟩
  have hfalse : cell ≠ "false" := hne "false" ⟨'f', by decide, by decide⟩
  exact (if_neg hempty).trans ((if_neg htrue).trans (if_neg hfalse))

/-! ## Values that are written and read -/

/-- What becomes of a value that is written and read again: it stays what it is, or a
floating-point number has become the integer that its text looks like. -/
inductive Rereads : Value → Value → Prop
  | same (v : Value) : Rereads v v
  | whole {x : Binary64} {i : Int64} : x.isFinite = true → Text.int64? x.text.toList = some i →
      Rereads (.float x) (.int i)

theorem cellValue_cases (cell : String) :
    (cellValue cell).kind.family ≠ .int ∧ (cellValue cell).display = cell ∨
      (∃ i, cellValue cell = .int i) ∨ ∃ x, cellValue cell = .float x ∧ x.isFinite = true := by
  rw [cellValue]
  split
  · next h => exact .inl ⟨by decide, (String.isEmpty_iff.mp h).symm⟩
  split
  · next h => exact .inl ⟨by decide, h.symm⟩
  split
  · next h => exact .inl ⟨by decide, h.symm⟩
  split
  · next i _ => exact .inr (.inl ⟨i, rfl⟩)
  split
  · next x h => exact .inr (.inr ⟨x, rfl, (Option.filter_eq_some_iff.mp h).2⟩)
  · exact .inl ⟨by simp [Value.kind, Kind.family], rfl⟩

theorem display_cellValue (cell : String) :
    (cellValue cell).display = cell ∨ Numeral (cellValue cell).display.toList := by
  rcases cellValue_cases cell with ⟨-, h⟩ | ⟨i, h⟩ | ⟨x, h, hf⟩
  · exact .inl h
  · rw [h]
    exact .inr (numeral_toInt i.toInt)
  · rw [h]
    exact .inr (numeral_text hf)

theorem cellValue_display (cell : String) :
    Rereads (cellValue cell) (cellValue (cellValue cell).display) := by
  rcases cellValue_cases cell with ⟨-, hd⟩ | ⟨i, hi⟩ | ⟨x, hx, hf⟩
  · rw [hd]
    exact .same _
  · have hread : cellValue (Value.int i).display = .int i := by
      show cellValue (toString i.toInt) = _
      rw [cellValue_of_numeral (numeral_toInt i.toInt), Text.int64?_toString]
    rw [hi, hread]
    exact .same _
  · rw [hx]
    show Rereads _ (cellValue x.text)
    rw [cellValue_of_numeral (numeral_text hf)]
    cases hi : Text.int64? x.text.toList with
    | some i => exact .whole hf hi
    | none =>
        have hread : floatCell? x.text.toList = some x := by
          rw [floatCell?, Binary64.read?_text hf, Option.filter_some, if_pos hf]
        dsimp only
        rw [hread]
        exact .same _

theorem Rereads.family (h : Rereads v v') : v'.kind.family = v.kind.family := by
  cases h with
  | same => rfl
  | whole => rfl

/-! ## Where they stand -/

theorem Rereads.place_eq (h : Rereads v v') (hexact : ∀ x, v = .float x → x.Exact) :
    v'.spot.place = v.spot.place := by
  cases h with
  | same => rfl
  | whole hf hi => exact Binary64.wholePlace_eq_place hf (hexact _ rfl) hi

/-- **Floating-point numbers are read in the order in which they stood**, exactly written or
not. -/
theorem Rereads.place_lt {y : Binary64} (hx : x.isFinite = true) (hy : y.isFinite = true)
    (h : Rereads (.float x) v') (k : Rereads (.float y) w') (hlt : x.place < y.place) :
    v'.spot.place < w'.spot.place := by
  have hnear : ∀ {x : Binary64} {v'}, Rereads (.float x) v' →
      ∃ q, x.Near q ∧ (v'.spot.place : ℚ) = x.toSide q * 2 ^ Binary64.depth := by
    intro x v' h
    cases h with
    | same => exact ⟨_, Binary64.near_size x, Binary64.place_eq_size x⟩
    | whole hf hi => exact ⟨_, Binary64.near_written x, Binary64.wholePlace_eq_written hf hi⟩
  obtain ⟨a, ha, hv⟩ := hnear h
  obtain ⟨b, hb, hw⟩ := hnear k
  have hplaces : (v'.spot.place : ℚ) < w'.spot.place := by
    rw [hv, hw]
    exact mul_lt_mul_of_pos_right (ha.toSide_lt hx hy hb hlt) (by positivity)
  exact_mod_cast hplaces

/-- The two floating-point zeros. -/
def Opposite (v w : Value) : Prop :=
  v = .positiveZero ∧ w = .negativeZero ∨ v = .negativeZero ∧ w = .positiveZero

theorem eq_of_places {y : Binary64} (h : x.place = y.place) (hz : ¬Opposite (.float x) (.float y)) :
    x = y := by
  rcases Binary64.eq_of_place_eq h with he | ⟨hx, hy⟩
  · exact he
  · have hx₀ := Binary64.ofMagnitude_eq x
    have hy₀ := Binary64.ofMagnitude_eq y
    rw [hx] at hx₀
    rw [hy] at hy₀
    rw [← hx₀, ← hy₀] at hz ⊢
    cases hn : x.isNegative <;> cases hm : y.isNegative
    · rfl
    · exact absurd (.inl ⟨by rw [hn]; rfl, by rw [hm]; rfl⟩) hz
    · exact absurd (.inr ⟨by rw [hn]; rfl, by rw [hm]; rfl⟩) hz
    · rfl

theorem compare_spot_of_not_opposite (h : ¬Opposite v w) :
    v.spot.compare w.spot = Spot.compareCoarse v.spot w.spot := by
  have hsides : Spot.compareCoarse v.spot w.spot = .eq →
      Spot.compareSides v.spot.side w.spot.side = .eq := by
    intro hc
    cases hv : v.spot.side with
    | none => rfl
    | some s =>
        cases hw : w.spot.side with
        | none => rfl
        | some t =>
            obtain ⟨x, rfl, hx⟩ := Value.eq_float_of_side hv
            obtain ⟨y, rfl, hy⟩ := Value.eq_float_of_side hw
            obtain rfl := eq_of_places (Spot.place_eq_of_coarse hc) h
            rw [hx, Bool.not_inj_iff] at hy
            rw [hy, Spot.compareSides_self]
  rw [Spot.compare]
  cases hc : Spot.compareCoarse v.spot w.spot with
  | lt => rfl
  | gt => rfl
  | eq => exact hsides hc

theorem not_opposite_int (i : Int64) (v : Value) :
    ¬Opposite (.int i) v ∧ ¬Opposite v (.int i) := by
  simp [Opposite, Value.positiveZero, Value.negativeZero]

theorem Rereads.not_opposite (h : Rereads v v') (k : Rereads w w') (hz : ¬Opposite v w) :
    ¬Opposite v' w' := by
  cases h with
  | same =>
      cases k with
      | same => exact hz
      | whole => exact (not_opposite_int _ _).2
  | whole => exact (not_opposite_int _ _).1

/-! ## Comparing them again -/

/-- Of an integer and a floating-point number in one column the latter is written exactly. -/
structure Beside (v w : Value) : Prop where
  left : ∀ x i, v = .float x → w = .int i → x.Exact
  right : ∀ x i, v = .int i → w = .float x → x.Exact

section Beside

variable {c d : String} (hbeside : Beside (cellValue c) (cellValue d))
  (hz : ¬Opposite (cellValue c) (cellValue d))
include hbeside hz

theorem compare_place_display (hc : (cellValue c).kind.family = .int)
    (hd : (cellValue d).kind.family = .int) :
    compare (cellValue (cellValue c).display).spot.place
        (cellValue (cellValue d).display).spot.place =
      compare (cellValue c).spot.place (cellValue d).spot.place := by
  have h := cellValue_display c
  have k := cellValue_display d
  rcases cellValue_cases c with ⟨hn, -⟩ | ⟨i, hi⟩ | ⟨x, hx, hfx⟩
  · exact absurd hc hn
  · rw [k.place_eq fun x hx => hbeside.right x i hi hx, h.place_eq fun x hx => by simp [hi] at hx]
  rcases cellValue_cases d with ⟨hn, -⟩ | ⟨i, hi⟩ | ⟨y, hy, hfy⟩
  · exact absurd hd hn
  · rw [h.place_eq fun x hx => hbeside.left x i hx hi, k.place_eq fun x hx => by simp [hi] at hx]
  rw [hx, hy] at hz ⊢
  rw [hx] at h
  rw [hy] at k
  show compare _ _ = compare x.place y.place
  rcases Int.lt_trichotomy x.place y.place with hlt | heq | hgt
  · rw [Int.compare_eq_lt.mpr hlt, Int.compare_eq_lt.mpr (h.place_lt hfx hfy k hlt)]
  · obtain rfl := eq_of_places heq hz
    rw [Int.compare_eq_eq.mpr rfl, Int.compare_eq_eq.mpr rfl]
  · rw [Int.compare_eq_gt.mpr hgt, Int.compare_eq_gt.mpr (k.place_lt hfy hfx h hgt)]

theorem compare_spot_display (hc : (cellValue c).kind.family = .int)
    (hd : (cellValue d).kind.family = .int) :
    (cellValue (cellValue c).display).spot.compare (cellValue (cellValue d).display).spot =
      (cellValue c).spot.compare (cellValue d).spot := by
  have hnumbers : ∀ {v w : Value}, v.kind.family = .int → w.kind.family = .int →
      ¬Opposite v w → v.spot.compare w.spot = compare v.spot.place w.spot.place := by
    intro v w hv hw hz
    have hspot : ∀ {v : Value}, v.kind.family = .int →
        v.spot.missing = false ∧ v.spot.text = "" := by
      intro v hv
      cases v <;> first | exact ⟨rfl, rfl⟩ | exact absurd hv (by simp [Value.kind, Kind.family])
    obtain ⟨hvm, hvt⟩ := hspot hv
    obtain ⟨hwm, hwt⟩ := hspot hw
    rw [compare_spot_of_not_opposite hz]
    exact Spot.compareCoarse_of_places (hvm.trans hwm.symm) (hvt.trans hwt.symm)
  have h := cellValue_display c
  have k := cellValue_display d
  rw [hnumbers hc hd hz, ← compare_place_display hbeside hz hc hd]
  exact hnumbers (h.family.trans hc) (k.family.trans hd) (h.not_opposite k hz)

/-- **Values of cells that are written and read again compare as they did**, unless they are
the two floating-point zeros, or an integer and a number that is not written exactly. -/
theorem compare?_display : (cellValue (cellValue c).display).compare?
    (cellValue (cellValue d).display) = (cellValue c).compare? (cellValue d) := by
  have hsame : ∀ {v v' : Value}, Rereads v v' → v.kind.family ≠ .int → v' = v := by
    intro v v' h hv
    cases h with
    | same => rfl
    | whole => exact absurd rfl hv
  have hother : ∀ {v w w' : Value}, v.kind.family ≠ .int → Rereads w w' →
      v.compare? w' = v.compare? w := by
    intro v w w' hv k
    cases k with
    | same => rfl
    | whole => cases v <;> first | rfl | exact absurd rfl hv
  have h := cellValue_display c
  have k := cellValue_display d
  by_cases hc : (cellValue c).kind.family = .int
  · by_cases hd : (cellValue d).kind.family = .int
    · have hkinds : (cellValue (cellValue c).display).kind.comparesWith
          (cellValue (cellValue d).display).kind = true :=
        Kind.comparesWith_iff.mpr ((h.family.trans hc).trans (k.family.trans hd).symm)
      rw [Value.compare?_eq, Value.compare?_eq, hkinds,
        Kind.comparesWith_iff.mpr (hc.trans hd.symm), compare_spot_display hbeside hz hc hd]
      simp
    · rw [hsame k hd, Value.compare?_swap, hother hd h, ← Value.compare?_swap]
  · rw [hsame h hc, hother hc k]

end Beside

/-- The two floating-point zeros are read as the same integer. -/
theorem compare?_display_of_opposite {c d : String} (h : Opposite (cellValue c) (cellValue d)) :
    (cellValue (cellValue c).display).compare? (cellValue (cellValue d).display) = some .eq := by
  have hpositive : cellValue Value.positiveZero.display = .int 0 := by decide +kernel
  have hnegative : cellValue Value.negativeZero.display = .int 0 := by decide +kernel
  rcases h with ⟨hc, hd⟩ | ⟨hc, hd⟩
  · rw [hc, hd, hpositive, hnegative]
    exact Value.compare?_self _
  · rw [hc, hd, hpositive, hnegative]
    exact Value.compare?_self _

end Table

end ExternalSort
