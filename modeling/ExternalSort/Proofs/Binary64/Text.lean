/-
The text of a floating-point number is read as the number.

The decimal of the text, in full, has the digits and the exponent that are read
of it again (`Decimal.Spelled`), so the text of a finite number is read as that
number (`read?_text`).  If it is read as an integer, then the decimal is whole.
Up to `2 ^ 53` only the number itself is that; from there on the decimal may be
another whole number of the basin, and the integer stands elsewhere, unless the
number is written exactly (`wholePlace_eq_place`).  Beyond `2 ^ 63` no text is an
integer (`written_value_gt`).  Exact or not, what is written of two numbers stands
as the numbers do (`Near.toSide_lt`).
-/
import ExternalSort.Proofs.Binary64.Shortest
import ExternalSort.Proofs.Binary64.Value
import ExternalSort.Proofs.Text.Number

namespace ExternalSort

open Text (Digits digitsValue withSign signed)

namespace Decimal

variable {d : Decimal} {cs : List Char}

/-! ## Decimals in full -/

/-- Digits, with a point among them if the decimal may have a part smaller than one. -/
inductive Spelled (d : Decimal) : List Char → Prop
  | whole {cs : List Char} : 0 ≤ d.exponent → Digits cs → digitsValue cs = d.value → Spelled d cs
  | pointed {whole part : List Char} : Digits whole → (∀ c ∈ part, c.isDigit = true) →
      d.exponent = -(part.length : ℤ) → digitsValue (whole ++ part) = d.digits →
      Spelled d (whole ++ '.' :: part)

theorem spelled_positional (d : Decimal) : Spelled d d.positional.toList := by
  have hdigits := Digits.toDigits d.digits
  rw [positional]
  dsimp only
  split
  · next h =>
    rw [String.toList_ofList]
    refine .whole h (hdigits.append Text.isDigit_of_mem_zeros) ?_
    rw [Text.digitsValue_append_zeros, Text.digitsValue_toDigits, value, ← Binary64.pow_toNat 10 h]
    push_cast
    rfl
  · next h =>
    generalize hp : (-d.exponent).toNat = places
    generalize hcs : List.replicate (places + 1 - (Nat.toDigits 10 d.digits).length) '0' ++
      Nat.toDigits 10 d.digits = cs
    have hall : ∀ c ∈ cs, c.isDigit = true := by
      intro c hc
      rw [← hcs] at hc
      exact (List.mem_append.mp hc).elim (Text.isDigit_of_mem_zeros c) (hdigits.all c)
    have hlen : places + 1 ≤ cs.length := by
      rw [← hcs, List.length_append, List.length_replicate]
      omega
    have hvalue : digitsValue cs = d.digits := by
      rw [← hcs, Text.digitsValue_zeros_append, Text.digitsValue_toDigits]
    rw [List.splitAt_eq, String.toList_ofList]
    refine .pointed ⟨?_, ?_⟩ ?_ ?_ ?_
    · rw [ne_eq, ← List.length_eq_zero_iff, List.length_take]
      omega
    · exact fun c hc => hall c (List.mem_of_mem_take hc)
    · exact fun c hc => hall c (List.mem_of_mem_drop hc)
    · rw [List.length_drop]
      omega
    · rwa [List.take_append_drop]

theorem Spelled.head (h : Spelled d cs) : ∃ c rest, cs = c :: rest ∧ c.isDigit = true := by
  have hd : ∀ {ds : List Char}, Digits ds → ∃ c rest, ds = c :: rest ∧ c.isDigit = true := by
    intro ds hds
    obtain ⟨c, rest, rfl⟩ := List.exists_cons_of_ne_nil hds.ne_nil
    exact ⟨c, rest, rfl, hds.all c List.mem_cons_self⟩
  cases h with
  | whole _ hcs => exact hd hcs
  | pointed hw =>
      obtain ⟨c, rest, rfl, hc⟩ := hd hw
      exact ⟨c, _, rfl, hc⟩

theorem Spelled.read (h : Spelled d cs) :
    ∃ e, Binary64.readDecimal cs = some e ∧ e.value = d.value := by
  cases h with
  | whole h hcs hv =>
      refine ⟨⟨digitsValue cs, 0⟩, ?_, by simpa [value] using hv⟩
      rw [Binary64.readDecimal, List.takeWhile_eq_self_iff.mpr hcs.all,
        List.dropWhile_eq_nil_iff.mpr hcs.all]
      simp [hcs.ne_nil, Binary64.readExponent]
  | @pointed whole part hw hp he hv =>
      refine ⟨⟨digitsValue (whole ++ part), -(part.length : ℤ)⟩, ?_, by rw [value, value, hv, he]⟩
      have htake : (whole ++ '.' :: part).takeWhile Char.isDigit = whole := by
        rw [List.takeWhile_append_of_pos hw.all, List.takeWhile_cons_of_neg (by decide),
          List.append_nil]
      have hdrop : (whole ++ '.' :: part).dropWhile Char.isDigit = '.' :: part := by
        rw [List.dropWhile_append_of_pos hw.all, List.dropWhile_cons_of_neg (by decide)]
      rw [Binary64.readDecimal, htake, hdrop]
      simp [List.takeWhile_eq_self_iff.mpr hp, List.dropWhile_eq_nil_iff.mpr hp, hw.ne_nil,
        Binary64.readExponent]

/-- A decimal with a point is no whole number to a reader. -/
theorem Spelled.digits (h : Spelled d cs) {n : ℕ} (hn : Text.digits? cs = some n) :
    0 ≤ d.exponent ∧ (n : ℚ) = d.value := by
  cases h with
  | whole h hcs hv =>
      rw [Text.digits?_eq hcs] at hn
      exact ⟨h, by rw [← Option.some.inj hn, hv]⟩
  | pointed =>
      rw [Text.digits?_eq_none (c := '.') (by simp) rfl] at hn
      exact absurd hn (by simp)

end Decimal

namespace Binary64

variable {x : Binary64} {cs : List Char}

/-- The decimal that stands in the text of a finite number. -/
def written (x : Binary64) : Decimal := if x.isZero then ⟨0, 0⟩ else x.shortest

theorem text_eq (hf : x.isFinite = true) :
    x.text.toList = withSign x.isNegative x.written.positional.toList := by
  have he : (x.exponentBits == 2047) = false := by simpa [isFinite] using hf
  have hzero : Decimal.positional ⟨0, 0⟩ = "0" := by decide
  have hu : x.unsignedText = x.written.positional := by
    rw [unsignedText, isInfinite, he, written]
    cases x.isZero with
    | true => exact hzero.symm
    | false => rfl
  rw [text, isNaN, he, hu, withSign]
  cases x.isNegative with
  | true => simp
  | false => rfl

theorem ofMagnitude_eq (x : Binary64) : ofMagnitude x.isNegative x.magnitude = x := by
  have hlt := x.bits.toNat_lt
  obtain ⟨b⟩ := x
  have hbits : (if isNegative ⟨b⟩ then magnitudes + magnitude ⟨b⟩ else magnitude ⟨b⟩) = b.toNat := by
    cases hn : isNegative ⟨b⟩ with
    | true =>
        have hle : magnitudes ≤ b.toNat := of_decide_eq_true hn
        simp only [magnitude, magnitudes, if_true] at hle hlt ⊢
        omega
    | false =>
        have hlt : ¬magnitudes ≤ b.toNat := of_decide_eq_false hn
        rw [if_neg (by simp)]
        exact Nat.mod_eq_of_lt (Nat.not_le.mp hlt)
  rw [ofMagnitude, hbits, UInt64.ofNat_toNat]

theorem ofDecimal_written {d : Decimal} (negative : Bool) (hf : x.isFinite = true)
    (h : d.value = x.written.value) : ofDecimal negative d = ofMagnitude negative x.magnitude := by
  rw [written] at h
  cases hz : x.isZero with
  | true =>
      have hm : x.magnitude = 0 := by simpa [isZero] using hz
      have hd : d.digits = 0 := by
        have hten : (10 : ℚ) ^ d.exponent ≠ 0 := by positivity
        simpa [hz, Decimal.value, hten] using h
      rw [ofDecimal, if_pos hd, hm]
  | false =>
      rw [hz, if_neg (by simp)] at h
      exact ofDecimal_eq negative hf (units_pos hz) (h ▸ shortest_contains (units_pos hz))

/-- **A finite number is read from its text.** -/
theorem read?_text (hf : x.isFinite = true) : read? x.text.toList = some x := by
  have hs := x.written.spelled_positional
  obtain ⟨c, rest, hc, hd⟩ := hs.head
  obtain ⟨d, hr, hv⟩ := hs.read
  have hread : ∀ negative, readUnsigned negative x.written.positional.toList =
      some (ofMagnitude negative x.magnitude) := by
    intro negative
    rw [readUnsigned, hr]
    exact congrArg some (ofDecimal_written negative hf hv)
  rw [text_eq hf]
  have hx := ofMagnitude_eq x
  cases hn : x.isNegative with
  | true =>
      rw [hn] at hx
      exact (hread true).trans (congrArg some hx)
  | false =>
      rw [hn] at hx
      obtain ⟨hm, hp⟩ := Text.head_ne_sign hd
      show read? x.written.positional.toList = _
      refine Eq.trans ?_ ((hread false).trans (congrArg some hx))
      rw [hc, read?]
      · intro r hr
        exact hm (List.cons.inj hr).1
      · intro r hr
        exact hp (List.cons.inj hr).1

/-! ## Whole numbers -/

theorem written_of_int64? (hf : x.isFinite = true) {i : Int64}
    (h : Text.int64? x.text.toList = some i) :
    0 ≤ x.written.exponent ∧ ∃ n : ℕ, (n : ℚ) = x.written.value ∧
      i.toInt = signed x.isNegative n := by
  have hs := x.written.spelled_positional
  obtain ⟨c, rest, hc, hd⟩ := hs.head
  have hsigned := Text.signed?_of_int64? h
  rw [text_eq hf, hc, Text.signed?_withSign _ hd, ← hc, Option.map_eq_some_iff] at hsigned
  obtain ⟨n, hn, hi⟩ := hsigned
  obtain ⟨he, hv⟩ := hs.digits hn
  exact ⟨he, n, hv, hi.symm⟩

/-- A quantity on the side of zero where a number is. -/
def toSide (x : Binary64) (q : ℚ) : ℚ := if x.isNegative then -q else q

theorem place_eq_size (x : Binary64) : (x.place : ℚ) = x.toSide x.size * 2 ^ depth := by
  have hvalue : x.value = x.toSide x.size := by
    rw [value, signedUnits, toSide, size]
    split
    · push_cast
      exact neg_mul _ _
    · push_cast
      rfl
  rw [place_eq_value, hvalue]

/-- Where a unit is not greater than one, a decimal without a part smaller than one is in
no basin but that of its own number. -/
theorem written_value_of_whole (hs : x.scale ≤ 0) (he : 0 ≤ x.written.exponent) :
    x.written.value = x.size := by
  rw [written] at he ⊢
  cases hz : x.isZero with
  | true =>
      rw [if_pos rfl, size_eq_zero hz]
      simp [Decimal.value]
  | false =>
      rw [hz, if_neg (by simp)] at he
      rw [if_neg (by simp)]
      have hpos := units_pos hz
      obtain ⟨hlo, hhi, -⟩ := shortest_contains hpos
      have hreach := reach_le x
      obtain ⟨n, hn⟩ : ∃ n : ℕ, x.shortest.value = n :=
        ⟨x.shortest.digits * 10 ^ x.shortest.exponent.toNat, by
          rw [Decimal.value, ← pow_toNat 10 he]
          push_cast
          rfl⟩
      have hunit : (2 : ℚ) ^ x.scale * 2 ^ (-x.scale).toNat = 1 := by
        rw [pow_toNat 2 (by omega), ← zpow_add₀ two_ne_zero, add_neg_cancel, zpow_zero]
      rw [basin_lo hpos, hn] at hlo
      rw [basin_hi, hn] at hhi
      rw [hn, size]
      generalize (-x.scale).toNat = k at hunit
      have hk : (0 : ℚ) < 2 ^ k := by positivity
      -- counted in units, both are whole numbers
      have hwhole : n * 2 ^ k = x.units := by
        have hle := mul_le_mul_of_nonneg_right hlo hk.le
        have hge := mul_le_mul_of_nonneg_right hhi hk.le
        rw [mul_assoc, hunit, mul_one] at hle hge
        have hlt : (x.units : ℚ) < ((n * 2 ^ k : ℕ) : ℚ) + 1 := by
          push_cast
          linarith
        have hgt : ((n * 2 ^ k : ℕ) : ℚ) < x.units + 1 := by
          push_cast
          linarith
        have hlt : x.units < n * 2 ^ k + 1 := by exact_mod_cast hlt
        have hgt : n * 2 ^ k < x.units + 1 := by exact_mod_cast hgt
        omega
      rw [← hwhole]
      push_cast
      rw [mul_assoc, mul_comm ((2 : ℚ) ^ k), hunit, mul_one]

/-- The number `2 ^ 63` is written as a greater one. -/
theorem shortest_limit (negative : Bool) :
    (ofMagnitude negative (1086 * fractions)).shortest = ⟨9223372036854776, 3⟩ := by
  cases negative <;> decide +kernel

theorem scale_ge_of_size (hx : 2 ^ 63 ≤ x.size) : 11 ≤ x.scale := by
  by_contra hs
  have hm : (x.units : ℚ) < 2 * fractions := by exact_mod_cast units_lt x
  have hu : (2 : ℚ) ^ x.scale ≤ 2 ^ (10 : ℤ) := zpow_le_zpow_right₀ one_le_two (by omega)
  have hlt : x.size < 2 * fractions * 2 ^ (10 : ℤ) :=
    mul_lt_mul hm hu (by positivity) (by positivity)
  rw [cast_fractions] at hlt
  exact absurd (hx.trans_lt hlt) (by norm_num)

theorem magnitude_of_fractions (hu : x.units = fractions) (hs : x.scale = 11) :
    x.magnitude = 1086 * fractions := by
  rw [← magnitude_eq]
  rcases units_cases x with ⟨-, -, h⟩ | ⟨-, hf, h⟩
  · omega
  · have h1 : x.exponentBits = 1086 := by omega
    rw [h1]
    omega

/-- From `2 ^ 63` on, what is written is no integer of 64 bits. -/
theorem written_value_gt (hx : 2 ^ 63 ≤ x.size) : 2 ^ 63 < x.written.value := by
  have hz : x.isZero = false := isZero_of_size_pos (lt_of_lt_of_le (by norm_num) hx)
  have hpos := units_pos hz
  have hs := scale_ge_of_size hx
  have hm := fractions_le_units (x := x) (by omega)
  rw [written, hz, if_neg (by simp)]
  have hreach := reach_le x
  have hlo := (shortest_contains hpos).lower
  rw [basin_lo hpos] at hlo
  rcases Int.lt_or_eq_of_le hs with hs | hs
  · refine lt_of_lt_of_le ?_ hlo
    have hm : (fractions : ℚ) ≤ x.units := by exact_mod_cast hm
    have hle : (2 : ℚ) ^ (12 : ℤ) ≤ 2 ^ x.scale := zpow_le_zpow_right₀ one_le_two hs
    rw [cast_fractions] at hm
    calc (2 : ℚ) ^ 63 < (2 ^ 52 - 1 / 2) * 2 ^ (12 : ℤ) := by norm_num
      _ ≤ (x.units - x.reach) * 2 ^ x.scale :=
        mul_le_mul (by linarith) hle (by positivity) (by linarith)
  · rcases Nat.lt_or_eq_of_le hm with hm | hm
    · refine lt_of_lt_of_le ?_ hlo
      have hm : (fractions : ℚ) + 1 ≤ x.units := by exact_mod_cast hm
      rw [cast_fractions] at hm
      rw [← hs]
      calc (2 : ℚ) ^ 63 < (2 ^ 52 + 1 / 2) * 2 ^ (11 : ℤ) := by norm_num
        _ ≤ (x.units - x.reach) * 2 ^ (11 : ℤ) :=
          mul_le_mul_of_nonneg_right (by linarith) (by positivity)
    · -- the least number there is the only one whose basin reaches below
      rw [← ofMagnitude_eq x, magnitude_of_fractions hm.symm hs.symm, shortest_limit, Decimal.value]
      norm_num

theorem wholePlace_eq_written (hf : x.isFinite = true) {i : Int64}
    (h : Text.int64? x.text.toList = some i) :
    (wholePlace i.toInt : ℚ) = x.toSide x.written.value * 2 ^ depth := by
  obtain ⟨-, n, hn, hi⟩ := written_of_int64? hf h
  rw [wholePlace, hi, signed, toSide, ← hn]
  push_cast
  split <;> rfl

/-- A number is written exactly, if it is one of those that have no places behind the point
and are too great for all their digits to be needed, but small enough for an integer. -/
def Exact (x : Binary64) : Prop :=
  2 ^ 53 ≤ x.size → x.size < 2 ^ 63 → x.shortest.value = x.size

instance (x : Binary64) : Decidable x.Exact := inferInstanceAs (Decidable (_ → _ → _))

theorem size_ge_of_scale (hs : 0 < x.scale) : 2 ^ 53 ≤ x.size := by
  have hm : (fractions : ℚ) ≤ x.units := by exact_mod_cast fractions_le_units hs
  have hu : (2 : ℚ) ^ (1 : ℤ) ≤ 2 ^ x.scale := zpow_le_zpow_right₀ one_le_two hs
  rw [cast_fractions] at hm
  calc (2 : ℚ) ^ 53 = 2 ^ 52 * 2 ^ (1 : ℤ) := by norm_num
    _ ≤ (x.units : ℚ) * 2 ^ x.scale := mul_le_mul hm hu (by positivity) (by positivity)

/-- **A number whose text is an integer stands where that integer does**, if it is written
exactly. -/
theorem wholePlace_eq_place (hf : x.isFinite = true) (hexact : x.Exact) {i : Int64}
    (h : Text.int64? x.text.toList = some i) : wholePlace i.toInt = x.place := by
  obtain ⟨he, n, hn, hi⟩ := written_of_int64? hf h
  have hsize : x.written.value = x.size := by
    rcases le_or_gt x.scale 0 with hs | hs
    · exact written_value_of_whole hs he
    · have hge := size_ge_of_scale hs
      rcases lt_or_ge x.size (2 ^ 63) with hlt | hlarge
      · have hz : x.isZero = false := isZero_of_size_pos (lt_of_lt_of_le (by norm_num) hge)
        rw [written, hz, if_neg (by simp)]
        exact hexact hge hlt
      · have hgt := written_value_gt hlarge
        rw [← hn] at hgt
        have hgt : 2 ^ 63 < n := by exact_mod_cast hgt
        have hlo := i.le_toInt
        have hhi := i.toInt_lt
        rw [hi, signed] at hlo hhi
        split at hlo <;> simp_all <;> omega
  have hplace := wholePlace_eq_written hf h
  rw [hsize, ← place_eq_size] at hplace
  exact_mod_cast hplace

/-! ## The order of what is written -/

/-- A quantity that is rounded to the size of a number. -/
inductive Near (x : Binary64) : ℚ → Prop
  | zero : x.isZero = true → Near x 0
  | basin {q : ℚ} : x.isZero = false → x.basin.Contains q → Near x q

theorem near_size (x : Binary64) : x.Near x.size := by
  cases hz : x.isZero with
  | true =>
      rw [size_eq_zero hz]
      exact .zero hz
  | false => exact .basin hz (contains_size (units_pos hz))

theorem near_written (x : Binary64) : x.Near x.written.value := by
  rw [written]
  cases hz : x.isZero with
  | true =>
      rw [if_pos rfl, Decimal.value, Nat.cast_zero, zero_mul]
      exact .zero hz
  | false => exact .basin hz (shortest_contains (units_pos hz))

variable {y : Binary64} {a b : ℚ}

theorem Near.pos (h : x.Near a) (hx : 0 < x.size) : 0 < a := by
  cases h with
  | zero hz => exact absurd (size_eq_zero hz) hx.ne'
  | basin hz h => exact pos_of_contains (units_pos hz) h

theorem Near.nonneg (h : x.Near a) : 0 ≤ a := by
  cases h with
  | zero => exact le_rfl
  | basin hz h => exact (pos_of_contains (units_pos hz) h).le

section Order

variable (hx : x.isFinite = true) (hy : y.isFinite = true)
include hx hy

theorem Near.lt (ha : x.Near a) (hb : y.Near b) (h : x.size < y.size) : a < b := by
  have hpos := hb.pos (lt_of_le_of_lt (near_size x).nonneg h)
  cases ha with
  | zero => exact hpos
  | basin hxz ha =>
      cases hb with
      | zero => exact absurd hpos (lt_irrefl _)
      | basin hyz hb => exact lt_of_contains hx hy (units_pos hxz) (units_pos hyz) ha hb h

/-- What is rounded to numbers in different places stands in the order of the places. -/
theorem Near.toSide_lt (ha : x.Near a) (hb : y.Near b) (h : x.place < y.place) :
    x.toSide a < y.toSide b := by
  have hsizes : x.toSide x.size < y.toSide y.size := by
    have hplaces : (x.place : ℚ) < y.place := by exact_mod_cast h
    rw [place_eq_size, place_eq_size] at hplaces
    exact lt_of_mul_lt_mul_right hplaces (by positivity)
  have hx0 := (near_size x).nonneg
  have hy0 := (near_size y).nonneg
  rw [toSide, toSide] at hsizes ⊢
  cases hn : x.isNegative <;> cases hm : y.isNegative <;>
    simp only [hn, hm, Bool.false_eq_true, if_true, if_false] at hsizes ⊢
  · exact Near.lt hx hy ha hb hsizes
  · linarith
  · rcases lt_or_ge 0 x.size with hpos | hle
    · linarith [ha.pos hpos, hb.nonneg]
    · linarith [ha.nonneg, hb.pos (by linarith : 0 < y.size)]
  · exact neg_lt_neg (Near.lt hy hx hb ha (neg_lt_neg_iff.mp hsizes))

end Order

end Binary64

end ExternalSort
