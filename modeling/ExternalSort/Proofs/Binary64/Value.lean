/-
Comparing by exact value.

A finite number has a rational value, of which its place on the line is so many least
steps.  Hence the comparison with a whole number, which goes by whole parts and a
conversion to 64 bits, is that of the values (`whole_compares_by_value`).
-/
import ExternalSort.Proofs.Binary64.Whole
import ExternalSort.Value
import Mathlib.Algebra.Order.Field.Power
import Mathlib.Algebra.Order.Floor.Ring
import Mathlib.Data.Rat.Floor

namespace ExternalSort

namespace Binary64

variable {x : Binary64}

/-- The value of a finite number. -/
def value (x : Binary64) : ℚ := x.signedUnits * 2 ^ x.scale

/-- A place is a value counted in least steps. -/
theorem place_eq_value (x : Binary64) : (x.place : ℚ) = x.value * 2 ^ depth := by
  have he : x.scale + depth = (x.exponentBits - 1 : ℕ) := by
    by_cases hs : 0 ≤ x.scale
    · rw [exponent_of_scale hs]
      push_cast
      omega
    · rw [depth_of_scale hs]
      push_cast
      omega
  rw [place_eq, value, mul_assoc, ← zpow_natCast, ← zpow_add₀ two_ne_zero, he, zpow_natCast]
  push_cast
  rfl

theorem depth_steps_pos : (0 : ℚ) < 2 ^ depth := pow_pos two_pos _

theorem wholePlace_le_place_iff {i : ℤ} : wholePlace i ≤ x.place ↔ (i : ℚ) ≤ x.value := by
  rw [← Int.cast_le (R := ℚ), place_eq_value, wholePlace]
  push_cast
  exact mul_le_mul_iff_left₀ depth_steps_pos

theorem place_le_wholePlace_iff {i : ℤ} : x.place ≤ wholePlace i ↔ x.value ≤ i := by
  rw [← Int.cast_le (R := ℚ), place_eq_value, wholePlace]
  push_cast
  exact mul_le_mul_iff_left₀ depth_steps_pos

theorem compare_place (i : ℤ) (x : Binary64) :
    compare (wholePlace i) x.place = compare (i : ℚ) x.value := by
  rcases lt_trichotomy (i : ℚ) x.value with hlt | heq | hgt
  · rw [compare_lt_iff_lt.mpr hlt, compare_lt_iff_lt, ← not_le, place_le_wholePlace_iff, not_le]
    exact hlt
  · rw [compare_eq_iff_eq.mpr heq, compare_eq_iff_eq]
    exact le_antisymm (wholePlace_le_place_iff.mpr heq.le) (place_le_wholePlace_iff.mpr heq.ge)
  · rw [compare_gt_iff_gt.mpr hgt, compare_gt_iff_gt, ← not_le, wholePlace_le_place_iff, not_le]
    exact hgt

theorem wholePart_eq_value (x : Binary64) :
    x.wholePart = if x.isNegative then ⌈x.value⌉ else ⌊x.value⌋ := by
  split
  · next hx =>
    have hp : x.place ≤ 0 := by
      rw [place_of_isNegative hx]
      omega
    obtain ⟨hlt, hle⟩ := wholePart_of_nonpos hp
    rw [eq_comm, Int.ceil_eq_iff, ← place_le_wholePlace_iff, ← Int.cast_one, ← Int.cast_sub,
      ← not_le, ← place_le_wholePlace_iff, not_le]
    exact ⟨hlt, hle⟩
  · next hx =>
    have hp : 0 ≤ x.place := by
      rw [place_of_not_isNegative (Bool.eq_false_iff.mpr hx)]
      omega
    obtain ⟨hle, hlt⟩ := wholePart_of_nonneg hp
    rw [eq_comm, Int.floor_eq_iff, ← wholePlace_le_place_iff, ← Int.cast_one, ← Int.cast_add,
      ← not_le, ← wholePlace_le_place_iff, not_le]
    exact ⟨hle, hlt⟩

theorem value_of_place {i : ℤ} (h : x.place = wholePlace i) : x.value = i :=
  le_antisymm (place_le_wholePlace_iff.mp h.le) (wholePlace_le_place_iff.mp h.ge)

theorem inWords_iff_value (h : x.isFinite = true) :
    x.InWords ↔ -2 ^ 63 ≤ x.value ∧ x.value < 2 ^ 63 := by
  rw [inWords_iff, ← not_le, wholePlace_le_place_iff, wholePlace_le_place_iff, not_le]
  push_cast
  exact and_iff_right (isNaN_of_isFinite h)

theorem compareInt_outside (i : Int64) (h : x.isFinite = false) :
    x.compareInt i = if x.isNegative then .gt else .lt := by
  have he : x.magnitude / fractions = 2047 := by simpa [isFinite, exponentBits] using h
  have hfar := natAbs_wholePlace_lt (natAbs_toInt_le i) he
  rw [compareInt_eq]
  split
  · next hx =>
    rw [place_of_isNegative hx]
    exact Int.compare_eq_gt.mpr (by omega)
  · next hx =>
    rw [place_of_not_isNegative (Bool.eq_false_iff.mpr hx)]
    exact Int.compare_eq_lt.mpr (by omega)

end Binary64

/-- **A whole number is compared with a finite floating-point number by exact value**, and
stands below or above an infinity or a NaN by its sign; the other way round the answer is
reversed.  The conversion to 64 bits is made of truncated numbers in the range alone, and
there it is exact. -/
theorem whole_compares_by_value (i : Int64) (x : Binary64) :
    (x.isFinite = true →
      (Value.int i).compare? (.float x) = some (compare (i.toInt : ℚ) x.value)) ∧
    (x.isFinite = false →
      (Value.int i).compare? (.float x) = some (if x.isNegative then .gt else .lt)) ∧
    (Value.float x).compare? (.int i) =
      ((Value.int i).compare? (.float x)).map Ordering.swap ∧
    (x.isFinite = true → (x.InWords ↔ -2 ^ 63 ≤ x.value ∧ x.value < 2 ^ 63)) ∧
    (x.InWords → x.truncate.toInt64.toInt = x.truncate.value ∧
      x.truncate.toInt64.toInt = if x.isNegative then ⌈x.value⌉ else ⌊x.value⌋) := by
  refine ⟨?_, ?_, rfl, Binary64.inWords_iff_value, ?_⟩
  · intro _
    rw [Value.compare?, Binary64.compareInt_eq, Binary64.compare_place]
  · intro hx
    rw [Value.compare?, Binary64.compareInt_outside i hx]
  · intro hx
    have hplace := (Binary64.place_truncate hx.isFinite).2
    rw [hx.toInt_truncate, Binary64.value_of_place hplace, Binary64.wholePart_eq_value]
    exact ⟨rfl, rfl⟩

/-- The greatest number below `2 ^ 63` stands below the greatest whole number, -2.5 is
converted to -2 and stands below it, and the negative infinity stands below the least whole
number. -/
theorem whole_compares_at_ends :
    let greatest : Binary64 := ⟨0x43DFFFFFFFFFFFFF⟩
    let fraction : Binary64 := ⟨0xC004000000000000⟩
    let below : Binary64 := .infinity true
    greatest.isFinite = true ∧ (Value.int Int64.maxValue).compare? (.float greatest) =
        some (compare (2 ^ 63 - 1 : ℚ) (2 ^ 63 - 1024)) ∧
      fraction.InWords ∧ fraction.truncate.toInt64.toInt = ⌈(-5 / 2 : ℚ)⌉ ∧
      (Value.float fraction).compare? (.int (-2)) = some (compare (-2 : ℚ) (-5 / 2)).swap ∧
      below.isFinite = false ∧ (Value.int Int64.minValue).compare? (.float below) = some .gt := by
  intro greatest fraction below
  have hgreatest : greatest.isFinite = true := by decide
  have hfraction : fraction.InWords := ⟨by decide, by decide, by decide⟩
  have hbelow : below.isFinite = false := by decide
  have hgv : greatest.value = 2 ^ 63 - 1024 := by
    rw [Binary64.value, show greatest.signedUnits = 2 ^ 53 - 1 by decide,
      show greatest.scale = 10 by decide]
    norm_num
  have hfv : fraction.value = -5 / 2 := by
    rw [Binary64.value, show fraction.signedUnits = -5 * 2 ^ 50 by decide,
      show fraction.scale = -51 by decide]
    norm_num
  have hmax : (Int64.maxValue.toInt : ℚ) = 2 ^ 63 - 1 := by
    rw [show Int64.maxValue.toInt = 2 ^ 63 - 1 by decide]
    norm_num
  have htwo : ((-2 : Int64).toInt : ℚ) = -2 := by
    rw [show (-2 : Int64).toInt = -2 by decide]
    norm_num
  obtain ⟨hg, -⟩ := whole_compares_by_value Int64.maxValue greatest
  obtain ⟨hf, -, hswap, -, hconvert⟩ := whole_compares_by_value (-2) fraction
  obtain ⟨-, hb, -⟩ := whole_compares_by_value Int64.minValue below
  refine ⟨hgreatest, ?_, hfraction, ?_, ?_, hbelow, hb hbelow⟩
  · rw [hg hgreatest, hgv, hmax]
  · rw [(hconvert hfraction).2, hfv]
    rfl
  · rw [hswap, hf hfraction.isFinite, hfv, htwo]
    rfl

end ExternalSort
