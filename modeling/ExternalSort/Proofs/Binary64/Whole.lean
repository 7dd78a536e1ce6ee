/-
Whole numbers of 64 bits beside floating-point ones.

A number is compared with a whole one by its whole part, and only where both are
equal by the rest.  The part is taken from numbers in the range of 64 bits alone
(`InWords`), where it is converted as it is (`InWords.toInt_truncate`).  Thus both are
compared by their places on the line (`compareInt_eq`), and nothing is rounded.
-/
import ExternalSort.Proofs.Binary64.Place

namespace ExternalSort.Binary64

variable {x y : Binary64}

/-! ## The order of numbers as such -/

theorem place_of_isZero (h : x.isZero = true) : x.place = 0 := by
  have hm : x.magnitude = 0 := by simpa [isZero] using h
  have hs : steps x.magnitude = 0 := steps_eq_zero_iff.mpr hm
  rw [place, hs]
  split <;> rfl

/-- Numbers stand in the order of their places. -/
theorem numberCompare?_eq (hx : x.isNaN = false) (hy : y.isNaN = false) :
    x.numberCompare? y = some (compare x.place y.place) := by
  rw [numberCompare?, hx, hy, if_neg (by simp)]
  split
  · next hz =>
    obtain ⟨hx, hy⟩ := Bool.and_eq_true_iff.mp hz
    rw [place_of_isZero hx, place_of_isZero hy]
    rfl
  · next hz =>
    rw [totalCompare_eq]
    -- Where the places are the same, so are the numbers, since they are not the zeros.
    cases hc : compare x.place y.place with
    | lt => rfl
    | gt => rfl
    | eq =>
        rcases eq_of_place_eq (Int.compare_eq_eq.mp hc) with rfl | ⟨hx, hy⟩
        · cases x.isNegative <;> rfl
        · exact absurd (by simp [isZero, hx, hy]) hz

/-! ## The range of 64 bits -/

theorem place_wordEnd (negative : Bool) : (wordEnd negative).place =
    wholePlace (if negative then -2 ^ 63 else 2 ^ 63) := by
  cases negative <;> decide +kernel

theorem isAboveWords_iff (hx : x.isNaN = false) :
    x.isAboveWords = true ↔ wholePlace (2 ^ 63) ≤ x.place := by
  rw [isAboveWords, numberCompare?_eq hx (by decide), place_wordEnd]
  simp [Int.compare_eq_lt]

theorem isBelowWords_iff (hx : x.isNaN = false) :
    x.isBelowWords = true ↔ x.place < wholePlace (-2 ^ 63) := by
  rw [isBelowWords, numberCompare?_eq hx (by decide), place_wordEnd]
  simp [Int.compare_eq_lt]

/-- A number is in the range of the whole numbers of 64 bits. -/
structure InWords (x : Binary64) : Prop where
  isNumber : x.isNaN = false
  notAbove : x.isAboveWords = false
  notBelow : x.isBelowWords = false

theorem inWords_iff : x.InWords ↔
    x.isNaN = false ∧ wholePlace (-2 ^ 63) ≤ x.place ∧ x.place < wholePlace (2 ^ 63) := by
  have hends : x.isNaN = false → (x.isAboveWords = false ∧ x.isBelowWords = false ↔
      wholePlace (-2 ^ 63) ≤ x.place ∧ x.place < wholePlace (2 ^ 63)) := by
    intro hx
    rw [← Bool.not_eq_true, ← Bool.not_eq_true, isAboveWords_iff hx, isBelowWords_iff hx]
    omega
  constructor
  · intro h
    exact ⟨h.isNumber, (hends h.isNumber).mp ⟨h.notAbove, h.notBelow⟩⟩
  · rintro ⟨hx, hrange⟩
    obtain ⟨habove, hbelow⟩ := (hends hx).mpr hrange
    exact ⟨hx, habove, hbelow⟩

theorem InWords.isFinite (h : x.InWords) : x.isFinite = true := by
  obtain ⟨-, hlo, hhi⟩ := inWords_iff.mp h
  by_cases he : x.exponentBits = 2047
  · have hfar := natAbs_wholePlace_lt (i := 2 ^ 63) (by decide) he
    have hneg : wholePlace (-2 ^ 63) = -wholePlace (2 ^ 63) := Int.neg_mul ..
    cases hx : x.isNegative with
    | true =>
        rw [place_of_isNegative hx] at hlo
        omega
    | false =>
        rw [place_of_not_isNegative hx] at hhi
        omega
  · simpa [Binary64.isFinite] using he

/-! ## The whole part -/

/-- What is left of a number without its part smaller than one. -/
def wholePart (x : Binary64) : Int := x.place.tdiv (2 ^ depth)

theorem depth_pos : (0 : Int) < 2 ^ depth := Int.pow_pos (by decide)

theorem wholePart_of_nonneg (h : 0 ≤ x.place) :
    wholePlace x.wholePart ≤ x.place ∧ x.place < wholePlace (x.wholePart + 1) := by
  rw [wholePlace, wholePlace, wholePart, Int.tdiv_eq_ediv_of_nonneg h]
  exact ⟨Int.ediv_mul_le _ (Int.ne_of_gt depth_pos), Int.lt_ediv_add_one_mul_self _ depth_pos⟩

theorem wholePart_of_nonpos (h : x.place ≤ 0) :
    wholePlace (x.wholePart - 1) < x.place ∧ x.place ≤ wholePlace x.wholePart := by
  have hlo := Int.ediv_mul_le (-x.place) (Int.ne_of_gt depth_pos)
  have hhi := Int.lt_ediv_add_one_mul_self (-x.place) depth_pos
  have hpart : x.wholePart = -(-x.place / 2 ^ depth) := by
    rw [← Int.tdiv_eq_ediv_of_nonneg (by omega), Int.neg_tdiv, Int.neg_neg, wholePart]
  rw [wholePlace, wholePlace, hpart, Int.sub_mul, Int.neg_mul]
  rw [Int.add_mul] at hhi
  omega

theorem wholePart_of_place {i : Int} (h : x.place = wholePlace i) : x.wholePart = i := by
  rw [wholePart, h, wholePlace, Int.mul_tdiv_cancel _ (Int.ne_of_gt depth_pos)]

theorem wholePlace_lt_iff {i j : Int} : wholePlace i < wholePlace j ↔ i < j :=
  Int.mul_lt_mul_right depth_pos

theorem wholePlace_le_iff {i j : Int} : wholePlace i ≤ wholePlace j ↔ i ≤ j :=
  Int.mul_le_mul_right depth_pos

theorem InWords.wholePart_range (h : x.InWords) : -2 ^ 63 ≤ x.wholePart ∧ x.wholePart < 2 ^ 63 := by
  obtain ⟨-, hlo, hhi⟩ := inWords_iff.mp h
  have hzero : wholePlace 0 = 0 := Int.zero_mul _
  rcases Int.le_total 0 x.place with hp | hp
  · obtain ⟨hle, hlt⟩ := wholePart_of_nonneg hp
    have hlt' := wholePlace_lt_iff.mp (Int.lt_of_le_of_lt hle hhi)
    have hge := wholePlace_lt_iff.mp (Int.lt_of_le_of_lt (hzero ▸ hp) hlt)
    omega
  · obtain ⟨hlt, hle⟩ := wholePart_of_nonpos hp
    have hge := wholePlace_le_iff.mp (Int.le_trans hlo hle)
    have hlt' := wholePlace_lt_iff.mp (Int.lt_of_lt_of_le hlt (hzero ▸ hp))
    omega

/-! ## Truncation -/

theorem cut_eq {m one : Nat} (hone : one ∣ fractions) :
    m / one * one = m / fractions * fractions + m % fractions / one * one := by
  obtain ⟨k, hk⟩ := hone
  have hpos : 0 < one := Nat.pos_of_mul_pos_right (hk ▸ fractions_pos)
  have hm : m = one * (k * (m / fractions)) + m % fractions := by
    rw [← Nat.mul_assoc, ← hk, Nat.div_add_mod]
  have hdiv : m / one = k * (m / fractions) + m % fractions / one := by
    conv_lhs => rw [hm, Nat.mul_add_div hpos]
  rw [hdiv, Nat.add_mul, Nat.mul_right_comm, Nat.mul_comm k, ← hk, Nat.mul_comm fractions]

/-- Cutting the bits behind the point takes away what is not a whole step. -/
theorem steps_cut {m one : Nat} (he : 1023 ≤ m / fractions)
    (hone : one = 2 ^ (1075 - m / fractions)) :
    (m / one * one) / fractions = m / fractions ∧
      steps (m / one * one) = steps m / 2 ^ depth * 2 ^ depth := by
  have hdepth : depth = 1074 := rfl
  have hdvd : one ∣ fractions := by
    have hpow : 2 ^ (1075 - m / fractions) ∣ 2 ^ 52 := Nat.pow_dvd_pow 2 (by omega)
    exact hone ▸ hpow
  have hcut := cut_eq (m := m) hdvd
  have hlt : m % fractions / one * one < fractions :=
    Nat.lt_of_le_of_lt (Nat.div_mul_le_self ..) (Nat.mod_lt _ fractions_pos)
  have hexp : (m / one * one) / fractions = m / fractions := by
    rw [hcut, Nat.add_comm, Nat.add_mul_div_right _ _ fractions_pos, Nat.div_eq_of_lt hlt,
      Nat.zero_add]
  have hfrac : (m / one * one) % fractions = m % fractions / one * one := by
    rw [hcut, Nat.add_comm, Nat.add_mul_mod_self_right, Nat.mod_eq_of_lt hlt]
  have hne : m / fractions ≠ 0 := Nat.ne_zero_of_lt he
  refine ⟨hexp, ?_⟩
  rw [steps_of_high (hexp.trans_ne hne), steps_of_high hne, hexp, hfrac]
  rcases Nat.le_total (m / fractions) 1075 with hle | hge
  · -- The last bit that is kept stands for one whole step.
    have hstep : 2 ^ depth = one * 2 ^ (m / fractions - 1) := by
      rw [hone, ← Nat.pow_add]
      congr 1
      omega
    have hunits : ∀ f, (fractions + f) / one * one = fractions + f / one * one := by
      intro f
      obtain ⟨k, hk⟩ := hdvd
      have hpos : 0 < one := Nat.pos_of_mul_pos_right (hk ▸ fractions_pos)
      rw [hk, Nat.mul_add_div hpos, Nat.add_mul, Nat.mul_comm k]
    rw [hstep, Nat.mul_div_mul_right _ _ (Nat.two_pow_pos _), ← Nat.mul_assoc, hunits]
  · -- All bits stand for whole steps, and all are kept.
    have hone : one = 1 := by rw [hone, Nat.sub_eq_zero_of_le hge, Nat.pow_zero]
    have hstep : 2 ^ depth ∣ (fractions + m % fractions) * 2 ^ (m / fractions - 1) :=
      Nat.dvd_mul_left_of_dvd (Nat.pow_dvd_pow 2 (by omega)) _
    rw [hone, Nat.div_one, Nat.mul_one, Nat.div_mul_cancel hstep]

theorem wholePart_eq (x : Binary64) : x.wholePart =
    if x.isNegative then -((steps x.magnitude / 2 ^ depth : Nat) : Int)
    else (steps x.magnitude / 2 ^ depth : Nat) := by
  rw [wholePart, place]
  split
  · rw [Int.neg_tdiv, Int.ofNat_tdiv, Int.natCast_pow]
    rfl
  · rw [Int.ofNat_tdiv, Int.natCast_pow]
    rfl

theorem place_ofMagnitude (negative : Bool) {m : Nat} (hm : m < magnitudes) :
    (ofMagnitude negative m).place = if negative then -(steps m : Int) else steps m := by
  rw [place, isNegative_ofMagnitude negative hm, magnitude_ofMagnitude negative hm]

theorem isNaN_of_isFinite (h : x.isFinite = true) : x.isNaN = false := by
  rw [isFinite, bne_iff_ne] at h
  simp [isNaN, h]

theorem place_truncate (h : x.isFinite = true) :
    x.truncate.isFinite = true ∧ x.truncate.place = wholePlace x.wholePart := by
  rw [truncate]
  split
  · next he =>
    have hsmall : steps x.magnitude < 2 ^ depth :=
      calc steps x.magnitude < fractions * 2 ^ x.exponentBits := steps_lt_of_exponent
        _ ≤ fractions * 2 ^ 1022 :=
          Nat.mul_le_mul_left _ (Nat.pow_le_pow_right (by decide) (by omega))
        _ = 2 ^ depth := by decide +kernel
    have hpart : x.wholePart = 0 := by
      rw [wholePart_eq, Nat.div_eq_of_lt hsmall]
      split <;> rfl
    have hzero : wholePlace 0 = 0 := Int.zero_mul _
    rw [hpart, hzero]
    cases x.isNegative <;> decide
  · next he =>
    dsimp only
    rw [Nat.one_shiftLeft]
    generalize hone : 2 ^ (1075 - x.exponentBits) = one
    obtain ⟨hexp, hsteps⟩ := steps_cut (Nat.le_of_not_lt he) hone.symm
    have hm : x.magnitude / one * one < magnitudes :=
      Nat.lt_of_le_of_lt (Nat.div_mul_le_self ..) x.magnitude_lt
    constructor
    · rw [isFinite, exponentBits, magnitude_ofMagnitude _ hm, hexp]
      exact h
    · rw [place_ofMagnitude _ hm, hsteps, wholePart_eq, wholePlace]
      split
      · rw [Int.neg_mul, Int.natCast_mul, Int.natCast_pow]
        rfl
      · rw [Int.natCast_mul, Int.natCast_pow]
        rfl

theorem toInt64_eq (h : x.isNaN = false) : x.toInt64 =
    Int64.ofInt (max Int64.minValue.toInt (min x.wholePart Int64.maxValue.toInt)) := by
  have hpow : ∀ n : Nat, ((1 <<< n : Nat) : Int) = 2 ^ n := by
    intro n
    rw [Nat.one_shiftLeft]
    exact Int.natCast_pow 2 n
  have hwhole : (if 0 ≤ x.scale then x.signedUnits * (1 <<< x.scale.toNat : Nat)
      else x.signedUnits.tdiv (1 <<< (-x.scale).toNat : Nat)) = x.wholePart := by
    rw [wholePart, place_eq, hpow, hpow]
    split
    · next hs =>
      rw [exponent_of_scale hs, Int.pow_add, ← Int.mul_assoc,
        Int.mul_tdiv_cancel _ (Int.ne_of_gt depth_pos)]
    · next hs =>
      rw [depth_of_scale hs, Int.pow_add,
        Int.mul_tdiv_mul_of_pos_left _ _ (Int.pow_pos (by decide))]
  rw [toInt64, h, if_neg (by simp)]
  dsimp only
  rw [hwhole]

theorem InWords.toInt_toInt64 (h : x.InWords) : x.toInt64.toInt = x.wholePart := by
  obtain ⟨hlo, hhi⟩ := h.wholePart_range
  have hmin : Int64.minValue.toInt = -2 ^ 63 := rfl
  have hmax : Int64.maxValue.toInt = 2 ^ 63 - 1 := rfl
  rw [toInt64_eq h.isNumber, hmin, hmax, Int.min_eq_left (by omega), Int.max_eq_right hlo]
  exact Int64.toInt_ofInt_of_le hlo hhi

theorem InWords.truncate (h : x.InWords) : x.truncate.InWords := by
  obtain ⟨hfinite, hplace⟩ := place_truncate h.isFinite
  obtain ⟨hlo, hhi⟩ := h.wholePart_range
  rw [inWords_iff, hplace, wholePlace_le_iff, wholePlace_lt_iff]
  exact ⟨isNaN_of_isFinite hfinite, hlo, hhi⟩

/-- **The conversion is exact**: a number that is truncated is its own whole part. -/
theorem InWords.toInt_truncate (h : x.InWords) : x.truncate.toInt64.toInt = x.wholePart := by
  rw [h.truncate.toInt_toInt64, wholePart_of_place (place_truncate h.isFinite).2]

/-! ## Comparing -/

theorem natAbs_toInt_le (i : Int64) : i.toInt.natAbs ≤ 2 ^ 63 := by
  have := i.toInt_lt
  have := i.le_toInt
  omega

theorem wholePlace_lt_of_above (i : Int64) (h : wholePlace (2 ^ 63) ≤ x.place) :
    wholePlace i.toInt < x.place :=
  Int.lt_of_lt_of_le (wholePlace_lt_iff.mpr i.toInt_lt) h

theorem lt_wholePlace_of_below (i : Int64) (h : x.place < wholePlace (-2 ^ 63)) :
    x.place < wholePlace i.toInt :=
  Int.lt_of_lt_of_le h (wholePlace_le_iff.mpr i.le_toInt)

theorem compare_wholePart (i : Int) (x : Binary64) :
    (compare i x.wholePart).then (compare (wholePlace x.wholePart) x.place) =
      compare (wholePlace i) x.place := by
  rcases Int.lt_trichotomy i x.wholePart with hlt | rfl | hgt
  · have hless : wholePlace i < x.place := by
      rcases Int.le_total 0 x.place with hp | hp
      · exact Int.lt_of_lt_of_le (wholePlace_lt_iff.mpr hlt) (wholePart_of_nonneg hp).1
      · exact Int.lt_of_le_of_lt (wholePlace_le_iff.mpr (by omega)) (wholePart_of_nonpos hp).1
    rw [Int.compare_eq_lt.mpr hlt, Int.compare_eq_lt.mpr hless]
    rfl
  · rw [Int.compare_eq_eq.mpr rfl]
    rfl
  · have hmore : x.place < wholePlace i := by
      rcases Int.le_total 0 x.place with hp | hp
      · exact Int.lt_of_lt_of_le (wholePart_of_nonneg hp).2 (wholePlace_le_iff.mpr (by omega))
      · exact Int.lt_of_le_of_lt (wholePart_of_nonpos hp).2 (wholePlace_lt_iff.mpr hgt)
    rw [Int.compare_eq_gt.mpr hgt, Int.compare_eq_gt.mpr hmore]
    rfl

/-- Whole numbers are compared with all floating-point numbers by their places. -/
theorem compareInt_eq (i : Int64) (x : Binary64) :
    x.compareInt i = compare (wholePlace i.toInt) x.place := by
  rw [compareInt]
  split
  · next hnan =>
    have he : x.magnitude / fractions = 2047 := by
      simp only [isNaN, Bool.and_eq_true, beq_iff_eq] at hnan
      exact hnan.1
    have hfar := natAbs_wholePlace_lt (natAbs_toInt_le i) he
    cases hx : x.isNegative with
    | true =>
        rw [place_of_isNegative hx, if_pos rfl]
        exact (Int.compare_eq_gt.mpr (by omega)).symm
    | false =>
        rw [place_of_not_isNegative hx, if_neg (by simp)]
        exact (Int.compare_eq_lt.mpr (by omega)).symm
  next hnan =>
  have hnumber : x.isNaN = false := Bool.eq_false_iff.mpr hnan
  split
  · next habove =>
    have hlt := wholePlace_lt_of_above i ((isAboveWords_iff hnumber).mp habove)
    exact (Int.compare_eq_lt.mpr hlt).symm
  next habove =>
  split
  · next hbelow =>
    have hgt := lt_wholePlace_of_below i ((isBelowWords_iff hnumber).mp hbelow)
    exact (Int.compare_eq_gt.mpr hgt).symm
  next hbelow =>
  have h : x.InWords := ⟨hnumber, Bool.eq_false_iff.mpr habove, Bool.eq_false_iff.mpr hbelow⟩
  dsimp only
  rw [h.toInt_truncate, numberCompare?_eq h.truncate.isNumber hnumber,
    (place_truncate h.isFinite).2]
  exact compare_wholePart i.toInt x

end ExternalSort.Binary64
