/-
All numbers on one line.

Every floating-point number, infinities and NaNs included, has a place: its
distance from zero in steps of `2 ^ -1074`, the least there are.  Places rise
with magnitudes (`steps_lt`), so the total order is that of the places, and
only the two zeros share one (`totalCompare_eq`).  Whole numbers of 64 bits stand
on the same line, short of the infinities (`natAbs_wholePlace_lt`).
-/
import ExternalSort.Binary64.Basic
import Mathlib.Algebra.Group.Nat.Defs
import Mathlib.Algebra.Ring.Int.Defs

namespace ExternalSort.Binary64

/-- A whole step is this often halved into least ones. -/
def depth : Nat := 1074

/-- How many least steps a magnitude is away from zero. -/
def steps (m : Nat) : Nat :=
  (if m / fractions = 0 then m % fractions else fractions + m % fractions) *
    2 ^ (m / fractions - 1)

/-- Where a number stands on the line. -/
def place (x : Binary64) : Int :=
  if x.isNegative then -(steps x.magnitude : Int) else steps x.magnitude

/-- Where a whole number stands on the line. -/
def wholePlace (i : Int) : Int := i * 2 ^ depth

/-! ## Numbers made of a sign and a magnitude -/

theorem toNat_ofMagnitude (negative : Bool) {m : Nat} (hm : m < magnitudes) :
    (ofMagnitude negative m).bits.toNat = if negative then magnitudes + m else m := by
  have hlimit : magnitudes = 2 ^ 63 := rfl
  have hsize : UInt64.size = 2 ^ 64 := rfl
  rw [ofMagnitude]
  exact UInt64.toNat_ofNat_of_lt' (by split <;> omega)

theorem isNegative_ofMagnitude (negative : Bool) {m : Nat} (hm : m < magnitudes) :
    (ofMagnitude negative m).isNegative = negative := by
  rw [isNegative, toNat_ofMagnitude negative hm]
  cases negative
  · simpa using hm
  · simp

theorem magnitude_ofMagnitude (negative : Bool) {m : Nat} (hm : m < magnitudes) :
    (ofMagnitude negative m).magnitude = m := by
  rw [magnitude, toNat_ofMagnitude negative hm]
  cases negative
  · exact Nat.mod_eq_of_lt hm
  · rw [if_pos rfl, Nat.add_mod_left, Nat.mod_eq_of_lt hm]

theorem magnitude_lt (x : Binary64) : x.magnitude < magnitudes := Nat.mod_lt _ (by decide)

/-! ## Magnitudes -/

theorem fractions_pos : 0 < fractions := by decide

theorem steps_of_low {m : Nat} (h : m / fractions = 0) : steps m = m % fractions := by
  simp [steps, h]

theorem steps_of_high {m : Nat} (h : m / fractions ≠ 0) :
    steps m = (fractions + m % fractions) * 2 ^ (m / fractions - 1) := by
  simp [steps, h]

theorem steps_lt_of_exponent {m : Nat} : steps m < fractions * 2 ^ (m / fractions) := by
  have hf := Nat.mod_lt m fractions_pos
  by_cases h : m / fractions = 0
  · rw [steps_of_low h, h]
    simpa using hf
  · have hpow : 2 ^ (m / fractions) = 2 * 2 ^ (m / fractions - 1) := by
      rw [← Nat.pow_succ', Nat.succ_eq_add_one, Nat.sub_add_cancel (Nat.pos_of_ne_zero h)]
    rw [steps_of_high h, hpow, ← Nat.mul_assoc]
    exact Nat.mul_lt_mul_of_pos_right (by omega) (Nat.two_pow_pos _)

theorem le_steps_of_exponent {m : Nat} (h : m / fractions ≠ 0) :
    fractions * 2 ^ (m / fractions - 1) ≤ steps m := by
  rw [steps_of_high h]
  exact Nat.mul_le_mul_right _ (Nat.le_add_right ..)

/-- A greater magnitude is further away from zero. -/
theorem steps_lt {m n : Nat} (h : m < n) : steps m < steps n := by
  have hle : m / fractions ≤ n / fractions := Nat.div_le_div_right (Nat.le_of_lt h)
  rcases Nat.lt_or_eq_of_le hle with hlt | heq
  · have hn : n / fractions ≠ 0 := Nat.ne_zero_of_lt hlt
    calc steps m < fractions * 2 ^ (m / fractions) := steps_lt_of_exponent
      _ ≤ fractions * 2 ^ (n / fractions - 1) :=
        Nat.mul_le_mul_left _ (Nat.pow_le_pow_right (by decide) (Nat.le_sub_one_of_lt hlt))
      _ ≤ steps n := le_steps_of_exponent hn
  · have hf : m % fractions < n % fractions := by
      have hm := Nat.div_add_mod m fractions
      have hn := Nat.div_add_mod n fractions
      rw [heq] at hm
      omega
    by_cases h0 : n / fractions = 0
    · rw [steps_of_low h0, steps_of_low (heq.trans h0)]
      exact hf
    · rw [steps_of_high h0, steps_of_high (heq ▸ h0), heq]
      exact Nat.mul_lt_mul_of_pos_right (by omega) (Nat.two_pow_pos _)

theorem steps_lt_iff {m n : Nat} : steps m < steps n ↔ m < n := by
  refine ⟨?_, steps_lt⟩
  intro h
  rcases Nat.lt_trichotomy m n with hlt | rfl | hgt
  · exact hlt
  · exact absurd h (Nat.lt_irrefl _)
  · exact absurd (Nat.lt_trans h (steps_lt hgt)) (Nat.lt_irrefl _)

theorem steps_eq_zero_iff {m : Nat} : steps m = 0 ↔ m = 0 := by
  constructor
  · intro h
    rcases Nat.eq_zero_or_pos m with h0 | hpos
    · exact h0
    · exact absurd (steps_lt hpos) (by omega)
  · rintro rfl
    rw [steps_of_low (by simp)]
    simp

/-! ## The total order -/

theorem place_of_isNegative {x : Binary64} (h : x.isNegative = true) :
    x.place = -(steps x.magnitude : Int) := if_pos h

theorem place_of_not_isNegative {x : Binary64} (h : x.isNegative = false) :
    x.place = steps x.magnitude := if_neg (by simp [h])

theorem rank_lt_iff {x y : Binary64} : x.rank < y.rank ↔
    x.place < y.place ∨ x.place = y.place ∧ x.isNegative = true ∧ y.isNegative = false := by
  have hlt := steps_lt_iff (m := x.magnitude) (n := y.magnitude)
  have hgt := steps_lt_iff (m := y.magnitude) (n := x.magnitude)
  cases hx : x.isNegative <;> cases hy : y.isNegative <;>
    simp only [rank, hx, hy, place_of_isNegative, place_of_not_isNegative, if_true, if_false,
      Bool.false_eq_true, Bool.true_eq_false, and_true, and_false, or_false]
  · omega
  · omega
  · omega
  · omega

/-- Numbers stand in the order of their places, and of two that share one the
negative zero comes first. -/
theorem totalCompare_eq (x y : Binary64) : x.totalCompare y =
    (compare x.place y.place).then (compare (!x.isNegative).toNat (!y.isNegative).toNat) := by
  have hlt := rank_lt_iff (x := x) (y := y)
  have hgt := rank_lt_iff (x := y) (y := x)
  rw [totalCompare, Int.compare_eq_ite_lt, Int.compare_eq_ite_lt]
  rcases Int.lt_trichotomy x.place y.place with h | h | h
  · rw [if_pos (hlt.mpr (.inl h)), if_pos h]
    rfl
  · simp only [hlt, hgt, h, Int.lt_irrefl, false_or, true_and, if_false]
    cases x.isNegative <;> cases y.isNegative <;> decide
  · have hn := Int.lt_asymm h
    have hne : x.place ≠ y.place := (Int.ne_of_lt h).symm
    rw [if_neg fun hr => (hlt.mp hr).elim hn fun he => hne he.1, if_pos (hgt.mpr (.inl h)),
      if_neg hn, if_pos h]
    rfl

theorem eq_of_isNegative_of_magnitude {x y : Binary64} (hs : x.isNegative = y.isNegative)
    (hm : x.magnitude = y.magnitude) : x = y := by
  have hx := x.bits.toNat_lt
  have hy := y.bits.toNat_lt
  have hbits : x.bits.toNat = y.bits.toNat := by
    rw [isNegative, isNegative, decide_eq_decide] at hs
    simp only [magnitude, magnitudes] at hm hs
    omega
  obtain ⟨x⟩ := x
  obtain ⟨y⟩ := y
  exact congrArg Binary64.mk (UInt64.toNat_inj.mp hbits)

theorem eq_of_place_eq {x y : Binary64} (h : x.place = y.place) :
    x = y ∨ x.magnitude = 0 ∧ y.magnitude = 0 := by
  have hxy := steps_lt_iff (m := x.magnitude) (n := y.magnitude)
  have hyx := steps_lt_iff (m := y.magnitude) (n := x.magnitude)
  have hx0 := steps_eq_zero_iff (m := x.magnitude)
  have hy0 := steps_eq_zero_iff (m := y.magnitude)
  by_cases hs : x.isNegative = y.isNegative
  · refine .inl (eq_of_isNegative_of_magnitude hs ?_)
    cases hx : x.isNegative with
    | false =>
        rw [place_of_not_isNegative hx, place_of_not_isNegative (hs ▸ hx)] at h
        omega
    | true =>
        rw [place_of_isNegative hx, place_of_isNegative (hs ▸ hx)] at h
        omega
  · refine .inr ?_
    simp only [place] at h
    cases hx : x.isNegative <;> cases hy : y.isNegative
    · exact absurd (hx.trans hy.symm) hs
    · simp only [hx, hy, if_true, if_false, Bool.false_eq_true] at h
      omega
    · simp only [hx, hy, if_true, if_false, Bool.false_eq_true] at h
      omega
    · exact absurd (hx.trans hy.symm) hs

/-! ## Whole numbers -/

theorem compare_mul_pos {a b c : Int} (hc : 0 < c) : compare (a * c) (b * c) = compare a b := by
  rw [Int.compare_eq_ite_lt, Int.compare_eq_ite_lt]
  simp only [Int.mul_lt_mul_right hc]

theorem place_eq (x : Binary64) : x.place = x.signedUnits * 2 ^ (x.exponentBits - 1) := by
  have hsteps : (steps x.magnitude : Int) = x.units * 2 ^ (x.exponentBits - 1) := by
    rw [steps, Int.natCast_mul, Int.natCast_pow]
    rfl
  rw [place, signedUnits, hsteps]
  split
  · rw [Int.neg_mul]
  · rfl

theorem exponent_of_scale {x : Binary64} (h : 0 ≤ x.scale) :
    x.exponentBits - 1 = x.scale.toNat + depth := by
  have hd : depth = 1074 := rfl
  rw [scale] at h ⊢
  split at h <;> omega

theorem depth_of_scale {x : Binary64} (h : ¬0 ≤ x.scale) :
    depth = (-x.scale).toNat + (x.exponentBits - 1) := by
  have hd : depth = 1074 := rfl
  rw [scale] at h ⊢
  split at h <;> omega

/-- The infinities stand outside all whole numbers of 64 bits. -/
theorem natAbs_wholePlace_lt {i : Int} (hi : i.natAbs ≤ 2 ^ 63) {m : Nat}
    (hm : m / fractions = 2047) : (wholePlace i).natAbs < steps m := by
  have he : 63 + depth < m / fractions - 1 := by
    rw [hm]
    decide
  have hpow : ((2 : Int) ^ depth).natAbs = 2 ^ depth := by
    rw [Int.natAbs_pow, show (2 : Int).natAbs = 2 from rfl]
  calc (wholePlace i).natAbs = i.natAbs * 2 ^ depth := by rw [wholePlace, Int.natAbs_mul, hpow]
    _ ≤ 2 ^ 63 * 2 ^ depth := Nat.mul_le_mul_right _ hi
    _ = 2 ^ (63 + depth) := by rw [Nat.pow_add]
    _ < 2 ^ (m / fractions - 1) := Nat.pow_lt_pow_right (by decide) he
    _ ≤ fractions * 2 ^ (m / fractions - 1) := Nat.le_mul_of_pos_left _ fractions_pos
    _ ≤ steps m := le_steps_of_exponent fun h0 => absurd (hm.symm.trans h0) (by decide)

end ExternalSort.Binary64
