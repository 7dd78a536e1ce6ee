/-
Rounding to floating-point numbers.

A rational is rounded to the number in whose basin it lies (`ofQuotient_eq`).
Counted in units of the number it is at most a half away (`roundsTo_of_contains`),
so it is enough that the quotient is counted in these units.  It is not where the
basin of a power of two reaches below it, among numbers of half the unit; there
the quotient is at most a half of that unit away, and the count is carried
(`roundsTo_of_lt`).
-/
import ExternalSort.Proofs.Binary64.Place
import ExternalSort.Binary64.Shortest
import Mathlib.Algebra.Order.Field.Power
import Mathlib.Data.Nat.Cast.Order.Field
import Mathlib.Tactic.FieldSimp
import Mathlib.Tactic.GCongr
import Mathlib.Tactic.Linarith
import Mathlib.Tactic.NormNum
import Mathlib.Tactic.Ring

namespace ExternalSort.Binary64

/-! ## Whole numbers -/

/-- A rational is rounded to a whole number that is at most a half away, and to an
odd one only if it is nearer. -/
structure RoundsTo (q : ℚ) (m : ℕ) : Prop where
  lower : (m : ℚ) - 1 / 2 ≤ q
  upper : q ≤ m + 1 / 2
  inside : m % 2 = 1 → (m : ℚ) - 1 / 2 < q ∧ q < m + 1 / 2

theorem roundHalfEven_eq {num den m : ℕ} (hden : 0 < den) (h : RoundsTo ((num : ℚ) / den) m) :
    roundHalfEven num den = m := by
  obtain ⟨hlo, hhi, hodd⟩ := h
  have hd : (0 : ℚ) < den := Nat.cast_pos.mpr hden
  rw [le_div_iff₀ hd] at hlo
  rw [div_le_iff₀ hd] at hhi
  rw [lt_div_iff₀ hd, div_lt_iff₀ hd] at hodd
  have hr := Nat.mod_lt num hden
  have hdiv := Nat.div_add_mod num den
  rw [roundHalfEven]
  generalize num / den = q at hdiv ⊢
  generalize num % den = r at hr hdiv ⊢
  subst hdiv
  push_cast at hlo hhi hodd
  have hle : q ≤ m := by
    by_contra hc
    have : (m : ℚ) + 1 ≤ q := by exact_mod_cast Nat.lt_of_not_le hc
    have : (0 : ℚ) ≤ r := Nat.cast_nonneg r
    nlinarith
  have hge : m ≤ q + 1 := by
    by_contra hc
    have : (q : ℚ) + 2 ≤ m := by exact_mod_cast Nat.lt_of_not_le hc
    have : (r : ℚ) < den := by exact_mod_cast hr
    nlinarith
  rcases Nat.lt_or_eq_of_le hle with hlt | rfl
  · obtain rfl : m = q + 1 := by omega
    push_cast at hlo hhi hodd
    have h2 : den ≤ 2 * r := by
      have : (den : ℚ) ≤ 2 * r := by nlinarith
      exact_mod_cast this
    have h2' : (q + 1) % 2 = 1 → den < 2 * r := by
      intro hm
      have : (den : ℚ) < 2 * r := by nlinarith [(hodd hm).1]
      exact_mod_cast this
    rw [if_neg (by omega)]
    split
    · omega
    · rfl
  · have h2 : 2 * r ≤ den := by
      have : 2 * (r : ℚ) ≤ den := by nlinarith
      exact_mod_cast this
    have h2' : q % 2 = 1 → 2 * r < den := by
      intro hm
      have : 2 * (r : ℚ) < den := by nlinarith [(hodd hm).2]
      exact_mod_cast this
    split
    · rfl
    · rw [if_pos (by omega)]
      omega

/-! ## The unit of a quotient -/

theorem natCast_shiftLeft (n k : ℕ) : ((n <<< k : ℕ) : ℚ) = n * 2 ^ k := by
  rw [Nat.shiftLeft_eq]
  push_cast
  rfl

theorem pow_toNat (b : ℚ) {e : ℤ} (h : 0 ≤ e) : b ^ e.toNat = b ^ e := by
  rw [← zpow_natCast, Int.toNat_of_nonneg h]

theorem pow_neg_toNat (b : ℚ) {e : ℤ} (h : ¬0 ≤ e) : b ^ (-e).toNat = b ^ (-e) :=
  pow_toNat b (by omega)

/-- The exponent of the unit is that of the first binary digit, 52 places on. -/
theorem unitExponent_eq {num den : ℕ} (hnum : 0 < num) (hden : 0 < den) :
    ∃ k : ℤ, (2 : ℚ) ^ k ≤ num / den ∧ (num : ℚ) / den < 2 ^ (k + 1) ∧
      unitExponent num den = max (k - 52) (-1074) := by
  have hn : (0 : ℚ) < num := Nat.cast_pos.mpr hnum
  have hd : (0 : ℚ) < den := Nat.cast_pos.mpr hden
  have hn₁ : (2 : ℚ) ^ num.log2 ≤ num := by exact_mod_cast Nat.log2_self_le hnum.ne'
  have hn₂ : (num : ℚ) < 2 ^ (num.log2 + 1) := by exact_mod_cast Nat.lt_log2_self
  have hd₁ : (2 : ℚ) ^ den.log2 ≤ den := by exact_mod_cast Nat.log2_self_le hden.ne'
  have hd₂ : (den : ℚ) < 2 ^ (den.log2 + 1) := by exact_mod_cast Nat.lt_log2_self
  generalize hl : (num.log2 : ℤ) - den.log2 = l
  have hpow : (2 : ℚ) ^ num.log2 = 2 ^ l * 2 ^ den.log2 := by
    rw [← zpow_natCast, ← zpow_natCast, ← zpow_add₀ two_ne_zero, ← hl, sub_add_cancel]
  have hlo : (2 : ℚ) ^ (l - 1) ≤ num / den := by
    rw [le_div_iff₀ hd]
    calc (2 : ℚ) ^ (l - 1) * den ≤ 2 ^ (l - 1) * 2 ^ (den.log2 + 1) := by gcongr
      _ = 2 ^ num.log2 := by
        rw [hpow, zpow_sub_one₀ two_ne_zero, pow_succ]
        ring
      _ ≤ num := hn₁
  have hhi : (num : ℚ) / den < 2 ^ (l + 1) := by
    rw [div_lt_iff₀ hd]
    calc (num : ℚ) < 2 ^ (num.log2 + 1) := hn₂
      _ = 2 ^ (l + 1) * 2 ^ den.log2 := by
        rw [pow_succ, hpow, zpow_add_one₀ two_ne_zero]
        ring
      _ ≤ 2 ^ (l + 1) * den := by gcongr
  have hbelow : (if 0 ≤ l then num < den <<< l.toNat else num <<< (-l).toNat < den) ↔
      (num : ℚ) / den < 2 ^ l := by
    rw [div_lt_iff₀ hd]
    split
    · next h =>
      rw [← Nat.cast_lt (α := ℚ), natCast_shiftLeft, pow_toNat 2 h, mul_comm]
    · next h =>
      rw [← Nat.cast_lt (α := ℚ), natCast_shiftLeft, pow_neg_toNat 2 h, zpow_neg, ← div_eq_mul_inv,
        div_lt_iff₀ (zpow_pos two_pos l), mul_comm]
  rw [unitExponent, hl]
  by_cases hb : (num : ℚ) / den < 2 ^ l
  · refine ⟨l - 1, hlo, by rwa [sub_add_cancel], ?_⟩
    rw [if_pos (hbelow.mpr hb)]
    congr 1
    omega
  · refine ⟨l, not_lt.mp hb, hhi, ?_⟩
    rw [if_neg fun h => hb (hbelow.mp h)]

/-! ## Basins -/

/-- A rational lies in a basin. -/
structure Basin.Contains (b : Basin) (q : ℚ) : Prop where
  lower : (b.lo : ℚ) / b.den ≤ q
  upper : q ≤ b.hi / b.den
  inside : b.closed = false → (b.lo : ℚ) / b.den < q ∧ q < b.hi / b.den

theorem Basin.Contains.between {b : Basin} {p q r : ℚ} (hp : b.Contains p) (hr : b.Contains r)
    (hpq : p ≤ q) (hqr : q ≤ r) : b.Contains q where
  lower := hp.lower.trans hpq
  upper := hqr.trans hr.upper
  inside hc := ⟨(hp.inside hc).1.trans_le hpq, hqr.trans_lt (hr.inside hc).2⟩

/-- The size of a finite number. -/
def size (x : Binary64) : ℚ := x.units * 2 ^ x.scale

/-- How far the basin of a number reaches down, in units. -/
def reach (x : Binary64) : ℚ := if x.fraction = 0 && 1 < x.exponentBits then 1 / 4 else 1 / 2

variable {x : Binary64}

theorem reach_le (x : Binary64) : x.reach ≤ 1 / 2 := by
  rw [reach]
  split <;> norm_num

theorem basin_den_pos (x : Binary64) : 0 < x.basin.den := by
  rw [basin]
  dsimp only
  split
  · exact Nat.one_pos
  · rw [Nat.one_shiftLeft]
    exact Nat.two_pow_pos _

theorem basin_quarter (x : Binary64) (n : ℕ) :
    ((n * (if 0 ≤ x.scale - 2 then 1 <<< (x.scale - 2).toNat else 1) : ℕ) : ℚ) / x.basin.den =
      n / 4 * 2 ^ x.scale := by
  have hquarter : (2 : ℚ) ^ (x.scale - 2) = 2 ^ x.scale / 4 := by
    rw [zpow_sub₀ two_ne_zero]
    norm_num
  rw [basin]
  dsimp only
  split
  · next h =>
    rw [Nat.cast_mul, natCast_shiftLeft, pow_toNat 2 h, hquarter]
    push_cast
    ring
  · next h =>
    rw [natCast_shiftLeft, pow_neg_toNat 2 h, zpow_neg, hquarter]
    push_cast
    field_simp

theorem basin_value (x : Binary64) : (x.basin.value : ℚ) / x.basin.den = x.size := by
  refine (basin_quarter x (4 * x.units)).trans ?_
  rw [size]
  push_cast
  ring

theorem basin_hi (x : Binary64) :
    (x.basin.hi : ℚ) / x.basin.den = (x.units + 1 / 2) * 2 ^ x.scale := by
  refine (basin_quarter x (4 * x.units + 2)).trans ?_
  push_cast
  ring

theorem basin_lo (h : 0 < x.units) :
    (x.basin.lo : ℚ) / x.basin.den = (x.units - x.reach) * 2 ^ x.scale := by
  refine (basin_quarter x _).trans ?_
  rw [reach]
  split
  · rw [Nat.cast_sub (by omega)]
    push_cast
    ring
  · rw [Nat.cast_sub (by omega)]
    push_cast
    ring

theorem basin_closed (x : Binary64) : x.basin.closed = false ↔ x.units % 2 = 1 := by
  rw [basin]
  simp

/-! ## Units -/

/-- A finite number has less than 53 binary digits, and all of them unless it has the
least unit. -/
theorem units_cases (x : Binary64) :
    x.exponentBits = 0 ∧ x.units = x.fraction ∧ x.scale = -1074 ∨
      x.exponentBits ≠ 0 ∧ x.units = fractions + x.fraction ∧
        x.scale = (x.exponentBits : ℤ) - 1075 := by
  by_cases h : x.exponentBits = 0
  · exact .inl ⟨h, if_pos h, if_pos h⟩
  · exact .inr ⟨h, if_neg h, if_neg h⟩

theorem fraction_lt (x : Binary64) : x.fraction < fractions := Nat.mod_lt _ fractions_pos

theorem magnitude_eq (x : Binary64) :
    x.exponentBits * fractions + x.fraction = x.magnitude := Nat.div_add_mod' _ _

theorem units_lt (x : Binary64) : x.units < 2 * fractions := by
  have := fraction_lt x
  rcases units_cases x with ⟨-, h, -⟩ | ⟨-, h, -⟩ <;> omega

theorem units_pos (h : x.isZero = false) : 0 < x.units := by
  have hmag := magnitude_eq x
  have hm : x.magnitude ≠ 0 := by simpa [isZero] using h
  have := fractions_pos
  rcases units_cases x with ⟨h0, hu, -⟩ | ⟨-, hu, -⟩
  · rw [h0, Nat.zero_mul] at hmag
    omega
  · omega

theorem units_eq_zero (hz : x.isZero = true) : x.units = 0 := by
  have hmag := magnitude_eq x
  have hm : x.magnitude = 0 := by simpa [isZero] using hz
  have := fractions_pos
  rcases units_cases x with ⟨-, hu, -⟩ | ⟨h0, -, -⟩
  · omega
  · have := Nat.le_mul_of_pos_left fractions (Nat.pos_of_ne_zero h0)
    omega

theorem size_eq_zero (hz : x.isZero = true) : x.size = 0 := by
  rw [size, units_eq_zero hz, Nat.cast_zero, zero_mul]

theorem isZero_of_size_pos (h : 0 < x.size) : x.isZero = false := by
  rw [Bool.eq_false_iff]
  intro hz
  rw [size_eq_zero hz] at h
  exact lt_irrefl _ h

theorem fractions_le_units (hs : 0 < x.scale) : fractions ≤ x.units := by
  rcases units_cases x with ⟨-, -, h⟩ | ⟨-, h, -⟩ <;> omega

theorem scale_ge (x : Binary64) : -1074 ≤ x.scale := by
  rcases units_cases x with ⟨-, -, h⟩ | ⟨h0, -, h⟩ <;> omega

theorem scale_le (h : x.isFinite = true) : x.scale ≤ 971 := by
  have : x.exponentBits ≠ 2047 := by simpa [isFinite] using h
  have : x.exponentBits < 2048 := by
    have hm : x.magnitude < magnitudes := Nat.mod_lt _ (by decide)
    exact Nat.div_lt_of_lt_mul hm
  rcases units_cases x with ⟨-, -, h⟩ | ⟨h0, -, h⟩ <;> omega

theorem cast_fractions : (fractions : ℚ) = 2 ^ 52 := by
  norm_num [fractions]

/-! ## Rounding to a number -/

theorem pow_scale_add (x : Binary64) : (2 : ℚ) ^ (x.scale + 52) = fractions * 2 ^ x.scale := by
  rw [zpow_add₀ two_ne_zero, cast_fractions, mul_comm]
  rfl

section Contains

variable {q : ℚ} (hpos : 0 < x.units) (h : x.basin.Contains q)

include hpos h in
/-- What is in a basin is rounded to the number, if it is counted in the units of that. -/
theorem roundsTo_of_contains : RoundsTo (q / 2 ^ x.scale) x.units := by
  have hu : (0 : ℚ) < 2 ^ x.scale := zpow_pos two_pos _
  have hreach := reach_le x
  obtain ⟨hlo, hhi, hin⟩ := h
  rw [basin_lo hpos, basin_hi, basin_closed] at hin
  rw [basin_lo hpos, ← le_div_iff₀ hu] at hlo
  rw [basin_hi, ← div_le_iff₀ hu] at hhi
  rw [← lt_div_iff₀ hu, ← div_lt_iff₀ hu] at hin
  exact ⟨by linarith, hhi, fun hm => ⟨by linarith [(hin hm).1], (hin hm).2⟩⟩

include h in
theorem lt_of_pow_le {k : ℤ} (hk : (2 : ℚ) ^ k ≤ q) : k < x.scale + 53 := by
  have hm : (x.units : ℚ) + 1 ≤ 2 * fractions := by exact_mod_cast units_lt x
  have hlt : (2 : ℚ) ^ k < 2 ^ (x.scale + 53) := by
    calc (2 : ℚ) ^ k ≤ (x.units + 1 / 2) * 2 ^ x.scale := (hk.trans h.upper).trans_eq (basin_hi x)
      _ < 2 * fractions * 2 ^ x.scale := by gcongr; linarith
      _ = 2 ^ (x.scale + 52 + 1) := by rw [zpow_add_one₀ two_ne_zero, pow_scale_add]; ring
      _ = 2 ^ (x.scale + 53) := by rw [add_assoc]; rfl
  exact (zpow_lt_zpow_iff_right₀ one_lt_two).mp hlt

include hpos h in
/-- Below all numbers of one unit there is, of their basins, only that of the least. -/
theorem least_of_lt (hs : x.scale ≠ -1074) (hq : q < fractions * 2 ^ x.scale) :
    x.units = fractions ∧ 1 < x.exponentBits ∧ x.reach = 1 / 4 := by
  have hlo := h.lower
  rw [basin_lo hpos] at hlo
  have hreach := reach_le x
  rcases units_cases x with ⟨-, -, h⟩ | ⟨h0, hm, h⟩
  · exact absurd h hs
  · have hlt := lt_of_mul_lt_mul_right (lt_of_le_of_lt hlo hq) (zpow_pos two_pos _).le
    have hlt : (x.units : ℚ) < fractions + 1 := by linarith
    have hlt : x.units < fractions + 1 := by exact_mod_cast hlt
    have hf : x.fraction = 0 := by omega
    have h1 : 1 < x.exponentBits := by omega
    exact ⟨by omega, h1, by rw [reach, if_pos (by simp [hf, h1])]⟩

include hpos h in
/-- A half of the unit counts what is below the least number of that. -/
theorem roundsTo_of_lt (hm : x.units = fractions) (hr : x.reach = 1 / 4)
    (hq : q < fractions * 2 ^ x.scale) : RoundsTo (q / 2 ^ (x.scale - 1)) (2 * fractions : ℕ) := by
  have hu : (0 : ℚ) < 2 ^ x.scale := zpow_pos two_pos _
  have hlo := h.lower
  rw [basin_lo hpos, hm, hr, ← le_div_iff₀ hu] at hlo
  rw [← div_lt_iff₀ hu] at hq
  have hhalf : q / 2 ^ (x.scale - 1) = 2 * (q / 2 ^ x.scale) := by
    rw [zpow_sub_one₀ two_ne_zero]
    field_simp
  rw [hhalf]
  refine ⟨?_, ?_, fun hodd => absurd hodd (by omega)⟩
  · push_cast
    linarith
  · push_cast
    linarith

end Contains

/-- How the unit of a quotient stands to that of a number in whose basin it lies: it is the
same, and the quotient is rounded to the number's units; or the number is a power of two with
finer numbers below it, and the quotient is rounded up to it in their unit. -/
theorem unitExponent_of_contains {num den : ℕ} (hnum : 0 < num) (hden : 0 < den)
    (hpos : 0 < x.units) (h : x.basin.Contains ((num : ℚ) / den)) :
    unitExponent num den = x.scale ∧ RoundsTo ((num : ℚ) / den / 2 ^ x.scale) x.units ∨
      x.units = fractions ∧ 1 < x.exponentBits ∧ unitExponent num den = x.scale - 1 ∧
        RoundsTo ((num : ℚ) / den / 2 ^ (x.scale - 1)) (2 * fractions : ℕ) := by
  obtain ⟨k, hk, hk', he⟩ := unitExponent_eq hnum hden
  rw [he]
  generalize (num : ℚ) / den = q at *
  have hmax := lt_of_pow_le h hk
  have hscale := scale_ge x
  by_cases hsame : x.scale = -1074 ∨ (fractions : ℚ) * 2 ^ x.scale ≤ q
  · refine .inl ⟨?_, roundsTo_of_contains hpos h⟩
    rcases hsame with hs | hq
    · omega
    · rw [← pow_scale_add] at hq
      have := (zpow_lt_zpow_iff_right₀ one_lt_two).mp (hq.trans_lt hk')
      omega
  · obtain ⟨hs, hq⟩ := not_or.mp hsame
    rw [not_le] at hq
    obtain ⟨hm, h1, hr⟩ := least_of_lt hpos h hs hq
    refine .inr ⟨hm, h1, ?_, roundsTo_of_lt hpos h hm hr hq⟩
    have hle : k < x.scale + 52 := by
      rw [← pow_scale_add] at hq
      exact (zpow_lt_zpow_iff_right₀ one_lt_two).mp (hk.trans_lt hq)
    have hge : x.scale + 51 < k + 1 := by
      refine (zpow_lt_zpow_iff_right₀ (one_lt_two (α := ℚ))).mp (lt_of_le_of_lt ?_ hk')
      refine le_trans ?_ h.lower
      rw [basin_lo hpos, hm, hr, show x.scale + 51 = 51 + x.scale from add_comm _ _,
        zpow_add₀ two_ne_zero, cast_fractions]
      gcongr
      norm_num
    omega

/-- **Every quotient in the basin of a number is rounded to it.** -/
theorem ofQuotient_eq {num den : ℕ} (negative : Bool) (hnum : 0 < num) (hden : 0 < den)
    (hf : x.isFinite = true) (hpos : 0 < x.units) (h : x.basin.Contains ((num : ℚ) / den)) :
    ofQuotient negative num den = ofMagnitude negative x.magnitude := by
  have hround : ∀ {e : ℤ} {m : ℕ}, RoundsTo ((num : ℚ) / den / 2 ^ e) m →
      (if 0 ≤ e then roundHalfEven num (den <<< e.toNat)
        else roundHalfEven (num <<< (-e).toNat) den) = m := by
    intro e m hm
    split
    · next he =>
      refine roundHalfEven_eq (by rw [Nat.shiftLeft_eq]; positivity) ?_
      rwa [natCast_shiftLeft, pow_toNat 2 he, ← div_div]
    · next he =>
      refine roundHalfEven_eq hden ?_
      rwa [natCast_shiftLeft, pow_neg_toNat 2 he, zpow_neg, mul_div_right_comm, ← div_eq_mul_inv]
  have hmag := magnitude_eq x
  have hfrac := fraction_lt x
  have hlt : x.magnitude < 2047 * fractions := by
    have h1 := scale_le hf
    rcases units_cases x with ⟨h0, -, -⟩ | ⟨-, -, hs⟩
    · rw [h0] at hmag
      have := fractions_pos
      omega
    · have : x.exponentBits ≤ 2046 := by omega
      have := Nat.mul_le_mul_right fractions this
      omega
  rw [ofQuotient, if_neg hnum.ne']
  dsimp only
  rcases unitExponent_of_contains hnum hden hpos h with ⟨he, hr⟩ | ⟨hm, h1, he, hr⟩
  · rw [he, hround hr]
    have hbits : (if x.units < fractions then x.units
        else (x.scale + 1075).toNat * fractions + (x.units - fractions)) = x.magnitude := by
      rcases units_cases x with ⟨h0, hu, -⟩ | ⟨h0, hu, hs⟩
      · rw [if_pos (by omega), hu, ← hmag, h0]
        omega
      · have he : (x.scale + 1075).toNat = x.exponentBits := by omega
        rw [if_neg (by omega), he, hu, Nat.add_sub_cancel_left, hmag]
    rw [hbits, if_pos hlt]
  · rw [he, hround hr]
    have hbits : (x.scale - 1 + 1075).toNat * fractions + (2 * fractions - fractions) =
        x.magnitude := by
      rcases units_cases x with ⟨h0, -, -⟩ | ⟨-, hu, hs⟩
      · exact absurd h0 (Nat.ne_of_gt (Nat.zero_lt_of_lt h1))
      · have he : (x.scale - 1 + 1075).toNat = x.exponentBits - 1 := by omega
        have := Nat.mul_le_mul_right fractions h1.le
        rw [he, ← hmag, Nat.sub_mul]
        omega
    rw [if_neg (Nat.not_lt.mpr (Nat.le_mul_of_pos_left _ two_pos)), hbits, if_pos hlt]

end ExternalSort.Binary64
