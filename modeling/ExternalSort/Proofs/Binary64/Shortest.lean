/-
The shortest decimal is in the basin of its number.

The search for it ends: a basin is wider than a unit in the seventeenth digit of
its number (`basin_margins`), so that one of the two decimals of as many digits
around the number is in it.  What it finds is therefore read as the number
(`ofDecimal_eq`).  As a rational is rounded to one number only, no two basins
meet, and what is in them stands as the numbers do (`lt_of_contains`).
-/
import ExternalSort.Binary64.Read
import ExternalSort.Proofs.Binary64.Rounding
import Mathlib.Data.List.TakeWhile
import Mathlib.Tactic.Positivity

namespace ExternalSort

/-! ## Counting digits -/

theorem lt_pow_length_toDigits (n : ℕ) : n < 10 ^ (Nat.toDigits 10 n).length :=
  (Nat.length_toDigits_le_iff (by decide) Nat.length_toDigits_pos).mp (Nat.le_refl _)

theorem pow_length_toDigits_le {n : ℕ} (h : 0 < n) :
    10 ^ ((Nat.toDigits 10 n).length - 1) ≤ n := by
  by_contra hlt
  have hpos : 0 < (Nat.toDigits 10 n).length := Nat.length_toDigits_pos
  rcases Nat.eq_zero_or_pos ((Nat.toDigits 10 n).length - 1) with h0 | h1
  · rw [h0] at hlt
    omega
  · have := (Nat.length_toDigits_le_iff (by decide) h1).mpr (Nat.lt_of_not_le hlt)
    omega

namespace Decimal

/-- The number that a decimal is. -/
def value (d : Decimal) : ℚ := d.digits * 10 ^ d.exponent

theorem tenTo_toNat {e : ℤ} (h : 0 ≤ e) : (tenTo e.toNat : ℚ) = 10 ^ e :=
  (Nat.cast_pow 10 _).trans (Binary64.pow_toNat 10 h)

theorem fraction_pos (d : Decimal) : 0 < d.fraction.2 := by
  rw [fraction]
  split
  · exact Nat.one_pos
  · exact Nat.pow_pos (by decide)

theorem fraction_value (d : Decimal) : (d.fraction.1 : ℚ) / d.fraction.2 = d.value := by
  rw [fraction, value]
  split
  · next h =>
    rw [Nat.cast_mul, tenTo_toNat h]
    simp
  · next h =>
    dsimp only
    rw [tenTo_toNat (by omega), zpow_neg, div_inv_eq_mul]

theorem value_bounds {d : Decimal} (h : 0 < d.digits) :
    (10 : ℚ) ^ (d.exponent + d.count - 1) ≤ d.value ∧ d.value < 10 ^ (d.exponent + d.count) := by
  have hpos : 0 < d.count := Nat.length_toDigits_pos
  have hle : 10 ^ (d.count - 1) ≤ d.digits := pow_length_toDigits_le h
  have hlt : d.digits < 10 ^ d.count := lt_pow_length_toDigits d.digits
  constructor
  · have hsub : d.exponent + d.count - 1 = (d.count - 1 : ℕ) + d.exponent := by omega
    rw [hsub, zpow_add₀ (by norm_num), zpow_natCast, value]
    gcongr
    exact_mod_cast hle
  · rw [add_comm, zpow_add₀ (by norm_num), zpow_natCast, value]
    gcongr
    exact_mod_cast hlt

theorem value_trimmed (d : Decimal) : d.trimmed.value = d.value := by
  have hdigits := Nat.ofDigitChars_ten_toDigits (n := d.digits)
  have hsplit := (List.takeWhile_append_dropWhile
    (p := (· == '0')) (l := (Nat.toDigits 10 d.digits).reverse)).symm
  have hzeros : (List.takeWhile (· == '0') (Nat.toDigits 10 d.digits).reverse) =
      List.replicate (List.takeWhile (· == '0') (Nat.toDigits 10 d.digits).reverse).length '0' := by
    refine List.eq_replicate_iff.mpr ⟨rfl, ?_⟩
    intro c hc
    simpa using List.mem_takeWhile_imp hc
  rw [trimmed]
  generalize (List.takeWhile (· == '0') (Nat.toDigits 10 d.digits).reverse).length = n at *
  rw [hzeros, List.reverse_eq_iff, List.reverse_append, List.reverse_replicate] at hsplit
  rw [hsplit, Nat.ofDigitChars_append, Nat.ofDigitChars_replicate_zero] at hdigits
  generalize Nat.ofDigitChars 10 _ 0 = m at hdigits
  have hdiv : d.digits / tenTo n = m := by
    rw [← hdigits]
    exact Nat.mul_div_cancel_left m (Nat.pow_pos (by decide))
  rw [value, value, hdiv, ← hdigits, zpow_add₀ (by norm_num), zpow_natCast]
  push_cast
  ring

end Decimal

namespace Binary64

/-! ## Decimals in a basin -/

namespace Basin

variable {b : Basin} {d : Decimal} {e : ℤ}

theorem holds_iff (hb : 0 < b.den) : b.holds d = true ↔ b.Contains d.value := by
  have hk : (0 : ℚ) < d.fraction.2 := Nat.cast_pos.mpr d.fraction_pos
  have hden : (0 : ℚ) < b.den := Nat.cast_pos.mpr hb
  have hle : ∀ n : ℕ, n * d.fraction.2 ≤ d.fraction.1 * b.den ↔ (n : ℚ) / b.den ≤ d.value := by
    intro n
    rw [← d.fraction_value, div_le_div_iff₀ hden hk]
    exact_mod_cast Iff.rfl
  have hge : ∀ n : ℕ, d.fraction.1 * b.den ≤ n * d.fraction.2 ↔ d.value ≤ (n : ℚ) / b.den := by
    intro n
    rw [← d.fraction_value, div_le_div_iff₀ hk hden]
    exact_mod_cast Iff.rfl
  rw [holds]
  cases hc : b.closed with
  | true =>
      simp only [if_true, Bool.and_eq_true, decide_eq_true_eq, hle, hge]
      exact ⟨fun h => ⟨h.1, h.2, by simp [hc]⟩, fun h => ⟨h.lower, h.upper⟩⟩
  | false =>
      simp only [Bool.false_eq_true, if_false, Bool.and_eq_true, decide_eq_true_eq,
        ← Nat.not_le, hle, hge, not_le]
      exact ⟨fun h => ⟨h.1.le, h.2.le, fun _ => h⟩, fun h => h.inside hc⟩

theorem holds_of_best? (h : b.best? e = some d) : b.holds d = true := by
  rw [best?] at h
  dsimp only at h
  split at h
  · next hl hr =>
    obtain rfl := Option.some.inj h
    split
    · exact hl
    · exact hr
  · next hl hr =>
    obtain rfl := Option.some.inj h
    exact hl
  · next hl hr =>
    obtain rfl := Option.some.inj h
    exact hr
  · exact absurd h (by simp)

theorem isSome_best? (h : b.holds (b.neighbours e).1 = true ∨ b.holds (b.neighbours e).2 = true) :
    (b.best? e).isSome = true := by
  rw [best?]
  dsimp only
  split <;> simp_all

/-- The two decimals are one unit apart, with the number between them. -/
theorem neighbours_value (hb : 0 < b.den) (e : ℤ) :
    (b.neighbours e).1.value ≤ b.value / b.den ∧
      (b.value : ℚ) / b.den < (b.neighbours e).2.value ∧
      (b.neighbours e).2.value = (b.neighbours e).1.value + 10 ^ e := by
  have hden : (0 : ℚ) < b.den := Nat.cast_pos.mpr hb
  have hten : (0 : ℚ) < 10 ^ e := by positivity
  have hbounds : ∀ (num : ℕ) {den : ℕ}, 0 < den → (num : ℚ) / den = b.value / b.den / 10 ^ e →
      ((num / den : ℕ) : ℚ) * 10 ^ e ≤ b.value / b.den ∧
        (b.value : ℚ) / b.den < ((num / den : ℕ) + 1) * 10 ^ e := by
    intro num den hd hq
    rw [← le_div_iff₀ hten, ← div_lt_iff₀ hten, ← hq]
    refine ⟨Nat.cast_div_le, ?_⟩
    rw [div_lt_iff₀ (Nat.cast_pos.mpr hd), mul_comm]
    exact_mod_cast Nat.lt_mul_div_succ num hd
  have hspan : ∀ n : ℕ, ((n + 1 : ℕ) : ℚ) * 10 ^ e = n * 10 ^ e + 10 ^ e := by
    intro n
    push_cast
    ring
  rw [neighbours]
  dsimp only [Decimal.value]
  rw [hspan, ← hspan, Nat.cast_succ]
  split
  · next h =>
    have hpow : 0 < Decimal.tenTo e.toNat := Nat.pow_pos (by decide)
    obtain ⟨hle, hlt⟩ := hbounds b.value (Nat.mul_pos hb hpow) (by
      rw [Nat.cast_mul, Decimal.tenTo_toNat h, div_div])
    exact ⟨hle, hlt, by ring⟩
  · next h =>
    obtain ⟨hle, hlt⟩ := hbounds (b.value * Decimal.tenTo (-e).toNat) hb (by
      rw [Nat.cast_mul, Decimal.tenTo_toNat (by omega), zpow_neg, mul_div_right_comm,
        ← div_eq_mul_inv])
    exact ⟨hle, hlt, by ring⟩

theorem order_le (hb : 0 < b.den) (hv : 0 < b.value) :
    (10 : ℚ) ^ (b.order - 1) ≤ b.value / b.den := by
  have hden : (0 : ℚ) < b.den := Nat.cast_pos.mpr hb
  rw [order]
  split
  · next h =>
    have hpos : 0 < (Nat.toDigits 10 (b.value / b.den)).length := Nat.length_toDigits_pos
    rw [← Nat.cast_pred hpos, zpow_natCast]
    refine le_trans ?_ (Nat.cast_div_le (m := b.value) (n := b.den))
    exact_mod_cast pow_length_toDigits_le h
  · have hn := lt_pow_length_toDigits ((b.den - 1) / b.value)
    generalize (Nat.toDigits 10 ((b.den - 1) / b.value)).length = n at hn ⊢
    rw [Nat.div_lt_iff_lt_mul hv] at hn
    rw [sub_sub_cancel_left, zpow_neg, zpow_natCast, inv_le_comm₀ (by positivity) (by positivity),
      inv_div, div_le_iff₀ (by positivity)]
    have hle : b.den ≤ 10 ^ n * b.value := by omega
    exact_mod_cast hle

end Basin

variable {x : Binary64}

/-! ## The shortest decimal -/

/-- A number is inside its basin, which is wider than a unit in the seventeenth digit. -/
theorem basin_margins (h : 0 < x.units) :
    (x.basin.lo : ℚ) / x.basin.den < x.size ∧ x.size < x.basin.hi / x.basin.den ∧
      x.size / 10 ^ 16 < (x.basin.hi : ℚ) / x.basin.den - x.basin.lo / x.basin.den := by
  have hu : (0 : ℚ) < 2 ^ x.scale := by positivity
  have hm : (x.units : ℚ) < 2 * fractions := by exact_mod_cast units_lt x
  rw [basin_lo h, basin_hi, size, fractions] at *
  refine ⟨?_, ?_, ?_⟩
  · have hr : 0 < x.reach := by
      rw [reach]
      split <;> norm_num
    gcongr
    linarith
  · gcongr
    linarith
  · have hwide : (x.units : ℚ) / 10 ^ 16 < 1 / 2 + x.reach := by
      rw [reach]
      split
      · next hp =>
        have hp : x.fraction = 0 ∧ 1 < x.exponentBits := by simpa using hp
        have hm : x.units = fractions := by
          rcases units_cases x with ⟨h0, -, -⟩ | ⟨-, hu, -⟩
          · exact absurd h0 (Nat.ne_zero_of_lt hp.2)
          · rw [hu, hp.1, Nat.add_zero]
        rw [hm, fractions]
        norm_num
      · rw [div_lt_iff₀ (by norm_num)]
        norm_num at hm ⊢
        linarith
    calc (x.units : ℚ) * 2 ^ x.scale / 10 ^ 16 = x.units / 10 ^ 16 * 2 ^ x.scale := by ring
      _ < (1 / 2 + x.reach) * 2 ^ x.scale := by gcongr
      _ = _ := by ring

theorem contains_size (h : 0 < x.units) : x.basin.Contains x.size := by
  obtain ⟨hlo, hhi, -⟩ := basin_margins h
  exact ⟨hlo.le, hhi.le, fun _ => ⟨hlo, hhi⟩⟩

theorem pos_of_contains {q : ℚ} (h : 0 < x.units) (hq : x.basin.Contains q) : 0 < q := by
  have hu : (1 : ℚ) ≤ x.units := by exact_mod_cast h
  have hr := reach_le x
  refine lt_of_lt_of_le ?_ hq.lower
  rw [basin_lo h]
  exact mul_pos (by linarith) (zpow_pos two_pos _)

/-- No two numbers share a part of their basins, but for their signs. -/
theorem magnitude_eq_of_contains {y : Binary64} {q : ℚ} (hx : x.isFinite = true)
    (hy : y.isFinite = true) (hux : 0 < x.units) (huy : 0 < y.units) (hqx : x.basin.Contains q)
    (hqy : y.basin.Contains q) : x.magnitude = y.magnitude := by
  have hnum : 0 < q.num := Rat.num_pos.mpr (pos_of_contains hux hqx)
  have hq : q = (q.num.toNat : ℚ) / q.den := by
    have hcast : ((q.num.toNat : ℤ) : ℚ) = q.num := by rw [Int.toNat_of_nonneg hnum.le]
    rw [← Int.cast_natCast, hcast, Rat.num_div_den]
  rw [hq] at hqx hqy
  have hpos : 0 < q.num.toNat := by omega
  have hfirst := ofQuotient_eq false hpos q.den_pos hx hux hqx
  have hsecond := ofQuotient_eq false hpos q.den_pos hy huy hqy
  rw [← magnitude_ofMagnitude false x.magnitude_lt, ← hfirst, hsecond,
    magnitude_ofMagnitude false y.magnitude_lt]

theorem size_congr {y : Binary64} (h : x.magnitude = y.magnitude) : x.size = y.size := by
  have hu : x.units = y.units := by
    unfold units exponentBits fraction
    rw [h]
  have hs : x.scale = y.scale := by
    unfold scale exponentBits
    rw [h]
  rw [size, size, hu, hs]

/-- What is in the basin of a smaller number is smaller. -/
theorem lt_of_contains {y : Binary64} {a b : ℚ} (hx : x.isFinite = true) (hy : y.isFinite = true)
    (hux : 0 < x.units) (huy : 0 < y.units) (ha : x.basin.Contains a) (hb : y.basin.Contains b)
    (h : x.size < y.size) : a < b := by
  have hapart : ∀ {q : ℚ}, x.basin.Contains q → ¬y.basin.Contains q := fun hqx hqy =>
    absurd (size_congr (magnitude_eq_of_contains hx hy hux huy hqx hqy)) h.ne
  by_contra hle
  rw [not_lt] at hle
  -- basins have no gaps, so one of the numbers would be in the basin of the other
  rcases le_or_gt y.size a with hya | hay
  · exact hapart ((contains_size hux).between ha h.le hya) (contains_size huy)
  · exact hapart ha (hb.between (contains_size huy) hle hay.le)

theorem basin_value_pos (h : 0 < x.units) : 0 < x.basin.value := by
  have hs : (0 : ℚ) < x.basin.value / x.basin.den := by
    rw [basin_value, size]
    positivity
  have hden : (0 : ℚ) < x.basin.den := Nat.cast_pos.mpr (basin_den_pos x)
  exact_mod_cast (div_pos_iff_of_pos_right hden).mp hs

/-- A decimal of seventeen digits is in every basin. -/
theorem isSome_best?_seventeen (h : 0 < x.units) :
    (x.basin.best? (x.basin.order - 17)).isSome = true := by
  have hb := basin_den_pos x
  obtain ⟨hlow, hhigh, hwide⟩ := basin_margins h
  have horder := Basin.order_le hb (basin_value_pos h)
  obtain ⟨hl, hr, hspan⟩ := Basin.neighbours_value hb (x.basin.order - 17)
  rw [basin_value] at horder hl hr
  have hstep : (10 : ℚ) ^ (x.basin.order - 17) ≤ x.size / 10 ^ 16 := by
    rw [le_div_iff₀ (by positivity), ← zpow_natCast, ← zpow_add₀ (by norm_num)]
    refine le_of_eq_of_le ?_ horder
    congr 1
    push_cast
    ring
  refine Basin.isSome_best? ?_
  rw [Basin.holds_iff hb, Basin.holds_iff hb]
  generalize (x.basin.neighbours (x.basin.order - 17)).1.value = l at *
  generalize (x.basin.neighbours (x.basin.order - 17)).2.value = r at *
  by_cases hlo : (x.basin.lo : ℚ) / x.basin.den < l
  · have hhi := lt_of_le_of_lt hl hhigh
    exact .inl ⟨hlo.le, hhi.le, fun _ => ⟨hlo, hhi⟩⟩
  · have hlo := hlow.trans hr
    have hhi : r < x.basin.hi / x.basin.den := by linarith
    exact .inr ⟨hlo.le, hhi.le, fun _ => ⟨hlo, hhi⟩⟩

theorem holds_search (h : 0 < x.units) {count more : ℕ} (hmore : 0 < more)
    (hcount : count + more = 18) : x.basin.holds (x.basin.search count more) = true := by
  induction more generalizing count with
  | zero => exact absurd hmore (by decide)
  | succ more ih =>
      rw [Basin.search]
      cases hbest : x.basin.best? (x.basin.order - count) with
      | some d => exact Basin.holds_of_best? hbest
      | none =>
          have hmore : more ≠ 0 := by
            rintro rfl
            have hsome := isSome_best?_seventeen h
            obtain rfl : count = 17 := by omega
            exact absurd (hbest ▸ hsome) (by simp)
          exact ih (Nat.pos_of_ne_zero hmore) (by omega)

theorem shortest_contains (h : 0 < x.units) : x.basin.Contains x.shortest.value := by
  rw [shortest, Decimal.value_trimmed, ← Basin.holds_iff (basin_den_pos x)]
  exact holds_search h (by decide) rfl

/-! ## Reading decimals -/

theorem two_pow_bounds : 2 ^ 1024 < 10 ^ 309 ∧ 2 ^ 1075 < 10 ^ 330 := by
  decide +kernel

/-- What is in a basin is not too small and not too great to be rounded. -/
theorem value_of_contains {q : ℚ} (hf : x.isFinite = true) (hpos : 0 < x.units)
    (h : x.basin.Contains q) : (10 : ℚ) ^ (-330 : ℤ) < q ∧ q < 10 ^ (309 : ℤ) := by
  obtain ⟨hgreat, hsmall⟩ := two_pow_bounds
  constructor
  · have hm : (1 : ℚ) ≤ x.units := by exact_mod_cast hpos
    have hreach := reach_le x
    have hscale := scale_ge x
    calc (10 : ℚ) ^ (-330 : ℤ) < 2 ^ (-1075 : ℤ) := by
          rw [zpow_neg, zpow_neg]
          refine inv_strictAnti₀ (by positivity) ?_
          exact_mod_cast hsmall
      _ = (1 / 2) * 2 ^ (-1074 : ℤ) := by
        rw [show (-1075 : ℤ) = -1074 - 1 from rfl, zpow_sub_one₀ two_ne_zero]
        ring
      _ ≤ (x.units - x.reach) * 2 ^ x.scale := by
        refine mul_le_mul (by linarith) ?_ (by positivity) (by linarith)
        exact zpow_le_zpow_right₀ one_le_two hscale
      _ ≤ q := (basin_lo hpos).symm.trans_le h.lower
  · have hm : (x.units : ℚ) + 1 ≤ 2 * fractions := by exact_mod_cast units_lt x
    have hscale := scale_le hf
    calc q ≤ (x.units + 1 / 2) * 2 ^ x.scale := h.upper.trans_eq (basin_hi x)
      _ ≤ (x.units + 1 / 2) * 2 ^ (971 : ℤ) := by
        refine mul_le_mul_of_nonneg_left ?_ (by positivity)
        exact zpow_le_zpow_right₀ one_le_two hscale
      _ ≤ 2 * fractions * 2 ^ (971 : ℤ) := by
        gcongr
        linarith
      _ = 2 ^ (1024 : ℤ) := by
        rw [show (2 : ℚ) * fractions = 2 ^ (53 : ℤ) by norm_num [fractions],
          ← zpow_add₀ two_ne_zero]
        rfl
      _ < 10 ^ (309 : ℤ) := by exact_mod_cast hgreat

/-- **Every decimal in the basin of a number is read as it.** -/
theorem ofDecimal_eq {d : Decimal} (negative : Bool) (hf : x.isFinite = true)
    (hpos : 0 < x.units) (h : x.basin.Contains d.value) :
    ofDecimal negative d = ofMagnitude negative x.magnitude := by
  obtain ⟨hmin, hmax⟩ := value_of_contains hf hpos h
  have hvalue : 0 < d.value := lt_trans (by positivity) hmin
  have hdigits : 0 < d.digits := by
    rcases Nat.eq_zero_or_pos d.digits with h0 | hd
    · rw [Decimal.value, h0, Nat.cast_zero, zero_mul] at hvalue
      exact absurd hvalue (lt_irrefl _)
    · exact hd
  obtain ⟨hfirst, hlast⟩ := Decimal.value_bounds hdigits
  have hsmall : ¬d.exponent + d.count > 310 := by
    have := (zpow_lt_zpow_iff_right₀ (by norm_num)).mp (hfirst.trans_lt hmax)
    omega
  have hgreat : ¬d.exponent + d.count < -330 := by
    have := (zpow_lt_zpow_iff_right₀ (by norm_num)).mp (hmin.trans hlast)
    omega
  rw [ofDecimal, if_neg hdigits.ne', if_neg hsmall, if_neg hgreat]
  have hnum : 0 < d.fraction.1 := by
    have hv : (0 : ℚ) < d.fraction.1 / d.fraction.2 := by rwa [Decimal.fraction_value]
    have hden : (0 : ℚ) < d.fraction.2 := Nat.cast_pos.mpr d.fraction_pos
    exact_mod_cast (div_pos_iff_of_pos_right hden).mp hv
  refine ofQuotient_eq negative hnum d.fraction_pos hf hpos ?_
  rwa [Decimal.fraction_value]

end Binary64

end ExternalSort
