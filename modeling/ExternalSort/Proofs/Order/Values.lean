/-
The order of values, as an order of spots.

Values of all kinds have a spot: whether they are missing, a place on the
line of numbers, a text, and for floating-point numbers the side of zero that
the sign tells.  Where values compare at all, they compare by their spots
(`Value.compare?_eq`).

The side is what spoils the order.  It tells the two floating-point zeros
apart and says nothing about the whole zero, which therefore equals both: from
0.0 the order leads on to 0, from there to -0.0, and yet 0.0 comes after -0.0.
No other three values contradict each other (`Value.compare?_trans`).
-/
import ExternalSort.Proofs.Binary64.Whole
import ExternalSort.Proofs.Order.Preorder

namespace ExternalSort

/-! ## Spots -/

/-- Where a value stands among others. -/
structure Spot where
  missing : Bool := false
  place : Int := 0
  text : String := ""
  /-- Of a floating-point number: whether it is on the positive side. -/
  side : Option Bool := none

namespace Spot

/-- What comes before the sides. -/
def compareCoarse : Spot → Spot → Ordering :=
  compareLex (compareOn (·.missing.toNat)) (compareLex (compareOn place) (compareOn text))

instance : Std.TransCmp compareCoarse :=
  inferInstanceAs (Std.TransCmp (compareLex _ (compareLex _ _)))

/-- Sides are compared only if both numbers have one. -/
def compareSides : Option Bool → Option Bool → Ordering
  | some s, some t => Ord.compare s.toNat t.toNat
  | _, _ => .eq

def compare (a b : Spot) : Ordering := (compareCoarse a b).then (compareSides a.side b.side)

theorem isPreorderOn_coarse :
    IsPreorderOn (fun a b => .ok (compareCoarse a b)) compareCoarse fun _ => True where
  compare _ _ := rfl
  swap _ _ := Std.OrientedCmp.eq_swap
  trans _ _ _ h k := by
    rw [ne_eq, ← Ordering.isLE_iff_ne_gt] at h k ⊢
    exact Std.TransCmp.isLE_trans h k

theorem compareSides_self (s : Option Bool) : compareSides s s = .eq := by
  rcases s with _ | s
  · rfl
  · cases s <;> rfl

theorem compareSides_swap (s t : Option Bool) : compareSides t s = (compareSides s t).swap := by
  rcases s with _ | s <;> rcases t with _ | t
  · rfl
  · rfl
  · rfl
  · cases s <;> cases t <;> rfl

/-- Two steps up lead down only past something that has no side. -/
theorem compareSides_trans {s t u : Option Bool} (hst : compareSides s t ≠ .gt)
    (htu : compareSides t u ≠ .gt) (hsu : compareSides s u = .gt) :
    s = some true ∧ t = none ∧ u = some false := by
  rcases s with _ | s <;> rcases u with _ | u
  · exact absurd hsu (by decide)
  · exact absurd hsu (by simp [compareSides])
  · exact absurd hsu (by simp [compareSides])
  · rcases t with _ | t
    · cases s <;> cases u <;> first | exact ⟨rfl, rfl, rfl⟩ | exact absurd hsu (by decide)
    · cases s <;> cases t <;> cases u <;> revert hst htu hsu <;> decide

theorem compare_self (a : Spot) : a.compare a = .eq := by
  rw [compare, compareSides_self, Ordering.then_eq]
  exact Std.ReflCmp.compare_self

theorem compare_swap (a b : Spot) : b.compare a = (a.compare b).swap := by
  rw [compare, compare, Ordering.swap_then, compareSides_swap a.side,
    isPreorderOn_coarse.swap (a := a) (b := b) trivial trivial]

theorem compareCoarse_of_places {a b : Spot} (hm : a.missing = b.missing) (ht : a.text = b.text) :
    compareCoarse a b = Ord.compare a.place b.place := by
  simp [compareCoarse, compareLex, compareOn, hm, ht]

theorem compare_of_places (a b : Spot) (hm : a.missing = b.missing) (ht : a.text = b.text)
    (hs : compareSides a.side b.side = .eq) : a.compare b = Ord.compare a.place b.place := by
  rw [compare, hs, Ordering.then_eq, compareCoarse_of_places hm ht]

theorem place_eq_of_coarse {a b : Spot} (h : compareCoarse a b = .eq) : a.place = b.place := by
  simp only [compareCoarse, compareLex, compareOn, Ordering.then_eq_eq] at h
  exact Int.compare_eq_eq.mp h.2.1

/-- Three spots contradict each other only if they share a place. -/
theorem compare_trans {a b c : Spot} (hab : a.compare b ≠ .gt) (hbc : b.compare c ≠ .gt)
    (hac : a.compare c = .gt) : a.place = b.place ∧ b.place = c.place ∧
      a.side = some true ∧ b.side = none ∧ c.side = some false := by
  have hpre := isPreorderOn_coarse
  simp only [compare, ne_eq, Ordering.then_eq_gt, not_or, not_and] at hab hbc hac
  have hle : compareCoarse a c ≠ .gt := hpre.trans trivial trivial trivial hab.1 hbc.1
  obtain ⟨heq, hside⟩ := hac.resolve_left hle
  obtain ⟨heab, hebc⟩ := hpre.eq_of_eq trivial trivial trivial hab.1 hbc.1 heq
  exact ⟨place_eq_of_coarse heab, place_eq_of_coarse hebc,
    compareSides_trans (hab.2 heab) (hbc.2 hebc) hside⟩

end Spot

/-! ## Values -/

/-- What kinds that compare with each other have in common. -/
def Kind.family : Kind → Kind
  | .float => .int
  | k => k

theorem Kind.comparesWith_iff {k l : Kind} : k.comparesWith l = true ↔ k.family = l.family := by
  cases k <;> cases l <;> decide

namespace Value

/-- The spot of a value. -/
def spot : Value → Spot
  | null => { missing := true }
  | bool b => { place := b.toNat }
  | int i => { place := Binary64.wholePlace i.toInt }
  | float x => { place := x.place, side := some !x.isNegative }
  | text s => { text := s }
  | date d => { place := d.toInt }
  | dateTime t => { place := t.toInt }
  | time t => { place := t.toInt }

/-- Values compare by their spots, if they compare. -/
theorem compare?_eq (v w : Value) : v.compare? w =
    if v.isNull || w.isNull || v.kind.comparesWith w.kind then some (v.spot.compare w.spot)
    else none := by
  have hpos : (0 : Int) < 2 ^ Binary64.depth := Int.pow_pos (by decide)
  cases v <;> cases w
  case bool.bool a b => cases a <;> cases b <;> rfl
  case int.int a b =>
    have hs := Spot.compare_of_places (int a).spot (int b).spot rfl rfl rfl
    exact congrArg some ((Binary64.compare_mul_pos hpos).symm.trans hs.symm)
  case int.float a x =>
    have hs := Spot.compare_of_places (int a).spot (float x).spot rfl rfl rfl
    exact congrArg some ((Binary64.compareInt_eq a x).trans hs.symm)
  case float.int x b =>
    have hs := Spot.compare_of_places (float x).spot (int b).spot rfl rfl rfl
    rw [compare?, Binary64.compareInt_eq b, ← Std.OrientedOrd.eq_swap]
    exact congrArg some hs.symm
  case float.float x y =>
    have hs := Spot.compareCoarse_of_places (a := (float x).spot) (b := (float y).spot) rfl rfl
    rw [compare?, Binary64.totalCompare_eq]
    exact congrArg some (congrArg (Ordering.then · _) hs.symm)
  case text.text s t =>
    have hc : Spot.compareCoarse (text s).spot (text t).spot = compareText s t := rfl
    exact congrArg some (Ordering.then_eq.trans hc).symm
  case date.date a b =>
    exact congrArg some (Spot.compare_of_places (date a).spot (date b).spot rfl rfl rfl).symm
  case dateTime.dateTime a b =>
    exact congrArg some
      (Spot.compare_of_places (dateTime a).spot (dateTime b).spot rfl rfl rfl).symm
  case time.time a b =>
    exact congrArg some (Spot.compare_of_places (time a).spot (time b).spot rfl rfl rfl).symm
  all_goals rfl

theorem isSome_compare?_iff {v w : Value} : (v.compare? w).isSome = true ↔
    v.isNull = true ∨ w.isNull = true ∨ v.kind.family = w.kind.family := by
  rw [compare?_eq, ← Kind.comparesWith_iff]
  cases v.isNull <;> cases w.isNull <;> cases v.kind.comparesWith w.kind <;> simp

theorem isSome_compare?_iff_family {v w : Value} (hv : v.isNull = false) (hw : w.isNull = false) :
    (v.compare? w).isSome = true ↔ v.kind.family = w.kind.family := by
  simp [isSome_compare?_iff, hv, hw]

theorem compare?_eq_some_iff {v w : Value} {c : Ordering} : v.compare? w = some c ↔
    (v.isNull = true ∨ w.isNull = true ∨ v.kind.family = w.kind.family) ∧
      v.spot.compare w.spot = c := by
  rw [← isSome_compare?_iff, compare?_eq]
  split <;> simp

theorem compare?_self (v : Value) : v.compare? v = some .eq :=
  compare?_eq_some_iff.mpr ⟨.inr (.inr rfl), v.spot.compare_self⟩

theorem compare?_swap (v w : Value) : w.compare? v = (v.compare? w).map Ordering.swap := by
  cases h : v.compare? w with
  | none =>
      rw [Option.map_none, ← Option.not_isSome_iff_eq_none, isSome_compare?_iff]
      rw [← Option.not_isSome_iff_eq_none, isSome_compare?_iff] at h
      rintro (hw | hv | hf)
      · exact h (.inr (.inl hw))
      · exact h (.inl hv)
      · exact h (.inr (.inr hf.symm))
  | some c =>
      obtain ⟨hk, rfl⟩ := compare?_eq_some_iff.mp h
      refine compare?_eq_some_iff.mpr ⟨?_, Spot.compare_swap ..⟩
      rcases hk with hv | hw | hf
      · exact .inr (.inl hv)
      · exact .inl hw
      · exact .inr (.inr hf.symm)

theorem compare_spot_of_null {v w : Value} (hv : v.isNull = true) (hw : w.isNull = false) :
    v.spot.compare w.spot = .gt := by
  cases v <;> cases w <;> first | rfl | simp [isNull, kind] at hv hw

/-! ## The three zeros -/

def positiveZero : Value := float (.ofMagnitude false 0)

def wholeZero : Value := int 0

def negativeZero : Value := float (.ofMagnitude true 0)

theorem eq_float_of_side {v : Value} {s : Bool} (h : v.spot.side = some s) :
    ∃ x : Binary64, v = float x ∧ x.isNegative = !s := by
  cases v with
  | float x => exact ⟨x, rfl, by simpa [spot] using h⟩
  | null => simp [spot] at h
  | bool => simp [spot] at h
  | int => simp [spot] at h
  | text => simp [spot] at h
  | date => simp [spot] at h
  | dateTime => simp [spot] at h
  | time => simp [spot] at h

theorem eq_int_of_no_side {v : Value} (hf : v.kind.family = .int) (h : v.spot.side = none) :
    ∃ i : Int64, v = int i := by
  cases v with
  | int i => exact ⟨i, rfl⟩
  | float => simp [spot] at h
  | null => simp [kind, Kind.family] at hf
  | bool => simp [kind, Kind.family] at hf
  | text => simp [kind, Kind.family] at hf
  | date => simp [kind, Kind.family] at hf
  | dateTime => simp [kind, Kind.family] at hf
  | time => simp [kind, Kind.family] at hf

/-- Numbers of both signs and a whole one that share a place are the zeros. -/
theorem eq_zeros {u v w : Value} (huv : u.spot.place = v.spot.place)
    (hvw : v.spot.place = w.spot.place) (hu : u.spot.side = some true)
    (hv : v.kind.family = .int) (hs : v.spot.side = none) (hw : w.spot.side = some false) :
    u = positiveZero ∧ v = wholeZero ∧ w = negativeZero := by
  obtain ⟨x, rfl, hx⟩ := eq_float_of_side hu
  obtain ⟨i, rfl⟩ := eq_int_of_no_side hv hs
  obtain ⟨y, rfl, hy⟩ := eq_float_of_side hw
  have hmag : x.magnitude = 0 ∧ y.magnitude = 0 := by
    rcases Binary64.eq_of_place_eq (huv.trans hvw) with rfl | hmag
    · exact absurd (hx.symm.trans hy) (by decide)
    · exact hmag
  have hx0 : x = .ofMagnitude false 0 := by
    refine Binary64.eq_of_isNegative_of_magnitude (hx.trans ?_) (hmag.1.trans ?_) <;> decide
  have hy0 : y = .ofMagnitude true 0 := by
    refine Binary64.eq_of_isNegative_of_magnitude (hy.trans ?_) (hmag.2.trans ?_) <;> decide
  have hi : i = 0 := by
    have hplace : Binary64.wholePlace i.toInt = 0 := by
      rw [show Binary64.wholePlace i.toInt = x.place from huv.symm, hx0]
      decide
    rcases Int.mul_eq_zero.mp hplace with h | h
    · exact Int64.toInt_inj.mp h
    · exact absurd h (Int.ne_of_gt (Int.pow_pos (by decide)))
  exact ⟨congrArg float hx0, congrArg int hi, congrArg float hy0⟩

/-- Two steps up in the order of values lead up, but for the one from 0.0 past
0 to -0.0. -/
theorem compare?_trans {u v w : Value} {a b : Ordering} (huv : u.compare? v = some a)
    (hvw : v.compare? w = some b) (ha : a ≠ .gt) (hb : b ≠ .gt) :
    ∃ c, u.compare? w = some c ∧
      (c = .gt ↔ u = positiveZero ∧ v = wholeZero ∧ w = negativeZero) := by
  obtain ⟨hkuv, rfl⟩ := compare?_eq_some_iff.mp huv
  obtain ⟨hkvw, rfl⟩ := compare?_eq_some_iff.mp hvw
  -- From a null the order leads to nulls only, so families run through `v`.
  have hnull : ∀ {v w : Value}, v.isNull = true → v.spot.compare w.spot ≠ .gt →
      w.isNull = true := by
    intro v w hv hle
    cases hw : w.isNull with
    | true => rfl
    | false => exact absurd (compare_spot_of_null hv hw) hle
  have hk : u.isNull = true ∨ w.isNull = true ∨ u.kind.family = w.kind.family := by
    rcases hkuv with hu | hv | huv
    · exact .inl hu
    · exact .inr (.inl (hnull hv hb))
    · rcases hkvw with hv | hw | hvw
      · exact .inr (.inl (hnull hv hb))
      · exact .inr (.inl hw)
      · exact .inr (.inr (huv.trans hvw))
  refine ⟨_, compare?_eq_some_iff.mpr ⟨hk, rfl⟩, ?_⟩
  constructor
  · intro hgt
    obtain ⟨hpuv, hpvw, hu, hv, hw⟩ := Spot.compare_trans ha hb hgt
    obtain ⟨y, rfl, -⟩ := eq_float_of_side hw
    refine eq_zeros hpuv hpvw hu ?_ hv hw
    rcases hkvw with hn | hn | hfam
    · exact absurd (hnull hn hb) (by simp [isNull, kind])
    · exact absurd hn (by simp [isNull, kind])
    · exact hfam
  · rintro ⟨rfl, rfl, rfl⟩
    decide

end Value

end ExternalSort
