/-
Integers are read from their texts, and numbers in some places tell what they are.
-/
import ExternalSort.Text.Number
import Mathlib.Algebra.Group.Nat.Defs
import Mathlib.Data.List.TakeWhile

namespace ExternalSort.Text

variable {c : Char} {cs : List Char} {n : Nat}

/-! ## Digits -/

/-- One or more digits. -/
structure Digits (cs : List Char) : Prop where
  ne_nil : cs ≠ []
  all : ∀ c ∈ cs, c.isDigit = true

theorem Digits.toDigits (n : Nat) : Digits (Nat.toDigits 10 n) where
  ne_nil := Nat.toDigits_ne_nil
  all _ hc := Nat.isDigit_of_mem_toDigits (by decide) (by decide) hc

theorem Digits.append (h : Digits cs) {ds : List Char} (hds : ∀ c ∈ ds, c.isDigit = true) :
    Digits (cs ++ ds) where
  ne_nil := by simp [h.ne_nil]
  all c hc := (List.mem_append.mp hc).elim (h.all c) (hds c)

theorem isDigit_of_mem_zeros {k : Nat} : ∀ c ∈ List.replicate k '0', c.isDigit = true := by
  intro c hc
  rw [(List.mem_replicate.mp hc).2]
  rfl

theorem digits?_eq (h : Digits cs) : digits? cs = some (digitsValue cs) := by
  rw [digits?, if_neg]
  simpa [h.ne_nil] using h.all

theorem digits?_eq_none (hm : c ∈ cs) (hc : c.isDigit = false) : digits? cs = none := by
  rw [digits?, if_pos]
  simp only [Bool.or_eq_true, Bool.not_eq_true', List.all_eq_false]
  exact .inr ⟨c, hm, by simp [hc]⟩

theorem digitsValue_eq (cs : List Char) : digitsValue cs = Nat.ofDigitChars 10 cs 0 :=
  Nat.ofDigitChars_eq_foldl.symm

theorem digitsValue_toDigits (n : Nat) : digitsValue (Nat.toDigits 10 n) = n := by
  rw [digitsValue_eq, Nat.ofDigitChars_ten_toDigits]

theorem digitsValue_append_zeros (cs : List Char) (k : Nat) :
    digitsValue (cs ++ List.replicate k '0') = digitsValue cs * 10 ^ k := by
  rw [digitsValue_eq, digitsValue_eq, Nat.ofDigitChars_append, Nat.ofDigitChars_replicate_zero,
    Nat.mul_comm]

theorem digitsValue_zeros_append (cs : List Char) (k : Nat) :
    digitsValue (List.replicate k '0' ++ cs) = digitsValue cs := by
  rw [digitsValue_eq, digitsValue_eq, Nat.ofDigitChars_append, Nat.ofDigitChars_replicate_zero,
    Nat.mul_zero]

/-! ## Signs -/

/-- Some characters, with a minus sign before them if they are negative. -/
def withSign (negative : Bool) (cs : List Char) : List Char :=
  if negative then '-' :: cs else cs

/-- A count, or its negative. -/
def signed (negative : Bool) (n : Nat) : Int := if negative then -(n : Int) else n

theorem head_ne_sign (h : c.isDigit = true) : c ≠ '-' ∧ c ≠ '+' := by
  constructor
  · rintro rfl
    exact absurd h (by decide)
  · rintro rfl
    exact absurd h (by decide)

theorem signed?_withSign (negative : Bool) (h : c.isDigit = true) :
    signed? (withSign negative (c :: cs)) =
      (digits? (c :: cs)).map (signed negative) := by
  cases negative with
  | true =>
      show signed? ('-' :: c :: cs) = _
      rw [signed?]
      cases digits? (c :: cs) <;> rfl
  | false =>
      obtain ⟨hm, hp⟩ := head_ne_sign h
      show signed? (c :: cs) = _
      rw [signed?]
      · rfl
      · intro r hr
        exact hm (List.cons.inj hr).1
      · intro r hr
        exact hp (List.cons.inj hr).1

theorem signed_natAbs (i : Int) : signed (decide (i < 0)) i.natAbs = i := by
  rw [signed]
  split
  · next h =>
    have h : i < 0 := of_decide_eq_true h
    omega
  · next h =>
    have h : ¬i < 0 := fun hi => h (decide_eq_true hi)
    omega

theorem toString_toInt (i : Int) :
    (toString i).toList = withSign (decide (i < 0)) (Nat.toDigits 10 i.natAbs) := by
  rw [Int.toString_eq_repr, Int.repr_eq_if]
  split
  · next h =>
    rw [decide_eq_false (by omega), Nat.repr_eq_ofList_toDigits, String.toList_ofList,
      show i.toNat = i.natAbs by omega]
    rfl
  · next h =>
    have hneg : (-i).toNat = i.natAbs := by omega
    rw [decide_eq_true (by omega), Nat.repr_eq_ofList_toDigits, hneg, String.toList_append]
    simp [withSign]

theorem int64?_toString (i : Int64) : int64? (toString i.toInt).toList = some i := by
  have hd := Digits.toDigits i.toInt.natAbs
  have hdigits := digits?_eq hd
  rw [digitsValue_toDigits] at hdigits
  obtain ⟨c, cs, hcs⟩ := List.exists_cons_of_ne_nil hd.ne_nil
  have hsigned : signed? (toString i.toInt).toList = some i.toInt := by
    rw [toString_toInt, hcs, signed?_withSign _ (hd.all c (hcs ▸ List.mem_cons_self)), ← hcs,
      hdigits, Option.map_some, signed_natAbs]
  have hrange : (Int64.minValue.toInt ≤ i.toInt && i.toInt ≤ Int64.maxValue.toInt) = true := by
    have := i.toInt_lt
    have := i.le_toInt
    rw [Bool.and_eq_true, decide_eq_true_eq, decide_eq_true_eq]
    exact ⟨this, by have h : Int64.maxValue.toInt = 2 ^ 63 - 1 := rfl; omega⟩
  rw [int64?, hsigned, Option.filter_some, if_pos hrange, Option.map_some, Int64.ofInt_toInt]

theorem signed?_of_int64? {i : Int64} (h : int64? cs = some i) : signed? cs = some i.toInt := by
  obtain ⟨n, hn, rfl⟩ := Option.map_eq_some_iff.mp h
  obtain ⟨hs, hr⟩ := Option.filter_eq_some_iff.mp hn
  rw [Bool.and_eq_true, decide_eq_true_eq, decide_eq_true_eq] at hr
  rw [hs, Int64.toInt_ofInt_of_le hr.1 (Int.lt_of_le_of_lt hr.2 (by decide))]

/-! ## Numbers in some places -/

/-- The number that a digit stands for, in bases up to 16. -/
def digitOf (c : Char) : Nat := if c.isDigit then c.toNat - '0'.toNat else c.toNat - 'a'.toNat + 10

/-- The number that some digits stand for in a base. -/
def valueIn (base : Nat) (cs : List Char) : Nat :=
  cs.foldl (fun n c => base * n + digitOf c) 0

theorem digitOf_digitChar {d : Nat} (h : d < 16) : digitOf (Nat.digitChar d) = d := by
  have hall : ∀ d : Fin 16, digitOf (Nat.digitChar d) = d := by decide
  exact hall ⟨d, h⟩

variable {base width : Nat}

theorem valueIn_toDigits (h : 1 < base) (h' : base ≤ 16) (n : Nat) :
    valueIn base (Nat.toDigits base n) = n := by
  induction n using Nat.strongRecOn with
  | ind n ih =>
      rcases Nat.lt_or_ge n base with hn | hn
      · have hd := digitOf_digitChar (Nat.lt_of_lt_of_le hn h')
        simp [Nat.toDigits_of_lt_base hn, valueIn, hd]
      · have hd := digitOf_digitChar (Nat.lt_of_lt_of_le (Nat.mod_lt n (by omega)) h')
        have hrest := ih (n / base) (Nat.div_lt_self (by omega) h)
        rw [valueIn] at hrest
        rw [Nat.toDigits_of_base_le h hn, valueIn, List.foldl_append, hrest, List.foldl_cons, hd,
          List.foldl_nil, Nat.div_add_mod]

theorem valueIn_padded (h : 1 < base) (h' : base ≤ 16) (width n : Nat) :
    valueIn base (padded base width n).toList = n := by
  have hzeros : ∀ k, (List.replicate k '0').foldl (fun n c => base * n + digitOf c) 0 = 0 := by
    intro k
    induction k with
    | zero => rfl
    | succ k ih => simpa [List.replicate_succ, show digitOf '0' = 0 from rfl] using ih
  rw [padded, String.toList_ofList, valueIn, List.foldl_append, hzeros]
  exact valueIn_toDigits h h' n

theorem padded_inj (h : 1 < base) (h' : base ≤ 16) {m n : Nat}
    (he : padded base width m = padded base width n) : m = n := by
  rw [← valueIn_padded h h' width m, he, valueIn_padded h h']

theorem of_mem_padded {P : Char → Prop} (h : 1 < base) (h' : base ≤ 16)
    (hP : ∀ d : Fin 16, P (Nat.digitChar d)) : ∀ c ∈ (padded base width n).toList, P c := by
  have hdigits : ∀ n, ∀ c ∈ Nat.toDigits base n, P c := by
    intro n
    induction n using Nat.strongRecOn with
    | ind n ih =>
        rcases Nat.lt_or_ge n base with hn | hn
        · rw [Nat.toDigits_of_lt_base hn, List.forall_mem_singleton]
          exact hP ⟨n, Nat.lt_of_lt_of_le hn h'⟩
        · rw [Nat.toDigits_of_base_le h hn, List.forall_mem_append, List.forall_mem_singleton]
          exact ⟨ih _ (Nat.div_lt_self (by omega) h),
            hP ⟨n % base, Nat.lt_of_lt_of_le (Nat.mod_lt n (by omega)) h'⟩⟩
  rw [padded, String.toList_ofList, List.forall_mem_append]
  refine ⟨?_, hdigits n⟩
  intro c hc
  rw [(List.mem_replicate.mp hc).2]
  exact hP 0

end ExternalSort.Text
