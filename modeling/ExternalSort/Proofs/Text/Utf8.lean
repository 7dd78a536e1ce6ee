/-
Reading UTF-8 in pieces, and reading what was written.

A whole character at the front of some bytes stays that character when more
bytes come behind it.  So text may be read piece by piece, as long as the
pieces are cut between characters (`Text.text?_append`).  The bytes of a
character are such a piece, and therefore a text comes back from its bytes
(`Text.ofUtf8_utf8`).  No other bytes are read as it, since the ranges of the
second byte leave each character one spelling (`Text.ofUtf8_eq_ok_iff`).
-/
import ExternalSort.Text.Utf8

namespace ExternalSort.Text

/-- The text of some bytes, if they are one. -/
def text? (bs : List UInt8) : Option String := (ofUtf8 bs).toOption

theorem text?_nil : text? [] = some "" := by
  rw [text?, ofUtf8_nil]
  rfl

/-! ## Pieces -/

/-- A character that is all there does not change when more bytes come. -/
theorem utf8Follow_append {taken value k n : Nat} {lo hi : UInt8} {r : List UInt8} {c : Char}
    (h : utf8Follow taken value k lo hi r = .char c n) (more : List UInt8) :
    utf8Follow taken value k lo hi (r ++ more) = .char c n ∧ n = taken + k ∧ k ≤ r.length := by
  induction k generalizing taken value lo hi r with
  | zero =>
      obtain ⟨rfl, rfl⟩ := Utf8Head.char.inj h
      exact ⟨rfl, rfl, Nat.zero_le _⟩
  | succ k ih =>
      cases r with
      | nil => exact absurd h (by simp [utf8Follow])
      | cons b r =>
          rw [List.cons_append]
          simp only [utf8Follow] at h ⊢
          split at h
          · next hb =>
            rw [if_pos hb]
            obtain ⟨ha, hn, hk⟩ := ih h
            refine ⟨ha, by omega, ?_⟩
            rw [List.length_cons]
            omega
          · exact absurd h (by simp)

theorem utf8Head_append {b : UInt8} {r : List UInt8} {c : Char} {n : Nat}
    (h : utf8Head b r = .char c n) (more : List UInt8) :
    utf8Head b (r ++ more) = .char c n ∧ n - 1 ≤ r.length := by
  simp only [utf8Head] at h ⊢
  split at h
  · exact absurd h (by simp)
  · next l hl =>
    obtain ⟨ha, hn, hk⟩ := utf8Follow_append h more
    exact ⟨ha, by omega⟩

theorem utf8Chars_cons (offset : Nat) (b : UInt8) (r : List UInt8) :
    (utf8Chars offset (b :: r)).toOption =
      match utf8Head b r with
      | .char c n => (utf8Chars (offset + n) (r.drop (n - 1))).toOption.map (c :: ·)
      | .broken _ => none
      | .cut => none := by
  rw [utf8Chars]
  cases utf8Head b r with
  | char c n =>
      dsimp only
      cases utf8Chars (offset + n) (r.drop (n - 1)) <;> rfl
  | broken n => rfl
  | cut => rfl

theorem utf8Chars_offset (i j : Nat) (bs : List UInt8) :
    (utf8Chars i bs).toOption = (utf8Chars j bs).toOption := by
  induction h : bs.length using Nat.strongRecOn generalizing i j bs with
  | _ n ih =>
    cases bs with
    | nil => rw [utf8Chars, utf8Chars]
    | cons b r =>
        rw [utf8Chars_cons, utf8Chars_cons]
        cases utf8Head b r with
        | char c m =>
            refine congrArg (Option.map _) (ih _ ?_ (i + m) (j + m) (r.drop (m - 1)) rfl)
            rw [← h, List.length_drop, List.length_cons]
            omega
        | broken m => rfl
        | cut => rfl

theorem utf8Chars_append {i : Nat} {bs : List UInt8} {cs : List Char}
    (h : (utf8Chars i bs).toOption = some cs) (more : List UInt8) :
    (utf8Chars i (bs ++ more)).toOption = (utf8Chars i more).toOption.map (cs ++ ·) := by
  induction hn : bs.length using Nat.strongRecOn generalizing i bs cs with
  | _ n ih =>
    cases bs with
    | nil =>
        rw [utf8Chars] at h
        obtain rfl := Option.some.inj h
        rw [List.nil_append]
        exact Option.map_id'.symm
    | cons b r =>
        rw [utf8Chars_cons] at h
        rw [List.cons_append, utf8Chars_cons]
        cases hh : utf8Head b r with
        | char c m =>
            rw [hh] at h
            obtain ⟨ds, hd, rfl⟩ := Option.map_eq_some_iff.mp h
            obtain ⟨ha, hm⟩ := utf8Head_append hh more
            have hlen : (r.drop (m - 1)).length < n := by
              rw [← hn, List.length_drop, List.length_cons]
              omega
            rw [ha]
            dsimp only
            rw [List.drop_append_of_le_length hm, ih _ hlen hd rfl, utf8Chars_offset (i + m) i,
              Option.map_map]
            rfl
        | broken m =>
            rw [hh] at h
            exact absurd h (by simp)
        | cut =>
            rw [hh] at h
            exact absurd h (by simp)

theorem text?_eq (bs : List UInt8) : text? bs = (utf8Chars 0 bs).toOption.map String.ofList := by
  rw [text?, ofUtf8]
  cases utf8Chars 0 bs <;> rfl

/-- Text behind text is text, and nothing else is. -/
theorem text?_append {bs : List UInt8} {t : String} (h : text? bs = some t) (more : List UInt8) :
    text? (bs ++ more) = (text? more).map (t ++ ·) := by
  rw [text?_eq] at h
  obtain ⟨cs, hcs, rfl⟩ := Option.map_eq_some_iff.mp h
  rw [text?_eq, text?_eq, utf8Chars_append hcs, Option.map_map, Option.map_map]
  refine congrArg (Option.map · _) (funext fun ds => ?_)
  exact String.ofList_append

theorem text?_eq_empty {bs : List UInt8} (h : text? bs = some "") : bs = [] := by
  rw [text?_eq] at h
  obtain ⟨cs, hcs, he⟩ := Option.map_eq_some_iff.mp h
  cases bs with
  | nil => rfl
  | cons b r =>
      rw [utf8Chars_cons] at hcs
      have hnil : cs = [] := by simpa using congrArg String.toList he
      subst hnil
      split at hcs
      · simp at hcs
      · simp at hcs
      · simp at hcs

/-! ## Text as bytes and back -/

theorem utf8Follow_cons {taken value n x : Nat} {lo hi : UInt8} (r : List UInt8)
    (hx : x < 64) (hlo : lo.toNat ≤ x + 128) (hhi : x + 128 ≤ hi.toNat) :
    utf8Follow taken value (n + 1) lo hi (UInt8.ofNat (x + 128) :: r) =
      utf8Follow (taken + 1) (value * 64 + x) n 0x80 0xBF r := by
  have hb : (UInt8.ofNat (x + 128)).toNat = x + 128 :=
    UInt8.toNat_ofNat_of_lt' (show x + 128 < 256 by omega)
  have hrange : (lo ≤ UInt8.ofNat (x + 128) && UInt8.ofNat (x + 128) ≤ hi) = true := by
    simp only [Bool.and_eq_true, decide_eq_true_eq, UInt8.le_iff_toNat_le, hb]
    exact ⟨hlo, hhi⟩
  have hbits : (x + 128) % 64 = x := by omega
  rw [utf8Follow, if_pos hrange, hb, hbits]

theorem utf8Follow_tail {taken value n x : Nat} (r : List UInt8) (hx : x < 64) :
    utf8Follow taken value (n + 1) 0x80 0xBF (UInt8.ofNat (x + 128) :: r) =
      utf8Follow (taken + 1) (value * 64 + x) n 0x80 0xBF r :=
  utf8Follow_cons r hx (Nat.le_add_left 128 x) (show x + 128 ≤ 191 by omega)

theorem utf8Lead?_one {n : Nat} (h : n < 128) :
    utf8Lead? (UInt8.ofNat n) = some ⟨0, 0x80, 0xBF, n⟩ := by
  have hb : (UInt8.ofNat n).toNat = n := UInt8.toNat_ofNat_of_lt' (show n < 256 by omega)
  simp only [utf8Lead?, hb]
  exact if_pos h

theorem utf8Lead?_two {n : Nat} (h : 2 ≤ n) (h' : n < 32) :
    utf8Lead? (UInt8.ofNat (n + 192)) = some ⟨1, 0x80, 0xBF, n⟩ := by
  have hb : (UInt8.ofNat (n + 192)).toNat = n + 192 :=
    UInt8.toNat_ofNat_of_lt' (show n + 192 < 256 by omega)
  simp only [utf8Lead?, hb]
  rw [if_neg (by omega), if_neg (by omega), if_pos (by omega), Nat.add_sub_cancel]

/-- The first two bytes of three: no long spelling and no surrogate. -/
theorem utf8Lead?_three {n x : Nat} (hn : n < 16) (hx : x < 64) (hlong : n = 0 → 32 ≤ x)
    (hpair : n = 13 → x < 32) :
    ∃ lo hi : UInt8, utf8Lead? (UInt8.ofNat (n + 224)) = some ⟨2, lo, hi, n⟩ ∧
      lo.toNat ≤ x + 128 ∧ x + 128 ≤ hi.toNat := by
  have hb : (UInt8.ofNat (n + 224)).toNat = n + 224 :=
    UInt8.toNat_ofNat_of_lt' (show n + 224 < 256 by omega)
  simp only [utf8Lead?, hb]
  rw [if_neg (by omega), if_neg (by omega), if_neg (by omega)]
  by_cases h0 : n = 0
  · subst h0
    exact ⟨0xA0, 0xBF, rfl, Nat.add_le_add_right (hlong rfl) 128, show x + 128 ≤ 191 by omega⟩
  by_cases h13 : n = 13
  · subst h13
    have := hpair rfl
    exact ⟨0x80, 0x9F, rfl, Nat.le_add_left 128 x, show x + 128 ≤ 159 by omega⟩
  · rw [if_neg (by omega), if_neg (by omega), if_pos (by omega), Nat.add_sub_cancel]
    exact ⟨0x80, 0xBF, rfl, Nat.le_add_left 128 x, show x + 128 ≤ 191 by omega⟩

/-- The first two bytes of four: no long spelling, and nothing past the last
character. -/
theorem utf8Lead?_four {n x : Nat} (hn : n < 5) (hx : x < 64) (hlong : n = 0 → 16 ≤ x)
    (hlast : n = 4 → x < 16) :
    ∃ lo hi : UInt8, utf8Lead? (UInt8.ofNat (n + 240)) = some ⟨3, lo, hi, n⟩ ∧
      lo.toNat ≤ x + 128 ∧ x + 128 ≤ hi.toNat := by
  have hb : (UInt8.ofNat (n + 240)).toNat = n + 240 :=
    UInt8.toNat_ofNat_of_lt' (show n + 240 < 256 by omega)
  simp only [utf8Lead?, hb]
  rw [if_neg (by omega), if_neg (by omega), if_neg (by omega), if_neg (by omega),
    if_neg (by omega), if_neg (by omega)]
  by_cases h0 : n = 0
  · subst h0
    exact ⟨0x90, 0xBF, rfl, Nat.add_le_add_right (hlong rfl) 128, show x + 128 ≤ 191 by omega⟩
  by_cases h4 : n = 4
  · subst h4
    have := hlast rfl
    exact ⟨0x80, 0x8F, rfl, Nat.le_add_left 128 x, show x + 128 ≤ 143 by omega⟩
  · rw [if_neg (by omega), if_pos (by omega), Nat.add_sub_cancel]
    exact ⟨0x80, 0xBF, rfl, Nat.le_add_left 128 x, show x + 128 ≤ 191 by omega⟩

/-- The bytes of a character are read as that character. -/
theorem utf8Head_encodeChar (c : Char) :
    ∃ b r, String.utf8EncodeChar c = b :: r ∧ utf8Head b r = .char c (r.length + 1) := by
  have hvalid : c.val.toNat < 0xD800 ∨ 0xDFFF < c.val.toNat ∧ c.val.toNat < 0x110000 := c.valid
  have hc : Char.ofNat c.val.toNat = c := Char.ofNat_toNat c
  rw [String.utf8EncodeChar]
  generalize c.val.toNat = v at hvalid hc
  -- one case for each number of bytes
  split
  · refine ⟨_, _, rfl, ?_⟩
    rw [utf8Head, utf8Lead?_one (by omega)]
    simp only [utf8Follow, hc, List.length_nil]
  split
  · refine ⟨_, _, rfl, ?_⟩
    have hv : v / 64 % 32 * 64 + v % 64 = v := by omega
    rw [utf8Head, utf8Lead?_two (by omega) (by omega)]
    dsimp only
    rw [utf8Follow_tail _ (by omega), utf8Follow, hv, hc]
    rfl
  split
  · refine ⟨_, _, rfl, ?_⟩
    have hv : (v / 4096 % 16 * 64 + v / 64 % 64) * 64 + v % 64 = v := by omega
    obtain ⟨lo, hi, hlead, hlo, hhi⟩ := utf8Lead?_three (show v / 4096 % 16 < 16 by omega)
      (show v / 64 % 64 < 64 by omega) (by omega) (by omega)
    rw [utf8Head, hlead]
    dsimp only
    rw [utf8Follow_cons _ (by omega) hlo hhi, utf8Follow_tail _ (by omega), utf8Follow, hv, hc]
    rfl
  · refine ⟨_, _, rfl, ?_⟩
    have hv : ((v / 262144 % 8 * 64 + v / 4096 % 64) * 64 + v / 64 % 64) * 64 + v % 64 = v := by
      omega
    obtain ⟨lo, hi, hlead, hlo, hhi⟩ := utf8Lead?_four (show v / 262144 % 8 < 5 by omega)
      (show v / 4096 % 64 < 64 by omega) (by omega) (by omega)
    rw [utf8Head, hlead]
    dsimp only
    rw [utf8Follow_cons _ (by omega) hlo hhi, utf8Follow_tail _ (by omega),
      utf8Follow_tail _ (by omega), utf8Follow, hv, hc]
    rfl

theorem text?_encodeChar (c : Char) :
    text? (String.utf8EncodeChar c) = some (String.ofList [c]) := by
  obtain ⟨b, r, he, hh⟩ := utf8Head_encodeChar c
  rw [he, text?_eq, utf8Chars_cons, hh]
  simp [utf8Chars, Except.toOption]

theorem utf8_ofList_cons (c : Char) (cs : List Char) :
    utf8 (String.ofList (c :: cs)) = String.utf8EncodeChar c ++ utf8 (String.ofList cs) := by
  simp [utf8]

theorem text?_utf8 (s : String) : text? (utf8 s) = some s := by
  obtain ⟨cs, rfl⟩ : ∃ cs, s = String.ofList cs := ⟨s.toList, String.ofList_toList.symm⟩
  induction cs with
  | nil => exact text?_nil
  | cons c cs ih =>
      rw [utf8_ofList_cons, text?_append (text?_encodeChar c), ih, Option.map_some,
        ← String.ofList_append]
      rfl

theorem ofUtf8_utf8 (s : String) : ofUtf8 (utf8 s) = .ok s := by
  have h := text?_utf8 s
  rw [text?] at h
  cases ho : ofUtf8 (utf8 s) with
  | error e =>
      rw [ho] at h
      exact absurd h (by simp [Except.toOption])
  | ok t =>
      rw [ho] at h
      exact congrArg Except.ok (Option.some.inj h)

theorem utf8_append (s t : String) : utf8 (s ++ t) = utf8 s ++ utf8 t := by
  simp [utf8]

theorem utf8_isEmpty {s : String} (h : s ≠ "") : (utf8 s).isEmpty = false := by
  rw [Bool.eq_false_iff]
  intro he
  have ht := text?_utf8 s
  rw [List.isEmpty_iff.mp he, text?_nil] at ht
  exact h (Option.some.inj ht).symm

/-! ## Nothing but the bytes of texts -/

theorem val_ofNat {n : Nat} (h : n < 0xD800 ∨ 0xDFFF < n ∧ n < 0x110000) :
    (Char.ofNat n).val.toNat = n := by
  rw [Char.ofNat, dif_pos h]
  rfl

theorem utf8Follow_eq_char {taken value k n : Nat} {lo hi : UInt8} {r : List UInt8} {c : Char}
    (hlo : 0x80 ≤ lo.toNat) (hhi : hi.toNat ≤ 0xBF)
    (h : utf8Follow taken value (k + 1) lo hi r = .char c n) :
    ∃ x r', r = UInt8.ofNat (x + 128) :: r' ∧ x < 64 ∧ lo.toNat ≤ x + 128 ∧
      x + 128 ≤ hi.toNat ∧ utf8Follow (taken + 1) (value * 64 + x) k 0x80 0xBF r' = .char c n := by
  cases r with
  | nil => exact absurd h (by simp [utf8Follow])
  | cons b r =>
      rw [utf8Follow] at h
      split at h
      · next hb =>
        simp only [Bool.and_eq_true, decide_eq_true_eq, UInt8.le_iff_toNat_le] at hb
        have hx : b.toNat % 64 + 128 = b.toNat := by omega
        refine ⟨b.toNat % 64, r, ?_, Nat.mod_lt _ (by decide), by omega, by omega, h⟩
        rw [hx, UInt8.ofNat_toNat]
      · exact absurd h (by simp)

theorem utf8Follow_tail_eq_char {taken value k n : Nat} {r : List UInt8} {c : Char}
    (h : utf8Follow taken value (k + 1) 0x80 0xBF r = .char c n) :
    ∃ x r', r = UInt8.ofNat (x + 128) :: r' ∧ x < 64 ∧
      utf8Follow (taken + 1) (value * 64 + x) k 0x80 0xBF r' = .char c n := by
  obtain ⟨x, r', hr, hx, -, -, hf⟩ := utf8Follow_eq_char (by decide) (by decide) h
  exact ⟨x, r', hr, hx, hf⟩

theorem utf8Follow_done {taken value n : Nat} {lo hi : UInt8} {r : List UInt8} {c : Char}
    (h : utf8Follow taken value 0 lo hi r = .char c n) : c = Char.ofNat value ∧ n = taken := by
  obtain ⟨rfl, rfl⟩ := Utf8Head.char.inj h
  exact ⟨rfl, rfl⟩

/-- What a first byte may tell: one rule for each number of bytes. -/
inductive Leads (b : UInt8) : Utf8Lead → Prop
  | one {n : Nat} : b.toNat = n → n < 128 → Leads b ⟨0, 0x80, 0xBF, n⟩
  | two {n : Nat} : b.toNat = n + 192 → 2 ≤ n → n < 32 → Leads b ⟨1, 0x80, 0xBF, n⟩
  | three {n : Nat} {lo hi : UInt8} : b.toNat = n + 224 → n < 16 → 0x80 ≤ lo.toNat →
      hi.toNat ≤ 0xBF → (n = 0 → 0xA0 ≤ lo.toNat) → (n = 13 → hi.toNat ≤ 0x9F) →
      Leads b ⟨2, lo, hi, n⟩
  | four {n : Nat} {lo hi : UInt8} : b.toNat = n + 240 → n < 5 → 0x80 ≤ lo.toNat →
      hi.toNat ≤ 0xBF → (n = 0 → 0x90 ≤ lo.toNat) → (n = 4 → hi.toNat ≤ 0x8F) →
      Leads b ⟨3, lo, hi, n⟩

theorem leads {b : UInt8} {l : Utf8Lead} (h : utf8Lead? b = some l) : Leads b l := by
  rw [utf8Lead?] at h
  split at h
  · obtain rfl := Option.some.inj h
    exact .one rfl ‹_›
  split at h
  · exact absurd h (by simp)
  split at h
  · obtain rfl := Option.some.inj h
    exact .two (by omega) (by omega) (by omega)
  split at h
  · obtain rfl := Option.some.inj h
    exact .three ‹_› (by decide) (by decide) (by decide) (fun _ => by decide) (by decide)
  split at h
  · obtain rfl := Option.some.inj h
    exact .three ‹_› (by decide) (by decide) (by decide) (by decide) (fun _ => by decide)
  split at h
  · obtain rfl := Option.some.inj h
    exact .three (by omega) (by omega) (by decide) (by decide) (by omega) (by omega)
  split at h
  · obtain rfl := Option.some.inj h
    exact .four ‹_› (by decide) (by decide) (by decide) (fun _ => by decide) (by decide)
  split at h
  · obtain rfl := Option.some.inj h
    exact .four (by omega) (by omega) (by decide) (by decide) (by omega) (by omega)
  split at h
  · obtain rfl := Option.some.inj h
    exact .four ‹_› (by decide) (by decide) (by decide) (by decide) (fun _ => by decide)
  · exact absurd h (by simp)

/-- A character is read from its own bytes only. -/
theorem utf8Head_eq_char {b : UInt8} {r : List UInt8} {c : Char} {m : Nat}
    (h : utf8Head b r = .char c m) : b :: r = String.utf8EncodeChar c ++ r.drop (m - 1) := by
  rw [utf8Head] at h
  cases hl : utf8Lead? b with
  | none => exact absurd h (by simp [hl])
  | some l =>
      rw [hl] at h
      cases leads hl with
      | @one n hb hn =>
          have h : utf8Follow 1 n 0 0x80 0xBF r = .char c m := h
          obtain ⟨rfl, rfl⟩ := utf8Follow_done h
          rw [String.utf8EncodeChar, val_ofNat (by omega), if_pos (by omega), ← hb,
            UInt8.ofNat_toNat]
          rfl
      | @two n hb hn hn' =>
          have h : utf8Follow 1 n 1 0x80 0xBF r = .char c m := h
          obtain ⟨x, r, rfl, hx, h⟩ := utf8Follow_tail_eq_char h
          obtain ⟨rfl, rfl⟩ := utf8Follow_done h
          have h₁ : (n * 64 + x) / 64 % 32 = n := by omega
          have h₂ : (n * 64 + x) % 64 = x := by omega
          rw [String.utf8EncodeChar, val_ofNat (by omega), if_neg (by omega), if_pos (by omega),
            h₁, h₂, ← hb, UInt8.ofNat_toNat]
          rfl
      | @three n lo hi hb hn hlo hhi hlong hpair =>
          have h : utf8Follow 1 n 2 lo hi r = .char c m := h
          obtain ⟨x, r, rfl, hx, hxlo, hxhi, h⟩ := utf8Follow_eq_char hlo hhi h
          obtain ⟨y, r, rfl, hy, h⟩ := utf8Follow_tail_eq_char h
          obtain ⟨rfl, rfl⟩ := utf8Follow_done h
          have h₁ : ((n * 64 + x) * 64 + y) / 4096 % 16 = n := by omega
          have h₂ : ((n * 64 + x) * 64 + y) / 64 % 64 = x := by omega
          have h₃ : ((n * 64 + x) * 64 + y) % 64 = y := by omega
          rw [String.utf8EncodeChar, val_ofNat (by omega), if_neg (by omega), if_neg (by omega),
            if_pos (by omega), h₁, h₂, h₃, ← hb, UInt8.ofNat_toNat]
          rfl
      | @four n lo hi hb hn hlo hhi hlong hlast =>
          have h : utf8Follow 1 n 3 lo hi r = .char c m := h
          obtain ⟨x, r, rfl, hx, hxlo, hxhi, h⟩ := utf8Follow_eq_char hlo hhi h
          obtain ⟨y, r, rfl, hy, h⟩ := utf8Follow_tail_eq_char h
          obtain ⟨z, r, rfl, hz, h⟩ := utf8Follow_tail_eq_char h
          obtain ⟨rfl, rfl⟩ := utf8Follow_done h
          have h₁ : (((n * 64 + x) * 64 + y) * 64 + z) / 262144 % 8 = n := by omega
          have h₂ : (((n * 64 + x) * 64 + y) * 64 + z) / 4096 % 64 = x := by omega
          have h₃ : (((n * 64 + x) * 64 + y) * 64 + z) / 64 % 64 = y := by omega
          have h₄ : (((n * 64 + x) * 64 + y) * 64 + z) % 64 = z := by omega
          rw [String.utf8EncodeChar, val_ofNat (by omega), if_neg (by omega), if_neg (by omega),
            if_neg (by omega), h₁, h₂, h₃, h₄, ← hb, UInt8.ofNat_toNat]
          rfl

theorem eq_of_utf8Chars {i : Nat} {bs : List UInt8} {cs : List Char}
    (h : (utf8Chars i bs).toOption = some cs) : bs = cs.flatMap String.utf8EncodeChar := by
  induction hn : bs.length using Nat.strongRecOn generalizing i bs cs with
  | _ n ih =>
    cases bs with
    | nil =>
        rw [utf8Chars] at h
        obtain rfl := Option.some.inj h
        rfl
    | cons b r =>
        rw [utf8Chars_cons] at h
        cases hh : utf8Head b r with
        | char c m =>
            rw [hh] at h
            obtain ⟨ds, hd, rfl⟩ := Option.map_eq_some_iff.mp h
            have hlen : (r.drop (m - 1)).length < n := by
              rw [← hn, List.length_drop, List.length_cons]
              omega
            rw [List.flatMap_cons, ← ih _ hlen hd rfl]
            exact utf8Head_eq_char hh
        | broken m =>
            rw [hh] at h
            exact absurd h (by simp)
        | cut =>
            rw [hh] at h
            exact absurd h (by simp)

theorem text?_eq_some_iff {bs : List UInt8} {s : String} : text? bs = some s ↔ bs = utf8 s := by
  constructor
  · intro h
    rw [text?_eq] at h
    obtain ⟨cs, hcs, rfl⟩ := Option.map_eq_some_iff.mp h
    rw [utf8, String.toList_ofList]
    exact eq_of_utf8Chars hcs
  · rintro rfl
    exact text?_utf8 s

/-- The bytes of a text are read as that text, and no others are. -/
theorem ofUtf8_eq_ok_iff {bs : List UInt8} {s : String} : ofUtf8 bs = .ok s ↔ bs = utf8 s := by
  rw [← text?_eq_some_iff, text?]
  cases ofUtf8 bs <;> simp [Except.toOption]

theorem utf8_injective : Function.Injective utf8 := by
  intro s t h
  have hs := text?_utf8 s
  rw [h, text?_utf8] at hs
  exact (Option.some.inj hs).symm

end ExternalSort.Text
