/-
Which records an order by fields accepts.

A key keeps no more of the records it has accepted than the kind of one
value, and yet it refuses a record exactly if one of the values it has seen
does not compare with the new one: kinds fall into families within which
everything compares (`Kind.comparesWith_iff`), so one member tells them all.
Hence a list of records is accepted as a whole in one order exactly if it is
in every order (`acceptance_means_comparable`), and no comparison of accepted
records ever fails.

Those comparisons agree with each other up to the zeros: a whole zero stands
between the floating-point ones and equals both, and the locks, which know
kinds only, let all three in (`accepted_records_ordered`,
`accepted_zeros_contradict`).
-/
import ExternalSort.Proofs.Order.Locks
import ExternalSort.Proofs.Order.Records
import ExternalSort.Proofs.Order.Sorting

namespace ExternalSort

/-! ## The locks of an order by fields -/

namespace FieldOrder

variable {R : Type} [HasFields R]

/-- A lock that the records accepted so far have left behind. -/
structure Locked (s : SortKey) (lock : Option Kind) (records : List R) : Prop where
  /-- Whatever came for the key belongs to the family of the lock. -/
  covers : ∀ r ∈ records, ∃ v, HasFields.field r s.name = some v ∧
    (v.isNull = false → ∃ k, lock = some k ∧ k.family = v.kind.family)
  /-- The lock is the kind of something that came. -/
  taken : ∀ k, lock = some k → ∃ r ∈ records, ∃ v, HasFields.field r s.name = some v ∧
    v.isNull = false ∧ v.kind = k

/-- What the values accepted for a key say of a new record. -/
def Suits (s : SortKey) (records : List R) (r : R) : Prop :=
  ∃ v, HasFields.field r s.name = some v ∧ ∀ r' ∈ records, ∀ w,
    HasFields.field r' s.name = some w → v.isNull = false → w.isNull = false →
      v.kind.family = w.kind.family

variable {s : SortKey} {lock lock' : Option Kind} {records : List R} {r : R}

theorem Locked.nil (s : SortKey) : Locked s none ([] : List R) where
  covers _ h := absurd h List.not_mem_nil
  taken _ h := absurd h (by simp)

theorem Locked.push (h : Locked s lock records) (hk : lockKey s lock r = .ok lock') :
    Locked s lock' (records ++ [r]) := by
  obtain ⟨v, hf, hv⟩ := lockKey_cases hk
  -- A lock that was there stays, so what it covered is covered still.
  have hstay : ∀ k, lock = some k → lock' = some k := by
    intro k hl
    rcases hv with ⟨-, rfl⟩ | ⟨-, hn, -⟩ | ⟨-, rfl, -⟩
    · exact hl
    · exact absurd (hn.symm.trans hl) (by simp)
    · exact hl
  constructor
  · intro r' hr'
    rcases List.mem_append.mp hr' with hr' | hr'
    · obtain ⟨w, hw, hc⟩ := h.covers r' hr'
      refine ⟨w, hw, ?_⟩
      intro hn
      obtain ⟨k, hl, hfam⟩ := hc hn
      exact ⟨k, hstay k hl, hfam⟩
    · obtain rfl := List.mem_singleton.mp hr'
      refine ⟨v, hf, ?_⟩
      intro hn
      rcases hv with ⟨hnull, -⟩ | ⟨-, -, hl⟩ | ⟨-, -, k, hl, hfam⟩
      · exact absurd (hnull.symm.trans hn) (by simp)
      · exact ⟨v.kind, hl, rfl⟩
      · exact ⟨k, hstay k hl, hfam⟩
  · intro k hl
    have hold : ∀ k, lock = some k → ∃ r' ∈ records ++ [r], ∃ w,
        HasFields.field r' s.name = some w ∧ w.isNull = false ∧ w.kind = k := by
      intro k hl
      obtain ⟨r', hr', hw⟩ := h.taken k hl
      exact ⟨r', List.mem_append_left _ hr', hw⟩
    rcases hv with ⟨-, rfl⟩ | ⟨hn, -, rfl⟩ | ⟨-, rfl, -⟩
    · exact hold k hl
    · exact ⟨r, List.mem_append_right _ List.mem_cons_self, v, hf, hn, Option.some.inj hl⟩
    · exact hold k hl

theorem lockKey_ok_iff (h : Locked s lock records) :
    (∃ lock', lockKey s lock r = .ok lock') ↔ Suits s records r := by
  constructor
  · rintro ⟨lock', hk⟩
    obtain ⟨v, hf, hv⟩ := lockKey_cases hk
    refine ⟨v, hf, ?_⟩
    intro r' hr' w hw hn hn'
    obtain ⟨w', hw', hc⟩ := h.covers r' hr'
    obtain rfl := Option.some.inj (hw.symm.trans hw')
    obtain ⟨k, hl, hfam⟩ := hc hn'
    rcases hv with ⟨hnull, -⟩ | ⟨-, hl', -⟩ | ⟨-, -, k', hl', hfam'⟩
    · exact absurd (hnull.symm.trans hn) (by simp)
    · exact absurd (hl'.symm.trans hl) (by simp)
    · obtain rfl := Option.some.inj (hl'.symm.trans hl)
      exact hfam'.symm.trans hfam
  · rintro ⟨v, hf, hall⟩
    cases hv : v.isNull with
    | true => exact ⟨lock, lockKey_of_null hf hv⟩
    | false =>
        cases hl : lock with
        | none => exact ⟨some v.kind, lockKey_none hf hv⟩
        | some k =>
            obtain ⟨r', hr', w, hw, hn, rfl⟩ := h.taken k hl
            refine ⟨some w.kind, ?_⟩
            rw [lockKey_some hf hv, if_pos]
            exact Kind.comparesWith_iff.mpr (hall r' hr' w hw hv hn).symm

/-! ## Accepting records -/

/-- An order by some keys that has accepted some records. -/
structure Holds (keys : List SortKey) (o : FieldOrder) (records : List R) : Prop where
  keys_eq : o.keys = keys
  locked : ∀ e ∈ o.entries, Locked e.1 e.2 records

variable {keys : List SortKey} {o o' : FieldOrder}

theorem holds_ofKeys (keys : List SortKey) : Holds keys (ofKeys keys) ([] : List R) where
  keys_eq := by
    rw [FieldOrder.keys, ofKeys, List.map_map]
    exact List.map_id _
  locked e he := by
    obtain ⟨s, -, rfl⟩ := List.mem_map.mp he
    exact .nil s

theorem lockKeys_ok {entries entries' : List (SortKey × Option Kind)}
    (hl : ∀ e ∈ entries, Locked e.1 e.2 records) (h : lockKeys r entries = .ok entries') :
    ∀ e ∈ entries', Locked e.1 e.2 (records ++ [r]) := by
  induction entries generalizing entries' with
  | nil =>
      obtain rfl := Except.ok.inj h
      exact fun _ h => absurd h List.not_mem_nil
  | cons e entries ih =>
      obtain ⟨s, lock⟩ := e
      obtain ⟨hs, hl⟩ := List.forall_mem_cons.mp hl
      rw [lockKeys_cons] at h
      split at h
      · next lock' entries₁ hk hks =>
        obtain rfl := Except.ok.inj h
        exact List.forall_mem_cons.mpr ⟨hs.push hk, ih hl hks⟩
      · exact absurd h (by simp)
      · exact absurd h (by simp)

theorem lockKeys_ok_iff {entries : List (SortKey × Option Kind)}
    (hl : ∀ e ∈ entries, Locked e.1 e.2 records) :
    (∃ entries', lockKeys r entries = .ok entries') ↔
      ∀ s ∈ entries.map Prod.fst, Suits s records r := by
  induction entries with
  | nil => exact ⟨fun _ _ h => absurd h List.not_mem_nil, fun _ => ⟨[], rfl⟩⟩
  | cons e entries ih =>
      obtain ⟨s, lock⟩ := e
      obtain ⟨hs, hl⟩ := List.forall_mem_cons.mp hl
      rw [List.map_cons, List.forall_mem_cons, ← ih hl, ← lockKey_ok_iff hs, lockKeys_cons]
      cases lockKey s lock r with
      | error e => simp
      | ok lock' => cases lockKeys r entries <;> simp

theorem Holds.accept (h : Holds keys o records) (ha : o.accept r = .ok o') :
    Holds keys o' (records ++ [r]) where
  keys_eq := by
    rw [FieldOrder.keys, lockKeys_ok_eq (accept_ok_iff.mp ha), lockedBy_keys]
    exact h.keys_eq
  locked := lockKeys_ok h.locked (accept_ok_iff.mp ha)

theorem Holds.accept_iff (h : Holds keys o records) :
    (∃ o', o.accept r = .ok o') ↔ ∀ s ∈ keys, Suits s records r := by
  have hiff := lockKeys_ok_iff (r := r) h.locked
  rw [show o.entries.map Prod.fst = keys from h.keys_eq] at hiff
  rw [← hiff, accept_eq_lockKeys]
  cases lockKeys r o.entries <;> simp [Except.map]

/-! ## Comparing records that were accepted -/

/-- Behind one lock all values compare. -/
theorem Holds.comparable (h : Holds keys o records) : Comparable keys records := by
  have hlocked : ∀ s ∈ keys, ∃ lock, Locked s lock records := by
    intro s hs
    rw [← h.keys_eq] at hs
    obtain ⟨e, he, rfl⟩ := List.mem_map.mp hs
    exact ⟨e.2, h.locked e he⟩
  constructor
  · intro r hr s hs
    obtain ⟨lock, hl⟩ := hlocked s hs
    obtain ⟨v, hv, -⟩ := hl.covers r hr
    rw [hv]
    rfl
  · intro s hs r hr r' hr' v w hv hw hn hn'
    obtain ⟨lock, hl⟩ := hlocked s hs
    obtain ⟨v', hv', hc⟩ := hl.covers r hr
    obtain ⟨w', hw', hc'⟩ := hl.covers r' hr'
    obtain rfl := Option.some.inj (hv.symm.trans hv')
    obtain rfl := Option.some.inj (hw.symm.trans hw')
    obtain ⟨k, hk, hfam⟩ := hc hn
    obtain ⟨k', hk', hfam'⟩ := hc' hn'
    obtain rfl := Option.some.inj (hk.symm.trans hk')
    exact (Value.isSome_compare?_iff_family hn hn').mpr (hfam.symm.trans hfam')

theorem Comparable.suits {rs : List R} (h : Comparable keys rs) (hr : r ∈ rs)
    (hrs : ∀ r' ∈ records, r' ∈ rs) : ∀ s ∈ keys, Suits s records r := by
  intro s hs
  obtain ⟨v, hv⟩ := Option.isSome_iff_exists.mp (h.has r hr s hs)
  refine ⟨v, hv, ?_⟩
  intro r' hr' w hw hn hn'
  exact (Value.isSome_compare?_iff_family hn hn').mp (h.compares s hs r hr r' (hrs r' hr') v w hv hw hn hn')

/-! ## Lists of records -/

theorem Holds.acceptFrom {o o' : RecordOrder R} {i : Nat} {items : List R}
    (h : Holds keys o.fields records) (ha : ItemOrder.acceptFrom o i items = .ok o') :
    Holds keys o'.fields (records ++ items) := by
  induction items generalizing o records i with
  | nil =>
      obtain rfl := Except.ok.inj ha
      rwa [List.append_nil]
  | cons r items ih =>
      rw [ItemOrder.acceptFrom, accept_eq] at ha
      cases hr : o.fields.accept r with
      | error e => exact absurd (hr ▸ ha) (by simp [Except.map])
      | ok fields =>
          rw [hr] at ha
          have := ih (o := ⟨fields⟩) (h.accept hr) ha
          rwa [List.append_assoc] at this

/-- Whether records are accepted as a whole is a matter of how their values
compare, with those accepted before and with one another. -/
theorem Holds.acceptFrom_iff {o : RecordOrder R} (h : Holds keys o.fields records) (i : Nat)
    (items : List R) : (∃ o', ItemOrder.acceptFrom o i items = .ok o') ↔
      Comparable keys (records ++ items) := by
  induction items generalizing o records i with
  | nil =>
      rw [List.append_nil]
      exact ⟨fun _ => h.comparable, fun _ => ⟨o, rfl⟩⟩
  | cons r items ih =>
      have hiff := h.accept_iff (r := r)
      rw [ItemOrder.acceptFrom, accept_eq]
      cases ha : o.fields.accept r with
      | error e =>
          constructor
          · rintro ⟨_, h⟩
            exact absurd h (by simp [Except.map])
          · intro hc
            obtain ⟨o', ho'⟩ := hiff.mpr (hc.suits (by simp) (by simp +contextual))
            exact absurd (ha.symm.trans ho') (by simp)
      | ok fields =>
          have hi := ih (o := ⟨fields⟩) (h.accept ha) (i + 1)
          rwa [List.append_assoc] at hi

/-- The records that an order has accepted, whatever else it was shown,
are such as compare. -/
theorem comparable_screen (keys : List SortKey) (shown : List R) :
    let screened := ItemOrder.screen (⟨ofKeys keys⟩ : RecordOrder R) shown
    screened.1.fields.keys = keys ∧ Comparable keys screened.2 := by
  have h := ItemOrder.screen_induction (P := fun (o : RecordOrder R) rs => Holds keys o.fields rs)
    (fun h ha => h.accept (accept_record_iff.mp ha))
    (holds_ofKeys keys) shown
  exact ⟨h.keys_eq, h.comparable⟩

end FieldOrder

/-- Records of one field, which holds all three zeros. -/
def zeroRows : List Row :=
  let above : Row := .ofList [("k", Value.positiveZero)]
  let whole : Row := .ofList [("k", Value.wholeZero)]
  let below : Row := .ofList [("k", Value.negativeZero)]
  [above, whole, above] ++ List.replicate 18 below

/-- Every record that an order by fields has accepted is equal to itself, and
reversing the comparison of two of them reverses the answer.  Neither is there
a way up from one to another that leads down, if no field holds all three
zeros. -/
theorem accepted_records_ordered {R : Type} [HasFields R] (keys : List SortKey) (shown : List R) :
    ∃ (o : RecordOrder R) (accepted : List R),
      ItemOrder.screen (⟨FieldOrder.ofKeys keys⟩ : RecordOrder R) shown = (o, accepted) ∧
      (∀ a ∈ accepted, ItemOrder.compare o a a = .ok .eq) ∧
      (∀ a ∈ accepted, ∀ b ∈ accepted, ∃ c,
        ItemOrder.compare o a b = .ok c ∧ ItemOrder.compare o b a = .ok c.swap) ∧
      ∀ a ∈ accepted, ∀ b ∈ accepted, ∀ c ∈ accepted,
        (∀ s ∈ keys, ¬ FieldOrder.ZerosMeet s.name [a, b, c]) →
        ItemOrder.compare o a b ≠ .ok .gt → ItemOrder.compare o b c ≠ .ok .gt →
        ItemOrder.compare o a c ≠ .ok .gt := by
  obtain ⟨hkeys, hcomp⟩ := FieldOrder.comparable_screen (R := R) keys shown
  refine ⟨_, _, rfl, ?_, ?_, ?_⟩
  · intro a ha
    rw [hcomp.compare_eq hkeys ha ha, FieldOrder.rankBy_self]
  · intro a ha b hb
    refine ⟨_, hcomp.compare_eq hkeys ha hb, ?_⟩
    rw [hcomp.compare_eq hkeys hb ha, FieldOrder.rankBy_swap]
  · intro a ha b hb c hc hz
    have hthree : ∀ r ∈ [a, b, c],
        r ∈ (ItemOrder.screen (⟨FieldOrder.ofKeys keys⟩ : RecordOrder R) shown).2 := by
      simp only [List.forall_mem_cons]
      exact ⟨ha, hb, hc, fun _ h => absurd h List.not_mem_nil⟩
    have hpre := (hcomp.subset hthree).isPreorderOn hz
    have htrans := hpre.trans (a := a) (b := b) (c := c) (by simp) (by simp) (by simp)
    rw [hcomp.compare_eq hkeys ha hb, hcomp.compare_eq hkeys hb hc, hcomp.compare_eq hkeys ha hc]
    simpa only [ne_eq, Except.ok.injEq] using htrans

/-- A negative zero, a whole one and a null are in order. -/
theorem accepted_zeros_ordered :
    let order : RecordOrder Row := ⟨.ofKeys [⟨"k", .ascending⟩]⟩
    let below : Row := .ofList [("k", Value.negativeZero)]
    let whole : Row := .ofList [("k", Value.wholeZero)]
    let nothing : Row := .ofList [("k", .null)]
    let screened := ItemOrder.screen order [below, whole, nothing]
    screened.2 = [below, whole, nothing] ∧
      (∀ s ∈ [(⟨"k", .ascending⟩ : SortKey)],
        ¬ FieldOrder.ZerosMeet s.name [below, whole, nothing]) ∧
      ItemOrder.compare screened.1 below whole = .ok .eq ∧
      ItemOrder.compare screened.1 whole nothing = .ok .lt ∧
      ItemOrder.compare screened.1 below nothing ≠ .ok .gt := by
  intro order below whole nothing screened
  obtain ⟨o, accepted, hs, -, -, htrans⟩ :=
    accepted_records_ordered [⟨"k", .ascending⟩] [below, whole, nothing]
  have hacc : accepted = [below, whole, nothing] := (congrArg Prod.snd hs).symm
  have ho : screened.1 = o := congrArg Prod.fst hs
  have hz : ∀ s ∈ [(⟨"k", .ascending⟩ : SortKey)],
      ¬ FieldOrder.ZerosMeet s.name [below, whole, nothing] := by
    intro s hs hmeet
    obtain rfl := List.mem_singleton.mp hs
    obtain ⟨r, hr, hv⟩ := hmeet.positive
    simp only [List.mem_cons, List.not_mem_nil, or_false] at hr
    rcases hr with rfl | rfl | rfl <;> revert hv <;> decide
  have hbw : ItemOrder.compare screened.1 below whole = .ok .eq := rfl
  have hwn : ItemOrder.compare screened.1 whole nothing = .ok .lt := rfl
  refine ⟨rfl, hz, hbw, hwn, ?_⟩
  rw [ho] at hbw hwn ⊢
  exact htrans below (by simp [hacc]) whole (by simp [hacc]) nothing (by simp [hacc]) hz
    (by simp [hbw]) (by simp [hwn])

/-- Of three zeros that are accepted together the first equals the second and
the second the third, and yet the first is greater than the third. -/
theorem accepted_zeros_contradict :
    let order : RecordOrder Row := ⟨.ofKeys [⟨"k", .ascending⟩]⟩
    let above : Row := .ofList [("k", Value.positiveZero)]
    let whole : Row := .ofList [("k", Value.wholeZero)]
    let below : Row := .ofList [("k", Value.negativeZero)]
    let screened := ItemOrder.screen order [above, whole, below]
    screened.2 = [above, whole, below] ∧
      ItemOrder.compare screened.1 above whole = .ok .eq ∧
      ItemOrder.compare screened.1 whole below = .ok .eq ∧
      ItemOrder.compare screened.1 above below = .ok .gt := by
  intro order above whole below screened
  exact ⟨rfl, rfl, rfl, rfl⟩

end ExternalSort
