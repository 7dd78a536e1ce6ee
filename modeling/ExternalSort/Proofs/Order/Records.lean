/-
The order of records by several fields, among records that compare.

A key compares by the spots of its values, read in its direction, and several
keys together take the first difference (`FieldOrder.rankBy`).  Both keep an
order an order, so nothing can be wrong with records but what is wrong with
values: the field of some key has to hold all three zeros, the whole one and
both floating-point ones (`FieldOrder.Comparable.isPreorderOn`).
-/
import ExternalSort.Order.Fields
import ExternalSort.Proofs.Order.Values

namespace ExternalSort.FieldOrder

variable {R : Type} [HasFields R]

/-- By these keys all of some records compare: each has a value for each
key, and the values for one key compare with one another, nulls apart. -/
structure Comparable (keys : List SortKey) (records : List R) : Prop where
  has : ∀ r ∈ records, ∀ s ∈ keys, (HasFields.field r s.name).isSome = true
  compares : ∀ s ∈ keys, ∀ r ∈ records, ∀ r' ∈ records, ∀ v w : Value,
    HasFields.field r s.name = some v → HasFields.field r' s.name = some w →
    v.isNull = false → w.isNull = false → (v.compare? w).isSome = true

/-- In some records all three zeros come up as values of a field. -/
structure ZerosMeet (name : String) (records : List R) : Prop where
  positive : ∃ r ∈ records, HasFields.field r name = some Value.positiveZero
  whole : ∃ r ∈ records, HasFields.field r name = some Value.wholeZero
  negative : ∃ r ∈ records, HasFields.field r name = some Value.negativeZero

/-- The value of a field that is there. -/
def valueOf (name : String) (r : R) : Value := (HasFields.field r name).getD .null

/-- How records stand by the ascending order of one field. -/
def rankField (name : String) (a b : R) : Ordering :=
  (valueOf name a).spot.compare (valueOf name b).spot

/-- How records stand by one key. -/
def rankKey (s : SortKey) (a b : R) : Ordering := s.direction.apply (rankField s.name a b)

/-- How records stand by several keys. -/
def rankBy : List SortKey → R → R → Ordering
  | [], _, _ => .eq
  | s :: keys, a, b => (rankKey s a b).then (rankBy keys a b)

theorem rankBy_self (keys : List SortKey) (a : R) : rankBy keys a a = .eq := by
  induction keys with
  | nil => rfl
  | cons s keys ih =>
      rw [rankBy, ih, Ordering.then_eq, rankKey, rankField, Spot.compare_self]
      cases s.direction <;> rfl

theorem rankBy_swap (keys : List SortKey) (a b : R) :
    rankBy keys b a = (rankBy keys a b).swap := by
  induction keys with
  | nil => rfl
  | cons s keys ih =>
      rw [rankBy, rankBy, ih, Ordering.swap_then, rankKey, rankKey, rankField, Spot.compare_swap]
      cases s.direction <;> rfl

namespace Comparable

variable {keys : List SortKey} {records rs : List R} {s : SortKey} {a b : R}

theorem subset (h : Comparable keys records) (hs : ∀ r ∈ rs, r ∈ records) :
    Comparable keys rs where
  has r hr := h.has r (hs r hr)
  compares s hk r hr r' hr' := h.compares s hk r (hs r hr) r' (hs r' hr')

theorem tail (h : Comparable (s :: keys) records) : Comparable keys records where
  has r hr k hk := h.has r hr k (List.mem_cons_of_mem s hk)
  compares k hk := h.compares k (List.mem_cons_of_mem s hk)

theorem field_eq (h : Comparable keys records) (hs : s ∈ keys) (ha : a ∈ records) :
    HasFields.field a s.name = some (valueOf s.name a) := by
  obtain ⟨v, hv⟩ := Option.isSome_iff_exists.mp (h.has a ha s hs)
  rw [valueOf, hv, Option.getD_some]

theorem compare?_eq (h : Comparable keys records) (hs : s ∈ keys) (ha : a ∈ records)
    (hb : b ∈ records) :
    (valueOf s.name a).compare? (valueOf s.name b) = some (rankField s.name a b) := by
  refine Value.compare?_eq_some_iff.mpr ⟨Value.isSome_compare?_iff.mp ?_, rfl⟩
  by_cases hn : (valueOf s.name a).isNull = true ∨ (valueOf s.name b).isNull = true
  · exact Value.isSome_compare?_iff.mpr (hn.imp_right .inl)
  · simp only [not_or, Bool.not_eq_true] at hn
    exact h.compares s hs a ha b hb _ _ (h.field_eq hs ha) (h.field_eq hs hb) hn.1 hn.2

theorem compareKey_eq (h : Comparable keys records) (hs : s ∈ keys) (ha : a ∈ records)
    (hb : b ∈ records) : compareKey s a b = .ok (rankKey s a b) := by
  simp [compareKey, fieldOf, h.field_eq hs ha, h.field_eq hs hb, h.compare?_eq hs ha hb, rankKey,
    bind, Except.bind]

theorem compareBy_eq (h : Comparable keys records) (ha : a ∈ records) (hb : b ∈ records) :
    compareBy keys a b = .ok (rankBy keys a b) := by
  induction keys with
  | nil => rfl
  | cons s keys ih =>
      rw [compareBy, h.compareKey_eq List.mem_cons_self ha hb, rankBy]
      cases rankKey s a b with
      | lt => rfl
      | eq => exact ih h.tail
      | gt => rfl

theorem compare_eq {o : RecordOrder R} (h : Comparable keys records) (ho : o.fields.keys = keys)
    (ha : a ∈ records) (hb : b ∈ records) : ItemOrder.compare o a b = .ok (rankBy keys a b) := by
  rw [show ItemOrder.compare o a b = compareBy o.fields.keys a b from rfl, ho]
  exact h.compareBy_eq ha hb

/-- Three records contradict each other in a field only if it holds the three
zeros. -/
theorem isPreorderOn_field (h : Comparable keys records) (hs : s ∈ keys)
    (hz : ¬ ZerosMeet s.name records) :
    IsPreorderOn (fun a b => .ok (rankField s.name a b)) (rankField s.name) (· ∈ records) where
  compare _ _ := rfl
  swap _ _ := Spot.compare_swap ..
  trans {a b c} ha hb hc hab hbc := by
    obtain ⟨o, ho, hgt⟩ :=
      Value.compare?_trans (h.compare?_eq hs ha hb) (h.compare?_eq hs hb hc) hab hbc
    obtain rfl := Option.some.inj (ho.symm.trans (h.compare?_eq hs ha hc))
    intro h'
    obtain ⟨hva, hvb, hvc⟩ := hgt.mp h'
    exact hz ⟨⟨a, ha, hva ▸ h.field_eq hs ha⟩, ⟨b, hb, hvb ▸ h.field_eq hs hb⟩,
      ⟨c, hc, hvc ▸ h.field_eq hs hc⟩⟩

/-- Records that compare are in an order, unless the zeros meet in one of the
fields. -/
theorem isPreorderOn (h : Comparable keys records)
    (hz : ∀ s ∈ keys, ¬ ZerosMeet s.name records) :
    IsPreorderOn (compareBy keys) (rankBy keys) (· ∈ records) := by
  induction keys with
  | nil => exact ⟨fun _ _ => rfl, fun _ _ => rfl, fun _ _ _ _ _ => by simp [rankBy]⟩
  | cons s keys ih =>
      obtain ⟨hs, hz⟩ := List.forall_mem_cons.mp hz
      have hkey := (h.isPreorderOn_field List.mem_cons_self hs).directed s.direction
        fun a b ha hb => h.compareKey_eq List.mem_cons_self ha hb
      exact hkey.andThen (ih h.tail hz) fun a b ha hb => h.compareBy_eq ha hb

end Comparable

end ExternalSort.FieldOrder
