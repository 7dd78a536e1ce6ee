/-
What a record does to the locks of an order by fields.

The locks that a record takes are set together, and only if every key has let the record
through.  So each key may be looked at by itself (`FieldOrder.lockKey`, `accept_eq_lockKeys`):
a lock that is there stays, and a key that has none takes the kind that it finds.  After any
number of records a key is locked to the first kind that it found in one that was accepted
(`entries_screen`); those that were refused do not count.
-/
import ExternalSort.Order.Fields
import ExternalSort.Proofs.Order.Screen
import ExternalSort.Proofs.Order.Values

namespace ExternalSort

namespace FieldOrder

variable {R : Type} [HasFields R]

/-! ## One key by itself -/

/-- The lock of one key after a record: the first kind that is not null
locks it, and every later one must compare with it. -/
def lockKey (s : SortKey) (lock : Option Kind) (r : R) : Except OrderError (Option Kind) := do
  let v ← fieldOf r s.name
  if v.isNull then .ok lock
  else match lock with
    | none => .ok (some v.kind)
    | some k =>
      if k.comparesWith v.kind then .ok lock
      else .error (.incomparable s.name k v.kind)

/-- The keys with their locks after a record, if no key refuses it. -/
def lockKeys (r : R) : List (SortKey × Option Kind) →
    Except OrderError (List (SortKey × Option Kind))
  | [] => .ok []
  | (s, lock) :: ks => do
    let lock ← lockKey s lock r
    let ks ← lockKeys r ks
    .ok ((s, lock) :: ks)

variable {s : SortKey} {lock lock' : Option Kind} {r : R}

theorem lockKey_of_missing (h : HasFields.field r s.name = none) :
    lockKey s lock r = .error (.unknownField s.name) := by
  simp [lockKey, fieldOf, h, bind, Except.bind]

theorem lockKey_of_null {v : Value} (h : HasFields.field r s.name = some v)
    (hv : v.isNull = true) : lockKey s lock r = .ok lock := by
  simp [lockKey, fieldOf, h, hv, bind, Except.bind]

theorem lockKey_none {v : Value} (h : HasFields.field r s.name = some v)
    (hv : v.isNull = false) : lockKey s none r = .ok (some v.kind) := by
  simp [lockKey, fieldOf, h, hv, bind, Except.bind]

theorem lockKey_some {v : Value} {k : Kind} (h : HasFields.field r s.name = some v)
    (hv : v.isNull = false) : lockKey s (some k) r =
      if k.comparesWith v.kind then .ok (some k)
      else .error (.incomparable s.name k v.kind) := by
  simp [lockKey, fieldOf, h, hv, bind, Except.bind]

theorem lockKey_cases (h : lockKey s lock r = .ok lock') :
    ∃ v, HasFields.field r s.name = some v ∧
      (v.isNull = true ∧ lock' = lock ∨
        v.isNull = false ∧ lock = none ∧ lock' = some v.kind ∨
        v.isNull = false ∧ lock' = lock ∧ ∃ k, lock = some k ∧ k.family = v.kind.family) := by
  cases hf : HasFields.field r s.name with
  | none => exact absurd ((lockKey_of_missing hf).symm.trans h) (by simp)
  | some v =>
      refine ⟨v, rfl, ?_⟩
      cases hv : v.isNull with
      | true =>
          rw [lockKey_of_null hf hv] at h
          exact .inl ⟨rfl, (Except.ok.inj h).symm⟩
      | false =>
          cases lock with
          | none =>
              rw [lockKey_none hf hv] at h
              exact .inr (.inl ⟨rfl, rfl, (Except.ok.inj h).symm⟩)
          | some k =>
              rw [lockKey_some hf hv] at h
              split at h
              · next hk =>
                exact .inr (.inr ⟨rfl, (Except.ok.inj h).symm, k, rfl, Kind.comparesWith_iff.mp hk⟩)
              · exact absurd h (by simp)

theorem lockKeys_cons {entries : List (SortKey × Option Kind)} :
    lockKeys r ((s, lock) :: entries) =
      match lockKey s lock r, lockKeys r entries with
      | .ok lock', .ok entries' => .ok ((s, lock') :: entries')
      | .ok _, .error e => .error e
      | .error e, _ => .error e := by
  rw [lockKeys]
  cases lockKey s lock r with
  | error e => rfl
  | ok lock' => cases lockKeys r entries <;> rfl

/-! ## All keys together -/

theorem lockAt_place (pre ks : List (SortKey × Option Kind)) (s : SortKey) (lock : Option Kind)
    (k : Kind) (fresh : List (Nat × Kind)) :
    lockAt (pre ++ (s, lock) :: ks) ((pre.length, k) :: fresh) =
      lockAt (pre ++ (s, some k) :: ks) fresh := by
  have hplace : (pre ++ (s, lock) :: ks).modify pre.length (fun e => (e.1, some k)) =
      pre ++ (s, some k) :: ks := by
    induction pre with
    | nil => rfl
    | cons e pre ih => exact congrArg (e :: ·) ih
  exact congrArg (lockAt · fresh) hplace

theorem newLocks_eq (r : R) (pre ks : List (SortKey × Option Kind)) :
    (newLocks r pre.length ks).map (lockAt (pre ++ ks)) = (lockKeys r ks).map (pre ++ ·) := by
  induction ks generalizing pre with
  | nil => rfl
  | cons e ks ih =>
      obtain ⟨s, lock⟩ := e
      have hnext : ∀ lock',
          (newLocks r (pre.length + 1) ks).map (lockAt (pre ++ (s, lock') :: ks)) =
            (lockKeys r ks).map (pre ++ (s, lock') :: ·) := by
        intro lock'
        simpa using ih (pre ++ [(s, lock')])
      -- A key that lets the record through leaves the places of those after it as they are.
      have hpass : ∀ lock', lockKey s lock r = .ok lock' →
          (lockKeys r ((s, lock) :: ks)).map (pre ++ ·) =
            (newLocks r (pre.length + 1) ks).map (lockAt (pre ++ (s, lock') :: ks)) := by
        intro lock' hk
        rw [hnext, lockKeys_cons, hk]
        cases lockKeys r ks <;> rfl
      rw [newLocks, fieldOf]
      cases hf : HasFields.field r s.name with
      | none =>
          rw [lockKeys_cons, lockKey_of_missing hf]
          rfl
      | some v =>
          dsimp only [bind, Except.bind]
          cases hv : v.isNull with
          | true =>
              rw [hpass lock (lockKey_of_null hf hv)]
              rfl
          | false =>
              cases lock with
              | none =>
                  rw [hpass (some v.kind) (lockKey_none hf hv)]
                  simp only [Bool.false_eq_true, if_false]
                  cases newLocks r (pre.length + 1) ks with
                  | error e => rfl
                  | ok fresh => exact congrArg Except.ok (lockAt_place pre ks s none v.kind fresh)
              | some k =>
                  have hk := lockKey_some (s := s) (k := k) hf hv
                  simp only [Bool.false_eq_true, if_false]
                  by_cases hc : k.comparesWith v.kind
                  · rw [if_pos hc] at hk ⊢
                    exact (hpass (some k) hk).symm
                  · rw [if_neg hc] at hk ⊢
                    rw [lockKeys_cons, hk]
                    rfl

theorem accept_eq (o : RecordOrder R) (r : R) :
    ItemOrder.accept o r = (o.fields.accept r).map RecordOrder.mk := rfl

theorem accept_record_iff {o o' : RecordOrder R} :
    ItemOrder.accept o r = .ok o' ↔ o.fields.accept r = .ok o'.fields := by
  rw [accept_eq]
  cases o.fields.accept r with
  | error e => simp [Except.map]
  | ok fields =>
      cases o'
      simp [Except.map]

/-- An order accepts a record if each key by itself does. -/
theorem accept_eq_lockKeys (o : FieldOrder) (r : R) :
    o.accept r = (lockKeys r o.entries).map FieldOrder.mk := by
  have hset : (newLocks r 0 o.entries).map (lockAt o.entries) = (lockKeys r o.entries).map id :=
    newLocks_eq r [] o.entries
  have hleft : ∀ x : Except OrderError (List (Nat × Kind)),
      (x.map fun fresh => FieldOrder.mk (lockAt o.entries fresh)) =
        (x.map (lockAt o.entries)).map FieldOrder.mk := by
    intro x
    cases x <;> rfl
  rw [accept, hleft, hset]
  cases lockKeys r o.entries <;> rfl

theorem accept_ok_iff {o o' : FieldOrder} :
    o.accept r = .ok o' ↔ lockKeys r o.entries = .ok o'.entries := by
  rw [accept_eq_lockKeys]
  cases lockKeys r o.entries with
  | error e => simp [Except.map]
  | ok ks =>
      cases o'
      simp [Except.map]

/-- Why one of some keys does not let a record through: it has no such field, or a value
there that does not compare with the lock. -/
inductive RefusedFor (keys : List SortKey) (r : R) : OrderError → Prop
  | missing {s : SortKey} : s ∈ keys → HasFields.field r s.name = none →
      RefusedFor keys r (.unknownField s.name)
  | conflict {s : SortKey} {v : Value} {k : Kind} : s ∈ keys → HasFields.field r s.name = some v →
      v.isNull = false → k.comparesWith v.kind = false →
      RefusedFor keys r (.incomparable s.name k v.kind)

theorem RefusedFor.mono {keys keys' : List SortKey} {e : OrderError} (h : RefusedFor keys r e)
    (hk : keys ⊆ keys') : RefusedFor keys' r e := by
  cases h with
  | missing hs hf => exact .missing (hk hs) hf
  | conflict hs hf hv hc => exact .conflict (hk hs) hf hv hc

theorem lockKey_error {e : OrderError} (h : lockKey s lock r = .error e) :
    RefusedFor [s] r e := by
  have hs : s ∈ [s] := List.mem_singleton_self s
  cases hf : HasFields.field r s.name with
  | none =>
      rw [lockKey_of_missing hf] at h
      obtain rfl := Except.error.inj h
      exact .missing hs hf
  | some v =>
      cases hv : v.isNull with
      | true => exact absurd ((lockKey_of_null hf hv).symm.trans h) (by simp)
      | false =>
          cases lock with
          | none => exact absurd ((lockKey_none hf hv).symm.trans h) (by simp)
          | some k =>
              rw [lockKey_some hf hv] at h
              split at h
              · exact absurd h (by simp)
              · next hc =>
                obtain rfl := Except.error.inj h
                exact .conflict hs hf hv (Bool.not_eq_true _ ▸ hc)

theorem lockKeys_error {ks : List (SortKey × Option Kind)} {e : OrderError}
    (h : lockKeys r ks = .error e) : RefusedFor (ks.map Prod.fst) r e := by
  induction ks with
  | nil => exact absurd h (by simp [lockKeys])
  | cons e ks ih =>
      obtain ⟨s, lock⟩ := e
      rw [lockKeys_cons] at h
      split at h
      · exact absurd h (by simp)
      · next hks =>
        obtain rfl := Except.error.inj h
        exact (ih hks).mono (List.subset_cons_self _ _)
      · next hk =>
        obtain rfl := Except.error.inj h
        exact (lockKey_error hk).mono (List.cons_subset.mpr ⟨List.mem_cons_self, List.nil_subset _⟩)

theorem accept_error {o : FieldOrder} {e : OrderError} (h : o.accept r = .error e) :
    RefusedFor o.keys r e := by
  rw [accept_eq_lockKeys] at h
  cases hk : lockKeys r o.entries with
  | error e' =>
      rw [hk] at h
      obtain rfl := Except.error.inj h
      exact lockKeys_error hk
  | ok ks => exact absurd (hk ▸ h) (by simp [Except.map])

/-! ## After any number of records -/

/-- The kind of value, nulls apart, that a record has in a field. -/
def kindOf? (name : String) (r : R) : Option Kind :=
  ((HasFields.field r name).filter (!·.isNull)).map Value.kind

/-- Keys with the locks that some records leave behind: each one that is not locked takes the
first kind that it finds in them. -/
def lockedBy (ks : List (SortKey × Option Kind)) (records : List R) :
    List (SortKey × Option Kind) :=
  ks.map fun e => (e.1, e.2.or (records.findSome? (kindOf? e.1.name)))

theorem lockedBy_nil (ks : List (SortKey × Option Kind)) : lockedBy ks ([] : List R) = ks := by
  simp [lockedBy]

theorem lockedBy_append (ks : List (SortKey × Option Kind)) (records records' : List R) :
    lockedBy ks (records ++ records') = lockedBy (lockedBy ks records) records' := by
  simp [lockedBy, List.findSome?_append, Option.or_assoc]

theorem lock_of_lockKey (h : lockKey s lock r = .ok lock') :
    lock' = lock.or ([r].findSome? (kindOf? s.name)) := by
  obtain ⟨v, hf, hv⟩ := lockKey_cases h
  rw [List.findSome?_singleton, kindOf?, hf]
  rcases hv with ⟨hnull, rfl⟩ | ⟨hnull, rfl, rfl⟩ | ⟨hnull, rfl, k, rfl, -⟩
  · simp [Option.filter, hnull]
  · simp [Option.filter, hnull]
  · rfl

theorem lockKeys_ok_eq {ks ks' : List (SortKey × Option Kind)} (h : lockKeys r ks = .ok ks') :
    ks' = lockedBy ks [r] := by
  induction ks generalizing ks' with
  | nil => exact (Except.ok.inj h).symm
  | cons e ks ih =>
      obtain ⟨s, lock⟩ := e
      rw [lockKeys_cons] at h
      split at h
      · next lock' ks₁ hk hks =>
        obtain rfl := Except.ok.inj h
        rw [lock_of_lockKey hk, ih hks]
        rfl
      · exact absurd h (by simp)
      · exact absurd h (by simp)

theorem lockedBy_keys (ks : List (SortKey × Option Kind)) (records : List R) :
    (lockedBy ks records).map Prod.fst = ks.map Prod.fst := by
  rw [lockedBy, List.map_map]
  rfl

theorem accept_entries {o o' : RecordOrder R} (h : ItemOrder.accept o r = .ok o') :
    o'.fields.entries = lockedBy o.fields.entries [r] :=
  lockKeys_ok_eq (accept_ok_iff.mp (accept_record_iff.mp h))

theorem accept_keys {o o' : RecordOrder R} (h : ItemOrder.accept o r = .ok o') :
    o'.fields.keys = o.fields.keys := by
  rw [keys, accept_entries h, lockedBy_keys, keys]

theorem accept_refused {o : RecordOrder R} {e : OrderError}
    (h : ItemOrder.accept o r = .error e) : RefusedFor o.fields.keys r e := by
  rw [accept_eq] at h
  cases hr : o.fields.accept r with
  | error e' =>
      rw [hr] at h
      obtain rfl := Except.error.inj h
      exact accept_error hr
  | ok fields => exact absurd (hr ▸ h) (by simp [Except.map])

/-- Of the records that were shown, those that were accepted have left locks behind, and
no others. -/
theorem entries_screen (o : RecordOrder R) (shown : List R) :
    (ItemOrder.screen o shown).1.fields.entries =
      lockedBy o.fields.entries (ItemOrder.screen o shown).2 := by
  have hstep : ∀ {o₁ o₂ : RecordOrder R} {r : R} {accepted : List R},
      o₁.fields.entries = lockedBy o.fields.entries accepted → ItemOrder.accept o₁ r = .ok o₂ →
        o₂.fields.entries = lockedBy o.fields.entries (accepted ++ [r]) := by
    intro o₁ o₂ r accepted h ha
    rw [lockedBy_append, ← h]
    exact accept_entries ha
  exact ItemOrder.screen_induction
    (P := fun (o' : RecordOrder R) accepted =>
      o'.fields.entries = lockedBy o.fields.entries accepted)
    hstep (lockedBy_nil o.fields.entries).symm shown

/-- A row that lacks the second field does not lock the first one. -/
example :
    let order : RecordOrder Row := ⟨.ofKeys [⟨"a", .ascending⟩, ⟨"b", .ascending⟩]⟩
    let half : Row := .ofList [("a", .int 1)]
    let whole : Row := .ofList [("a", .text "one"), ("b", .null)]
    (ItemOrder.screen order [half, whole]).1.fields.locks = [some .text, none] := rfl

end FieldOrder

end ExternalSort
