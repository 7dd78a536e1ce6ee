/-
Sorts that share a directory.

Any number of parties may have the same directory, the same names and the same
tags.  What keeps them apart is that no file is created in the place of another:
whoever creates a file owns it alone, and nobody removes files of others
(`Sharing.Apart`).  So every file is as its owner has left it, from the time
it is written until it is read (`Sharing.files_stay_apart`).
-/
import ExternalSort.Proofs.Party
import Mathlib.Logic.Function.Basic

namespace ExternalSort

variable {ι : Type} {O α : ι → Type} {W : Type}

/-- Some parties, and the store that they share. -/
structure Sharing (O α : ι → Type) (W : Type) where
  parties : ∀ i, Party (O i) (α i)
  store : W
  /-- What the generators were offered so far. -/
  offered : ∀ i, List (α i)

namespace Sharing

variable [DecidableEq ι] [∀ i, ItemOrder (O i) (α i)] [SpillStore W]

/-- An errand of one of the parties. -/
def run (t : Sharing O α W) (e : Σ i, Errand (α i)) : Sharing O α W where
  parties := Function.update t.parties e.1 ((t.parties e.1).run t.store e.2).1
  store := ((t.parties e.1).run t.store e.2).2
  offered := Function.update t.offered e.1 (t.offered e.1 ++ (t.parties e.1).offered e.2)

def runAll (t : Sharing O α W) (es : List (Σ i, Errand (α i))) : Sharing O α W := es.foldl run t

/-- No file has two owners, and every file that has one is in the store. -/
structure Apart (V : Honest W) (t : Sharing O α W) : Prop where
  ok : V.ok t.store
  inStep : ∀ i, (t.parties i).InStep
  has : ∀ i, V.Has t.store (t.parties i).owned
  apart : ∀ i j, i ≠ j → ∀ p ∈ (t.parties i).owned, p ∉ (t.parties j).owned

variable {V : Honest W} {t : Sharing O α W} {i : ι} {p : Path}

theorem parties_run_self (t : Sharing O α W) (i : ι) (e : Errand (α i)) :
    (t.run ⟨i, e⟩).parties i = ((t.parties i).run t.store e).1 :=
  Function.update_self ..

theorem parties_run_of_ne (t : Sharing O α W) {e : Σ i, Errand (α i)} (h : e.1 ≠ i) :
    (t.run e).parties i = t.parties i :=
  Function.update_of_ne h.symm ..

theorem offered_run_self (t : Sharing O α W) (i : ι) (e : Errand (α i)) :
    (t.run ⟨i, e⟩).offered i = t.offered i ++ (t.parties i).offered e :=
  Function.update_self ..

theorem offered_run_of_ne (t : Sharing O α W) {e : Σ i, Errand (α i)} (h : e.1 ≠ i) :
    (t.run e).offered i = t.offered i :=
  Function.update_of_ne h.symm ..

section Run

variable (h : t.Apart V) (hr : V.Removes) (ho : V.Opens)
include h hr ho

omit [DecidableEq ι] in
theorem Apart.ran (e : Σ i, Errand (α i)) :
    Party.Ran V (t.parties e.1) t.store ((t.parties e.1).run t.store e.2) :=
  Party.ran h.ok (h.has e.1) (h.inStep e.1) hr ho e.2

/-- Files of others do not change. -/
theorem Apart.elsewhere (e : Σ i, Errand (α i)) (hi : e.1 ≠ i) (hp : p ∈ (t.parties i).owned) :
    V.files (t.run e).store p = V.files t.store p :=
  (h.ran hr ho e).deals.others p ((h.has i).present p hp) (h.apart i e.1 hi.symm p hp)

/-- What one party does keeps all of them apart. -/
theorem Apart.run (e : Σ i, Errand (α i)) : (t.run e).Apart V := by
  obtain ⟨j, e⟩ := e
  have hran := h.ran hr ho ⟨j, e⟩
  have hself := parties_run_self t j e
  -- Whatever party `j` owns now it has owned before, or there was no such file.
  have hnew : ∀ i, i ≠ j → ∀ p ∈ ((t.run ⟨j, e⟩).parties j).owned, p ∉ (t.parties i).owned := by
    intro i hij p hp hother
    rw [hself] at hp
    rcases hran.deals.fresh p hp with hown | hnone
    · exact h.apart j i hij.symm p hown hother
    · exact (h.has i).present p hother hnone
  refine ⟨hran.deals.ok, fun i => ?_, fun i => ?_, fun i k hik p hp => ?_⟩
  · by_cases hij : j = i
    · subst hij
      rw [hself]
      exact hran.inStep
    · rw [parties_run_of_ne t hij]
      exact h.inStep i
  · by_cases hij : j = i
    · subst hij
      rw [hself]
      exact hran.deals.has
    · rw [parties_run_of_ne t hij]
      refine ⟨(h.has i).nodup, fun p hp => ?_⟩
      rw [h.elsewhere hr ho ⟨j, e⟩ hij hp]
      exact (h.has i).present p hp
  · by_cases hij : j = i
    · subst hij
      rw [parties_run_of_ne t hik]
      exact hnew k hik.symm p hp
    by_cases hkj : j = k
    · subst hkj
      rw [parties_run_of_ne t hij] at hp
      exact fun hp' => hnew i (Ne.symm hij) p hp' hp
    · rw [parties_run_of_ne t hij] at hp
      rw [parties_run_of_ne t hkj]
      exact h.apart i k hik p hp

end Run

theorem offered_runAll (t : Sharing O α W) (es : List (Σ i, Errand (α i))) (i : ι) :
    t.offered i <+: (t.runAll es).offered i := by
  induction es generalizing t with
  | nil => exact List.prefix_refl _
  | cons e es ih =>
      refine List.IsPrefix.trans ?_ (ih (t.run e))
      by_cases he : e.1 = i
      · subst he
        rw [offered_run_self]
        exact List.prefix_append _ _
      · exact ⟨[], (List.append_nil _).trans (offered_run_of_ne t he).symm⟩

section RunAll

variable (h : t.Apart V) (hr : V.Removes) (ho : V.Opens) (es : List (Σ i, Errand (α i)))
include h hr ho

theorem Apart.runAll : (t.runAll es).Apart V := by
  induction es generalizing t with
  | nil => exact h
  | cons e es ih => exact ih (h.run hr ho e)

theorem Apart.runAll_others (hi : ∀ e ∈ es, e.1 ≠ i) :
    (t.runAll es).parties i = t.parties i ∧
      ∀ p ∈ (t.parties i).owned, V.files (t.runAll es).store p = V.files t.store p := by
  induction es generalizing t with
  | nil => exact ⟨rfl, fun _ _ => rfl⟩
  | cons e es ih =>
      obtain ⟨he, hi⟩ := List.forall_mem_cons.mp hi
      obtain ⟨hparty, hfiles⟩ := ih (h.run hr ho e) hi
      rw [parties_run_of_ne t he] at hparty hfiles
      exact ⟨hparty, fun p hp => (hfiles p hp).trans (h.elsewhere hr ho e he hp)⟩

theorem Apart.runAll_over (hover : (t.parties i).IsOver) : ((t.runAll es).parties i).owned = [] := by
  induction es generalizing t with
  | nil => exact Party.owned_of_isOver (h.inStep i) hover
  | cons e es ih =>
      refine ih (h.run hr ho e) ?_
      by_cases he : e.1 = i
      · subst he
        rw [parties_run_self]
        exact hover.run (h.inStep e.1) e.2
      · rw [parties_run_of_ne t he]
        exact hover

theorem Apart.runAll_kept (hp : p ∈ (t.parties i).owned) (hp' : p ∈ ((t.runAll es).parties i).owned) :
    V.files (t.runAll es).store p = V.files t.store p := by
  induction es generalizing t with
  | nil => rfl
  | cons e es ih =>
      have hrun := h.run hr ho e
      by_cases he : e.1 = i
      · subst he
        have hran := h.ran hr ho e
        rcases hran.keeps with hsub | hover
        · have hmem := hsub hp
          refine (ih hrun ?_ hp').trans (hran.deals.kept p hp hmem)
          rw [parties_run_self]
          exact hmem
        · rw [← parties_run_self t e.1 e.2] at hover
          have hnone := hrun.runAll_over hr ho es hover
          exact absurd (show p ∈ ((Sharing.runAll (t.run e) es).parties e.1).owned from hp')
            (by simp [hnone])
      · refine (ih hrun ?_ hp').trans (h.elsewhere hr ho e he hp)
        rw [parties_run_of_ne t he]
        exact hp

/-- A file that belongs to nobody is never changed or removed, and never belongs
to anybody. -/
theorem Apart.runAll_unowned (hp : V.files t.store p ≠ none)
    (hnobody : ∀ i, p ∉ (t.parties i).owned) :
    V.files (t.runAll es).store p = V.files t.store p ∧
      ∀ i, p ∉ ((t.runAll es).parties i).owned := by
  induction es generalizing t with
  | nil => exact ⟨rfl, hnobody⟩
  | cons e es ih =>
      have hran := h.ran hr ho e
      have hsame : V.files (t.run e).store p = V.files t.store p :=
        hran.deals.others p hp (hnobody e.1)
      have hnobody : ∀ i, p ∉ ((t.run e).parties i).owned := by
        intro i
        by_cases he : e.1 = i
        · subst he
          rw [parties_run_self]
          intro hown
          rcases hran.deals.fresh p hown with hown | hnone
          · exact hnobody e.1 hown
          · exact hp hnone
        · rw [parties_run_of_ne t he]
          exact hnobody i
      obtain ⟨hfiles, hleft⟩ := ih (h.run hr ho e) (hsame ▸ hp) hnobody
      exact ⟨hfiles.trans hsame, hleft⟩

/-- What was offered to a party is what its files hold, at every moment. -/
theorem Apart.runAll_holds {codec : Codec (α i)} {order : O i}
    (hstart : (t.parties i).HoldsOffered V codec order (t.offered i) t.store)
    (hcodec : codec.RoundTrips (· ∈ (t.runAll es).offered i)) :
    ((t.runAll es).parties i).HoldsOffered V codec order ((t.runAll es).offered i)
      (t.runAll es).store := by
  induction es generalizing t with
  | nil => exact hstart
  | cons e es ih =>
      have hrun := h.run hr ho e
      have hsub := (offered_runAll (t.run e) es i).subset
      refine ih hrun ?_ hcodec
      by_cases he : e.1 = i
      · subst he
        rw [parties_run_self]
        rw [offered_run_self] at hsub ⊢
        refine hstart.run h.ok (h.has e.1) (h.inStep e.1) hr ho e.2 ?_
        exact fun a ha => hcodec a (hsub ha)
      · rw [parties_run_of_ne t he, offered_run_of_ne t he]
        exact hstart.elsewhere hrun.ok ho fun p hp => h.elsewhere hr ho e he hp

end RunAll

/-- Generators that have not begun yet. -/
def fresh (settings : ι → Settings) (codec : ∀ i, Codec (α i)) (order : ∀ i, O i)
    (tag : ι → UInt32) (w : W) : Sharing O α W where
  parties i := .generating
    { settings := settings i, codec := codec i, order := order i, tag := tag i }
  store := w
  offered _ := []

variable {settings : ι → Settings} {codec : ∀ i, Codec (α i)} {order : ∀ i, O i} {tag : ι → UInt32}
  {w : W}

omit [DecidableEq ι] [∀ i, ItemOrder (O i) (α i)] in
theorem fresh_apart (hw : V.ok w) : (fresh settings codec order tag w).Apart V where
  ok := hw
  inStep _ := trivial
  has _ := .nil V w
  apart _ _ _ _ hp := absurd hp List.not_mem_nil

omit [DecidableEq ι] in
theorem fresh_holds (hw : V.ok w) (i : ι) :
    ((fresh settings codec order tag w).parties i).HoldsOffered V (codec i) (order i) [] w :=
  ⟨[],
    { inFiles := .fresh hw (settings i) (codec i) (order i) (tag i)
      order_eq := rfl
      conserved := .refl _
      sorted := fun _ _ _ h => absurd h List.not_mem_nil }⟩

/-- **Sorts that share a store never touch each other's files.**  Whatever their
settings and tags, whatever there is in the store, whatever they are told to do
and in whatever order, and whichever calls to the store fail but removals:

- no file has two owners, or the same owner twice;
- as long as only the others do anything, a party has its files as they are;
- a file that a party has before and after anything has the same bytes;
- files that were there at the start stay as they are, and are owned by nobody;
- if the items that were offered to a generator come back from their bytes, its
  files hold those that its order has accepted, and its merge reads them as that. -/
theorem files_stay_apart (V : Honest W) (hr : V.Removes) (ho : V.Opens) (settings : ι → Settings)
    (codec : ∀ i, Codec (α i)) (order : ∀ i, O i) (tag : ι → UInt32) {w : W} (hw : V.ok w)
    (before after : List (Σ i, Errand (α i))) :
    let s := (fresh settings codec order tag w).runAll before
    let t := s.runAll after
    (∀ i, (s.parties i).owned.Nodup ∧
      ∀ j, i ≠ j → ∀ p ∈ (s.parties i).owned, p ∉ (s.parties j).owned) ∧
    (∀ i, (∀ e ∈ after, e.1 ≠ i) → t.parties i = s.parties i ∧
      ∀ p ∈ (s.parties i).owned, V.files t.store p = V.files s.store p) ∧
    (∀ i, ∀ p ∈ (s.parties i).owned, p ∈ (t.parties i).owned →
      V.files t.store p = V.files s.store p) ∧
    (∀ p, V.files w p ≠ none → V.files s.store p = V.files w p ∧
      ∀ i, p ∉ (s.parties i).owned) ∧
    ∀ i, (codec i).RoundTrips (· ∈ s.offered i) →
      (s.parties i).HoldsOffered V (codec i) (order i) (s.offered i) s.store := by
  intro s t
  have hstart : (fresh settings codec order tag w).Apart V := fresh_apart hw
  have hs : s.Apart V := hstart.runAll hr ho before
  refine ⟨fun i => ⟨(hs.has i).nodup, hs.apart i⟩, ?_, ?_, ?_, ?_⟩
  · exact fun i hi => hs.runAll_others hr ho after hi
  · exact fun i p hp hp' => hs.runAll_kept hr ho after hp hp'
  · exact fun p hp => hstart.runAll_unowned hr ho before hp fun _ => List.not_mem_nil
  · exact fun i hcodec => hstart.runAll_holds hr ho before (fresh_holds hw i) hcodec

/-- Two sorts with one tag find the name of their first file taken.  The one spills
into the second file and the other, after a creation that failed, into the fourth;
when the other is given up, the file of the first is as it was. -/
theorem two_of_one_tag_stay_apart :
    let settings : Settings := { Settings.standard ⟨"runs"⟩ with threshold := 2 }
    let codec : Codec UInt8 :=
      { encode := fun b => .ok [b]
        decode := fun bs => bs.head?.elim (.error (.text "empty")) .ok
        size := fun _ => 1 }
    let w : PlannedStore :=
      { plan :=
          { createFault := fun n => if n = 4 then some ⟨.permissionDenied, "denied"⟩ else none }
        files := [(settings.spillPath 7 1, [0])] }
    let start : Sharing (fun _ : Bool => PlainOrder UInt8) (fun _ => UInt8) PlannedStore :=
      fresh (fun _ => settings) (fun _ => codec) (fun _ => .natural UInt8) (fun _ => 7) w
    let s := start.runAll [⟨false, .offer 3⟩, ⟨true, .offer 8⟩, ⟨false, .offer 1⟩,
      ⟨true, .offer 9⟩, ⟨true, .offer 2⟩]
    let t := s.runAll [⟨true, .drop⟩]
    (s.parties false).owned = [settings.spillPath 7 2] ∧
      (s.parties true).owned = [settings.spillPath 7 4] ∧
      PlannedStore.candid.files t.store (settings.spillPath 7 4) = none ∧
      PlannedStore.candid.files t.store (settings.spillPath 7 2) =
        PlannedStore.candid.files s.store (settings.spillPath 7 2) ∧
      PlannedStore.candid.files s.store (settings.spillPath 7 1) = some [0] ∧
      (s.parties true).HoldsOffered PlannedStore.candid codec (.natural UInt8) [8, 9, 2] s.store := by
  intro settings codec w start s t
  have hw : PlannedStore.candid.ok w := ⟨fun _ => rfl, fun _ bs => by
    rw [show w.plan.source _ bs = Source.ofBytes bs from rfl, Source.content_ofBytes]
    exact ⟨List.prefix_refl bs, fun _ => rfl⟩⟩
  obtain ⟨-, hothers, -, hthere, hholds⟩ := files_stay_apart PlannedStore.candid
    PlannedStore.candid_removes PlannedStore.candid_opens (fun _ => settings) (fun _ => codec)
    (fun _ => PlainOrder.natural UInt8) (fun _ => 7) hw
    [⟨false, .offer 3⟩, ⟨true, .offer 8⟩, ⟨false, .offer 1⟩, ⟨true, .offer 9⟩, ⟨true, .offer 2⟩]
    [⟨true, .drop⟩]
  have hfirst : (s.parties false).owned = [settings.spillPath 7 2] := by decide +kernel
  have hcodec : codec.RoundTrips (· ∈ s.offered true) := by
    intro a _ payload he
    obtain rfl := Except.ok.inj he
    rfl
  refine ⟨hfirst, by decide +kernel, by decide +kernel, ?_, ?_, hholds true hcodec⟩
  · refine (hothers false ?_).2 _ ?_
    · simp
    · rw [show (start.runAll _).parties false = s.parties false from rfl, hfirst]
      exact List.mem_singleton_self _
  · exact (hthere (settings.spillPath 7 1) (by decide +kernel)).1.trans (by decide +kernel)

end Sharing

end ExternalSort
