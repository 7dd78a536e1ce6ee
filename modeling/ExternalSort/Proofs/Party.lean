/-
One of several sorts that share a store.

A party is a generator of runs, then has the runs, and then is their merge; or
it is given up at any point.  Whatever it is told to do, it deals with its own
files (`Party.ran`), and as long as it has them they hold what its generator was
offered (`Party.HoldsOffered`), whatever becomes of the files of others.
-/
import ExternalSort.Proofs.Merge.Custody
import ExternalSort.Proofs.Merge.Reading
import ExternalSort.Proofs.Run.Sharing

namespace ExternalSort

/-- One of those who share a store. -/
inductive Party (O α : Type) where
  | generating (b : RunGenerator O α)
  /-- The runs are made, and their merge has not begun. -/
  | holding (order : O) (decode : List UInt8 → Except Cause α) (runs : List (Run α))
  /-- The merge that was made of the runs. -/
  | merging (runs : List (Run α)) (m : Merge O α)
  | gone

/-- What a party can be told to do. -/
inductive Errand (α : Type) where
  | offer (a : α)
  /-- Ends the generation of runs. -/
  | close
  /-- Begins the merge of the runs. -/
  | merge (settings : Settings)
  | command (c : Command α)
  | drop

namespace Party

variable {O α W : Type} [ItemOrder O α] [SpillStore W]

/-- Runs an errand; one that makes no sense for the party changes nothing. -/
def run (s : Party O α) (w : W) : Errand α → Party O α × W
  | .offer a =>
    match s with
    | generating b => (generating (b.add w a).2.1, (b.add w a).2.2)
    | _ => (s, w)
  | .close =>
    match s with
    | generating b =>
      match b.close w with
      | (.error _, w) => (gone, w)
      | (.ok runs, w) => (holding b.order b.codec.decode runs, w)
    | _ => (s, w)
  | .merge settings =>
    match s with
    | holding order decode runs =>
      (merging runs ((Merge.ofRuns order decode runs).withSettings settings), w)
    | _ => (s, w)
  | .command c =>
    match s with
    | merging runs m =>
      (merging runs (Command.perform (m, w) c).1.1, (Command.perform (m, w) c).1.2)
    | _ => (s, w)
  | .drop =>
    match s with
    | generating b => (gone, b.discard w)
    | merging _ m => (gone, m.discard w)
    | holding .. | gone => (gone, w)

/-- The files of a party. -/
def owned : Party O α → List Path
  | generating b => b.owned
  | holding _ _ runs => Run.paths runs
  | merging _ m => m.files
  | gone => []

/-- What a generator takes notice of. -/
def offered : Party O α → Errand α → List α
  | generating _, .offer a => [a]
  | _, _ => []

def InStep : Party O α → Prop
  | merging _ m => m.InStep
  | _ => True

/-- A party that will have no files any more. -/
def IsOver : Party O α → Prop
  | merging _ m => m.supply.isOpen = false
  | gone => True
  | _ => False

variable {V : Honest W} {s : Party O α} {w : W}

omit [ItemOrder O α] in
theorem owned_of_isOver (hs : s.InStep) (h : s.IsOver) : s.owned = [] := by
  cases s with
  | generating b => exact h.elim
  | holding order decode runs => exact h.elim
  | merging runs m =>
      have hfinal : m.phase.isFinal = true := by
        rw [hs.phase, show m.supply.isOpen = false from h]
        rfl
      exact (hs.released hfinal).2.2
  | gone => rfl

/-- What a party has done with the store that it shares. -/
structure Ran (V : Honest W) (s : Party O α) (w : W) (t : Party O α × W) : Prop where
  deals : V.Deals w s.owned t.2 t.1.owned
  inStep : t.1.InStep
  keeps : s.owned ⊆ t.1.owned ∨ t.1.IsOver

omit [ItemOrder O α] in
theorem Ran.nothing (hw : V.ok w) (hhas : V.Has w s.owned) (hs : s.InStep) : Ran V s w (s, w) where
  deals := (Honest.Grows.refl hw hhas).deals hhas
  inStep := hs
  keeps := .inl (List.Subset.refl _)

section Ran

variable (hw : V.ok w) (hhas : V.Has w s.owned) (hs : s.InStep) (hr : V.Removes) (ho : V.Opens)
include hw hhas hr ho

omit [ItemOrder O α] in
theorem ran_of_released {w' : W} (h : Released w s.owned w') : Ran V s w (gone, w') where
  deals := h.deals hw hhas hr ho
  inStep := trivial
  keeps := .inr trivial

omit [ItemOrder O α] hr in
theorem ran_of_works {t : Party O α × W} (h : Works w s.owned t.2 t.1.owned) (ht : t.1.InStep) :
    Ran V s w t where
  deals := (h.grows hw hhas ho).deals hhas
  inStep := ht
  keeps := .inl (h.grows hw hhas ho).subset

include hs

theorem ran_command {runs : List (Run α)} {m : Merge O α} (hm : s = merging runs m)
    (c : Command α) : Ran V s w (s.run w (.command c)) := by
  subst hm
  obtain ⟨o, hopen, hp⟩ := m.perform_drives w c
  have hin : Merge.InStep { m with supply := o } :=
    ⟨hs.phase.trans (congrArg _ hopen.symm), hs.released⟩
  rw [run]
  rcases hp with hp | hp <;> rw [hp]
  · exact ran_of_works hw hhas ho (.refl w m.files) hin
  cases hsup : o.isOpen with
  | false =>
      rw [Merge.drive_of_not_open hin hsup]
      exact ran_of_works hw hhas ho (.refl w m.files) hin
  | true =>
      have hfate := Merge.drive_fate (w := w) hin hsup
      refine ⟨hfate.deals hw hhas hr ho, Merge.drive_inStep hin, ?_⟩
      cases hfate with
      | goesOn hworks => exact .inl (hworks.grows hw hhas ho).subset
      | finished _ hclosed => exact .inr hclosed

/-- Whatever errand a party runs, it minds its own files. -/
theorem ran (e : Errand α) : Ran V s w (s.run w e) := by
  have hnothing := Ran.nothing hw hhas hs
  cases e with
  | offer a =>
      cases s with
      | generating b =>
          exact ⟨(b.add_leaves w a).deals hw hhas hr ho, trivial, .inl (b.owned_add w a)⟩
      | _ => exact hnothing
  | close =>
      cases s with
      | generating b =>
          have hc := b.close_leaves w
          rw [run]
          revert hc
          cases b.close w with
          | mk r w' =>
              cases r with
              | error e => exact ran_of_released hw hhas hr ho
              | ok runs => exact fun hworks => ran_of_works hw hhas ho hworks trivial
      | _ => exact hnothing
  | merge settings =>
      cases s with
      | holding order decode runs =>
          exact ran_of_works hw hhas ho (.refl w _) (Merge.inStep_of_open rfl rfl)
      | _ => exact hnothing
  | command c =>
      cases s with
      | merging runs m => exact ran_command hw hhas hs hr ho rfl c
      | _ => exact hnothing
  | drop =>
      cases s with
      | generating b => exact ran_of_released hw hhas hr ho (.of_files w b.owned)
      | holding order decode runs =>
          exact ⟨⟨hw, .nil V w, fun _ _ _ => rfl, fun _ _ h => absurd h List.not_mem_nil,
            fun _ h => absurd h List.not_mem_nil⟩, trivial, .inr trivial⟩
      | merging runs m => exact ran_of_released hw hhas hr ho (.of_files w m.files)
      | gone => exact hnothing

end Ran

theorem IsOver.run (hs : s.InStep) (h : s.IsOver) (e : Errand α) : (s.run w e).1.IsOver := by
  cases s with
  | generating b => exact h.elim
  | holding order decode runs => exact h.elim
  | gone => cases e <;> trivial
  | merging runs m =>
      cases e with
      | command c =>
          obtain ⟨o, hopen, hp⟩ := m.perform_drives w c
          have hclosed : o.isOpen = false := hopen.trans h
          have hin : Merge.InStep { m with supply := o } :=
            ⟨hs.phase.trans (congrArg _ hopen.symm), hs.released⟩
          rw [Party.run]
          rcases hp with hp | hp <;> rw [hp]
          · exact hclosed
          · rw [Merge.drive_of_not_open hin hclosed]
            exact hclosed
      | drop => trivial
      | offer _ => exact h
      | close => exact h
      | merge _ => exact h

/-! ## What the files hold -/

/-- The runs of a party hold what was offered to its generator and accepted by
its order, and when they are opened they are read as that. -/
def HoldsOffered (V : Honest W) (codec : Codec α) (order : O) (shown : List α) (w : W) :
    Party O α → Prop
  | generating b => ∃ stored, RunGenerator.Conserves V codec order shown shown b w stored
  | holding _ decode runs => decode = codec.decode ∧
      ∃ lists, List.Forall₂ (Run.Holds (V.files w) codec.decode) runs lists ∧
        lists.flatten.Perm (ItemOrder.screen order shown).2
  | merging runs m => m.OfRuns runs codec.decode ∧ (m.supply.isOpen = true →
      ∃ lists, List.Forall₂ (Run.Holds (V.files w) codec.decode) runs lists ∧
        lists.flatten.Perm (ItemOrder.screen order shown).2 ∧
        ∀ ss, m.runs = runs → (Merge.openRuns m.decode m.chunk w m.runs).1 = .ok ss →
          List.Forall₂ Intake.Gives ss lists)
  | gone => True

variable {codec : Codec α} {order : O} {shown : List α}

omit [ItemOrder O α] in
theorem gives_of_ofRuns {runs : List (Run α)} {m : Merge O α} (hm : m.OfRuns runs codec.decode)
    (hw : V.ok w) (ho : V.Opens) {lists : List (List α)}
    (h : List.Forall₂ (Run.Holds (V.files w) codec.decode) runs lists)
    {ss : List (Intake (RunStream α) α)} (hruns : m.runs = runs)
    (hopen : (Merge.openRuns m.decode m.chunk w m.runs).1 = .ok ss) :
    List.Forall₂ Intake.Gives ss lists := by
  cases hm with
  | unopened _ _ hd =>
      rw [hd, hruns] at hopen
      exact Merge.openRuns_gives ho hw h hopen
  | opened hnone =>
      rw [hnone] at hopen
      obtain rfl := Except.ok.inj hopen
      rw [← hruns, hnone] at h
      obtain rfl := List.forall₂_nil_left_iff.mp h
      exact .nil

theorem holdsOffered_merging {runs : List (Run α)} {m n : Merge O α} {w' : W}
    (h : (merging runs m).HoldsOffered V codec order shown w) (hn : n.OfRuns runs codec.decode)
    (hgoes : n.supply.isOpen = true → m.supply.isOpen = true) (hw : V.ok w') (ho : V.Opens)
    (hfiles : n.supply.isOpen = true → ∀ p ∈ Run.paths runs, V.files w' p = V.files w p) :
    (merging runs n).HoldsOffered V codec order shown w' := by
  refine ⟨hn, fun hopen => ?_⟩
  obtain ⟨lists, hholds, hperm, -⟩ := h.2 (hgoes hopen)
  have hholds := Run.holds_congr hholds (hfiles hopen)
  exact ⟨lists, hholds, hperm, fun ss hr => gives_of_ofRuns hn hw ho hholds hr⟩

/-- What others do does not touch what the files of a party hold. -/
theorem HoldsOffered.elsewhere {w' : W} (h : s.HoldsOffered V codec order shown w) (hw : V.ok w')
    (ho : V.Opens) (hfiles : ∀ p ∈ s.owned, V.files w' p = V.files w p) :
    s.HoldsOffered V codec order shown w' := by
  cases s with
  | generating b =>
      obtain ⟨stored, h⟩ := h
      exact ⟨stored, h.elsewhere hw hfiles⟩
  | holding o decode runs =>
      obtain ⟨hd, lists, hholds, hperm⟩ := h
      exact ⟨hd, lists, Run.holds_congr hholds hfiles, hperm⟩
  | merging runs m =>
      refine holdsOffered_merging h h.1 id hw ho fun hopen p hp => hfiles p ?_
      rw [owned, h.1.files hopen]
      exact hp
  | gone => trivial

section Ran

variable (hw : V.ok w) (hhas : V.Has w s.owned) (hs : s.InStep) (hr : V.Removes) (ho : V.Opens)
include hw hhas hs hr ho

theorem HoldsOffered.command {runs : List (Run α)} {m : Merge O α} (hm : s = merging runs m)
    (h : s.HoldsOffered V codec order shown w) (c : Command α) :
    (s.run w (.command c)).1.HoldsOffered V codec order shown (s.run w (.command c)).2 := by
  subst hm
  obtain ⟨o, hopen, hp⟩ := m.perform_drives w c
  have hin : Merge.InStep { m with supply := o } :=
    ⟨hs.phase.trans (congrArg _ hopen.symm), hs.released⟩
  have hof : Merge.OfRuns runs codec.decode { m with supply := o } := h.1.withSupply hopen
  have hrest : (merging runs { m with supply := o }).HoldsOffered V codec order shown w :=
    holdsOffered_merging h hof (fun hsup => hopen.symm.trans hsup) hw ho fun _ _ _ => rfl
  rw [run]
  rcases hp with hp | hp <;> rw [hp]
  · exact hrest
  cases hsup : o.isOpen with
  | false =>
      rw [Merge.drive_of_not_open hin hsup]
      exact hrest
  | true =>
      have hfate := Merge.drive_fate (w := w) hin hsup
      have hok := (hfate.deals hw hhas hr ho).ok
      refine holdsOffered_merging hrest hof.drive (fun _ => hsup) hok ho fun hgoes p hp => ?_
      have hall : m.files = Run.paths runs := hof.files hsup
      cases hfate with
      | goesOn hworks =>
          refine (hworks.grows hw hhas ho).unchanged p (hhas.present p ?_)
          rw [owned, hall]
          exact hp
      | finished _ hclosed => exact absurd (hclosed.symm.trans hgoes) (by simp)

/-- Whatever errand a party runs, its files hold what was offered to it. -/
theorem HoldsOffered.run (h : s.HoldsOffered V codec order shown w) (e : Errand α)
    (hcodec : codec.RoundTrips (· ∈ shown ++ s.offered e)) :
    (s.run w e).1.HoldsOffered V codec order (shown ++ s.offered e) (s.run w e).2 := by
  have hnothing : s.offered e = [] → s.HoldsOffered V codec order (shown ++ s.offered e) w := by
    intro hnone
    rw [hnone, List.append_nil]
    exact h
  cases e with
  | offer a =>
      cases s with
      | generating b =>
          obtain ⟨stored, h⟩ := h
          have hwide := h.widen (List.prefix_append shown [a])
          exact hwide.add (List.prefix_refl _) hcodec hr
      | _ => exact hnothing rfl
  | close =>
      cases s with
      | generating b =>
          obtain ⟨stored, h⟩ := hnothing rfl
          rw [Party.run]
          cases hc : b.close w with
          | mk r w' =>
              cases r with
              | error e => trivial
              | ok runs =>
                  obtain ⟨lists, hholds, hperm, -⟩ := h.close hcodec hc
                  exact ⟨congrArg Codec.decode h.inFiles.codec_eq, lists, hholds, hperm⟩
      | _ => exact hnothing rfl
  | merge settings =>
      cases s with
      | holding o decode runs =>
          obtain ⟨rfl, lists, hholds, hperm⟩ := hnothing rfl
          have hof : Merge.OfRuns runs codec.decode
              ((Merge.ofRuns o codec.decode runs).withSettings settings) :=
            .unopened rfl rfl rfl rfl
          exact ⟨hof, fun _ => ⟨lists, hholds, hperm,
            fun ss hruns => gives_of_ofRuns hof hw ho hholds hruns⟩⟩
      | _ => exact hnothing rfl
  | command c =>
      cases s with
      | merging runs m => exact HoldsOffered.command hw hhas hs hr ho rfl (hnothing rfl) c
      | _ => exact hnothing rfl
  | drop =>
      cases s with
      | gone => trivial
      | _ => trivial

end Ran

end Party

end ExternalSort
