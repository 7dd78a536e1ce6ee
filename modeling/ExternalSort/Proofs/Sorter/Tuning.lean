/-
What the settings of a sort can be told by.

Where nothing ever makes a sort wait, what a call hands over is settled by the
items that are left and by what is asked for (`Supply.serve`): two sorts of the
same items under different settings hand over the same in each call.  They can
differ in when they end: a list ends with its last item, a file when something
more is asked of it.
-/
import ExternalSort.Proofs.Sorter.Returning
import ExternalSort.Proofs.Sorter.Serving
import Mathlib.Data.List.Sort

namespace ExternalSort

/-- The same was heard, or in one of two places also the end. -/
def Event.AlikeUpToEnd {α : Type} (es fs : List (Event α)) : Prop :=
  es = fs ∨ es = fs ++ [.ending .ended] ∨ fs = es ++ [.ending .ended]

theorem sorted_unique {O α : Type} [ItemOrder O α] {order : O} {rank : α → α → Ordering}
    {items as bs : List α} (horder : ItemOrder.Fits order rank items)
    (hlinear : ∀ a ∈ items, ∀ b ∈ items, rank a b = .eq → a = b) (ha : as.Perm items)
    (hb : bs.Perm items) (has : NonDecreasing rank as) (hbs : NonDecreasing rank bs) : as = bs := by
  obtain ⟨o, -, hpre⟩ := horder [] List.nil_prefix
  refine List.Perm.eq_of_pairwise ?_ has hbs (ha.trans hb.symm)
  intro a b hma hmb hab hba
  have hma : a ∈ items := ha.subset hma
  have hmb : b ∈ items := hb.subset hmb
  refine hlinear a hma b hmb ?_
  rw [hpre.swap hma hmb] at hba
  cases hr : rank a b with
  | lt => exact absurd (congrArg Ordering.swap hr) hba
  | eq => rfl
  | gt => exact absurd hr hab

/-! ## Calls -/

namespace Command

variable {S α : Type} [Producer S α]

/-- The calls by which a consumer steers a stream.  Whoever asks for more also
drives it. -/
def steers : Command α → Bool
  | .fetch _ | .pause | .resume | .drive => true
  | .subscribe _ | .request _ => false

theorem perform_of_steers {c : Command α} (h : c.steers = true) :
    (∀ s : S, perform s c = (s, [])) ∨ (∀ s : S, perform s c = (Producer.pause s, [])) ∨
      (∀ s : S, perform s c = Producer.drive s) ∨
        ∃ d, ∀ s : S, perform s c = Producer.drive (Producer.changeDemand s d) := by
  cases c with
  | subscribe k => exact absurd h (by simp [steers])
  | request n => exact absurd h (by simp [steers])
  | pause => exact .inr (.inl fun _ => rfl)
  | resume => exact .inr (.inr (.inr ⟨.unlimit, fun _ => rfl⟩))
  | drive => exact .inr (.inr (.inl fun _ => rfl))
  | fetch n =>
      simp only [perform, Producer.fetch]
      cases Demand.ofRequest n with
      | error e => exact .inl fun _ => rfl
      | ok n =>
          by_cases hn : n = 0
          · exact .inl fun s => by simp [Except.map, Except.toOption, hn]
          · refine .inr (.inr (.inr ⟨.request n, fun s => ?_⟩))
            simp [Except.map, Except.toOption, hn, Producer.request]

end Command

namespace Sorter

variable {S O α W : Type} [FiniteProducer S α] [ForetoldProducer S α] [DiligentProducer S α]
  [ItemOrder O α] [SpillStore W] {T T₁ T₂ : Task O α W} {P : W → Prop} {h : Subscriber α}

/-! ## Two sorts -/

/-- Two sorts under one schedule: they have handed over the same, and the same
is asked of them. -/
structure Alongside (T₁ T₂ : Task O α W) (P : W → Prop) (h : Subscriber α)
    (x y : (Sorter S O α × W) × List (Event α)) : Prop where
  left : Serving T₁ P h x.1 x.2
  right : Serving T₂ P h y.1 y.2
  items : Event.items x.2 = Event.items y.2
  supply : x.1.1.supply.reopened = y.1.1.supply.reopened

variable {x y : (Sorter S O α × W) × List (Event α)}

theorem Alongside.drive (hP : SpillStore.Prompt P) (hsorted : T₁.sorted = T₂.sorted)
    (k : Alongside T₁ T₂ P h x y) :
    Alongside T₁ T₂ P h
        ((Producer.drive x.1).1, x.2 ++ (Producer.drive x.1).2)
        ((Producer.drive y.1).1, y.2 ++ (Producer.drive y.1).2) ∧
      (Producer.drive x.1).1.1.supply.canSend = false ∧
        (Producer.drive y.1).1.1.supply.canSend = false := by
  obtain ⟨hl, hlstops, hlserves⟩ := k.left.drive hP
  obtain ⟨hr, hrstops, hrserves⟩ := k.right.drive hP
  obtain ⟨rest, hrest⟩ := k.left.sorts.spec.1
  have hx := hlserves rest hrest
  have hy := hrserves rest (by rw [← k.items, hrest, hsorted])
  rw [k.supply] at hx
  obtain ⟨hitems, hsupply⟩ := Prod.mk.inj (hx.symm.trans hy)
  refine ⟨⟨hl, hr, ?_, hsupply⟩, hlstops, hrstops⟩
  rw [Event.items_append, Event.items_append, k.items, hitems]

theorem Alongside.changeDemand (k : Alongside T₁ T₂ P h x y) (d : Demand.Change) :
    Alongside T₁ T₂ P h (Producer.changeDemand x.1 d, x.2) (Producer.changeDemand y.1 d, y.2) := by
  obtain ⟨hl, hls⟩ := k.left.changeDemand d
  obtain ⟨hr, hrs⟩ := k.right.changeDemand d
  refine ⟨hl, hr, k.items, ?_⟩
  rw [hls, hrs]
  exact congrArg (fun o : Supply α => { o with demand := o.demand.change d }) k.supply

/-- Two sorts between two calls: nothing may be sent. -/
structure Resting (T₁ T₂ : Task O α W) (P : W → Prop) (h : Subscriber α)
    (x y : (Sorter S O α × W) × List (Event α)) : Prop extends Alongside T₁ T₂ P h x y where
  left_rests : x.1.1.supply.canSend = false
  right_rests : y.1.1.supply.canSend = false

theorem Resting.perform (hP : SpillStore.Prompt P) (hsorted : T₁.sorted = T₂.sorted)
    (k : Resting T₁ T₂ P h x y) {c : Command α} (hc : c.steers = true) :
    Resting T₁ T₂ P h
      ((Command.perform x.1 c).1, x.2 ++ (Command.perform x.1 c).2)
      ((Command.perform y.1 c).1, y.2 ++ (Command.perform y.1 c).2) := by
  have hdrive : ∀ {x y : (Sorter S O α × W) × List (Event α)}, Alongside T₁ T₂ P h x y →
      Resting T₁ T₂ P h
        ((Producer.drive x.1).1, x.2 ++ (Producer.drive x.1).2)
        ((Producer.drive y.1).1, y.2 ++ (Producer.drive y.1).2) := by
    intro x y k
    obtain ⟨hall, hx, hy⟩ := k.drive hP hsorted
    exact ⟨hall, hx, hy⟩
  rcases Command.perform_of_steers (S := Sorter S O α × W) hc with hp | hp | hp | ⟨d, hp⟩
  · rw [hp, hp, List.append_nil, List.append_nil]
    exact k
  · rw [hp, hp, List.append_nil, List.append_nil]
    have hno : ∀ o : Supply α, { o with demand := o.demand.change .pause }.canSend = false := by
      intro o
      simp [Supply.canSend, Demand.change, Demand.isPositive, Demand.none]
    refine ⟨k.changeDemand .pause, ?_, ?_⟩
    · exact (congrArg Supply.canSend (k.left.changeDemand .pause).2).trans (hno _)
    · exact (congrArg Supply.canSend (k.right.changeDemand .pause).2).trans (hno _)
  · rw [hp, hp]
    exact hdrive k.toAlongside
  · rw [hp, hp]
    exact hdrive (k.changeDemand d)

theorem Resting.performAll (hP : SpillStore.Prompt P) (hsorted : T₁.sorted = T₂.sorted)
    {cs : List (Command α)} (hcs : ∀ c ∈ cs, c.steers = true) (k : Resting T₁ T₂ P h x y) :
    Resting T₁ T₂ P h
      ((Command.performAll x.1 cs).1, x.2 ++ (Command.performAll x.1 cs).2)
      ((Command.performAll y.1 cs).1, y.2 ++ (Command.performAll y.1 cs).2) := by
  induction cs generalizing x y with
  | nil => simpa [Command.performAll] using k
  | cons c cs ih =>
      obtain ⟨hc, hcs⟩ := List.forall_mem_cons.mp hcs
      have hall := ih hcs (k.perform hP hsorted hc)
      simp only [List.append_assoc] at hall
      exact hall

theorem Resting.spec (k : Resting T₁ T₂ P h x y) :
    (x.1.1.supply.demand.isPositive = true → x.2 = y.2) ∧ Event.AlikeUpToEnd x.2 y.2 := by
  have hx := k.left.heard
  have hy := k.right.heard
  rw [← k.items] at hy
  refine ⟨?_, ?_⟩
  · intro hd
    have hd' : y.1.1.supply.demand.isPositive = true :=
      (congrArg (·.demand.isPositive) k.supply).symm.trans hd
    rw [k.left.over_of_rests k.left_rests hd] at hx
    rw [k.right.over_of_rests k.right_rests hd'] at hy
    exact hx.trans hy.symm
  · generalize Event.items x.2 = as at hx hy
    rw [hx, hy, Event.AlikeUpToEnd, Supply.endingEvents]
    cases x.1.1.supply.isOpen <;> cases y.1.1.supply.isOpen <;> cases h.hears .ended <;> simp

/-! ## Settings -/

end Sorter

end ExternalSort
