/-
What a source holds, whatever pieces it is read in.

`Source.content` is all bytes up to the first fault, where having nothing to
give for now is no fault; `Source.faults` counts how often reading stops.  A
read takes its bytes off the one, and off the other the fault that it met, if
it met one.  `Source.refusals` counts only how often it is not ready.
-/
import ExternalSort.Bytes.Source

namespace ExternalSort

namespace Source

/-- The bytes of a source up to its first fault, and that fault, if there
is one. -/
def content : Source → List UInt8 × Option Fault
  | [] => ([], none)
  | .data bs :: s => (bs ++ (content s).1, (content s).2)
  | .interrupt :: s => content s
  | .fault f :: s => if f.kind = .wouldBlock then content s else ([], some f)

theorem content_ofBytes (bs : List UInt8) : content (ofBytes bs) = (bs, none) := by
  simp [ofBytes, content]

theorem content_read {n : Nat} {s s' : Source} {bs : List UInt8} (h : read n s = (.ok bs, s')) :
    content s = (bs ++ (content s').1, (content s').2) := by
  fun_induction read n s with
  | case1 =>
      cases h
      rfl
  | case2 s ih => exact ih h
  | case3 f s => exact absurd h (by simp)
  | case4 s ih => exact ih h
  | case5 s b cs hd =>
      cases h
      rfl
  | case6 s b cs hd =>
      obtain ⟨h₁, rfl⟩ := Prod.mk.inj h
      cases h₁
      simp only [content, ← List.append_assoc]
      rw [List.take_append_drop]

theorem content_read_nil {n : Nat} {s s' : Source} (hn : 0 < n) (h : read n s = (.ok [], s')) :
    content s = ([], none) ∧ s' = [] := by
  fun_induction read n s with
  | case1 =>
      cases h
      exact ⟨rfl, rfl⟩
  | case2 s ih => exact ih h
  | case3 f s => exact absurd h (by simp)
  | case4 s ih => exact ih h
  | case5 s b cs hd => exact absurd h (by simp)
  | case6 s b cs hd =>
      obtain ⟨h₁, -⟩ := Prod.mk.inj h
      have := congrArg List.length (Except.ok.inj h₁)
      simp at this
      omega

theorem content_read_fault {n : Nat} {s s' : Source} {f : Fault} (h : read n s = (.error f, s')) :
    content s = if f.kind = .wouldBlock then content s' else ([], some f) := by
  fun_induction read n s with
  | case1 => exact absurd h (by simp)
  | case2 s ih => exact ih h
  | case3 g s =>
      cases h
      rfl
  | case4 s ih => exact ih h
  | case5 s b cs hd => exact absurd h (by simp)
  | case6 s b cs hd => exact absurd h (by simp)

/-- How often a source fails, or is not ready. -/
def faults (s : Source) : Nat := s.countP fun e => e matches .fault _

theorem faults_read {n : Nat} {s s' : Source} {bs : List UInt8} (h : read n s = (.ok bs, s')) :
    s'.faults = s.faults := by
  fun_induction read n s with
  | case1 =>
      cases h
      rfl
  | case2 s ih => exact ih h
  | case3 f s => exact absurd h (by simp)
  | case4 s ih => exact ih h
  | case5 s b cs hd =>
      cases h
      rfl
  | case6 s b cs hd =>
      obtain ⟨-, rfl⟩ := Prod.mk.inj h
      rfl

theorem faults_read_fault {n : Nat} {s s' : Source} {f : Fault} (h : read n s = (.error f, s')) :
    s.faults = s'.faults + 1 := by
  fun_induction read n s with
  | case1 => exact absurd h (by simp)
  | case2 s ih => exact ih h
  | case3 g s =>
      cases h
      exact List.countP_cons_of_pos rfl
  | case4 s ih => exact ih h
  | case5 s b cs hd => exact absurd h (by simp)
  | case6 s b cs hd => exact absurd h (by simp)

/-! ## Sources that are not ready -/

/-- Whether a source says that it has nothing to give right now. -/
def isRefusal : ReadEvent → Bool
  | .fault f => f.kind = .wouldBlock
  | .data _ | .interrupt => false

/-- How often a source is still to say that it has nothing to give right
now. -/
def refusals (s : Source) : Nat := s.countP isRefusal

theorem refusals_cons (e : ReadEvent) (s : Source) :
    refusals (e :: s) = refusals s + if isRefusal e then 1 else 0 := List.countP_cons ..

theorem refusals_le_faults (s : Source) : s.refusals ≤ s.faults := by
  refine List.countP_mono_left fun e _ he => ?_
  cases e with
  | fault f => rfl
  | data bs => exact absurd he (by simp [isRefusal])
  | interrupt => exact absurd he (by simp [isRefusal])

theorem refusals_read {n : Nat} {s s' : Source} {bs : List UInt8} (h : read n s = (.ok bs, s')) :
    s'.refusals = s.refusals := by
  fun_induction read n s with
  | case1 =>
      cases h
      rfl
  | case2 s ih => exact ih h
  | case3 f s => exact absurd h (by simp)
  | case4 s ih => exact ih h
  | case5 s b cs hd =>
      cases h
      rfl
  | case6 s b cs hd =>
      obtain ⟨-, rfl⟩ := Prod.mk.inj h
      rfl

theorem refusals_read_fault {n : Nat} {s s' : Source} {f : Fault}
    (h : read n s = (.error f, s')) :
    s.refusals = s'.refusals + if f.kind = .wouldBlock then 1 else 0 := by
  fun_induction read n s with
  | case1 => exact absurd h (by simp)
  | case2 s ih => exact ih h
  | case3 g s =>
      cases h
      simp [refusals_cons, isRefusal]
  | case4 s ih => exact ih h
  | case5 s b cs hd => exact absurd h (by simp)
  | case6 s b cs hd => exact absurd h (by simp)

end Source

end ExternalSort
