/-
Sorting a list by an order that may fail.

This is the unstable sort of the standard library, as it treats items that
take between 17 and 85 bytes and are moved, not copied.  At most twenty items
are sorted by insertion.  Of more, a run is left as it is, or turned round;
anything else is split around pivots into parts of at most 32 items.  Those
are sorted in two halves, and the halves are merged from both ends at once.
If the comparisons contradict each other, the two ends may fail to meet; then
the sort is aborted, and the program with it.

A list that was split badly too often falls to heap sort there and to
insertion here.
-/
import ExternalSort.Order.Basic
import ExternalSort.Order.Comparing

namespace ExternalSort

variable {α ε : Type}

namespace Comparing

/-! ## Insertion -/

/-- Puts an item into a sorted list whose last item stands first. -/
def insertTail (x : α) : List α → Comparing α (List α)
  | [] => return [x]
  | y :: ys => do
    if ← less x y then return y :: (← insertTail x ys) else return x :: y :: ys

/-- Puts items one after the other into a sorted list whose last item stands
first. -/
def insertAll (sorted : List α) : List α → Comparing α (List α)
  | [] => return sorted
  | x :: xs => do insertAll (← insertTail x sorted) xs

def insertionSort (items : List α) : Comparing α (List α) :=
  return (← insertAll [] items).reverse

/-! ## Runs -/

/-- Whether items go on as a run behind `last`: all the way down, or never
down. -/
def isRun (falling : Bool) (last : α) : List α → Comparing α Bool
  | [] => return true
  | x :: xs => do if (← less x last) == falling then isRun falling x xs else return false

/-! ## Short lists -/

/-- Merges two pairs, each in order: the least item is the first of one, the
greatest the second of one, and the two in between are compared. -/
def mergePairs (a b c d : α) : Comparing α (List α) := do
  let left ← less c a
  let right ← less d b
  let least := if left then c else a
  let greatest := if right then b else d
  let earlier := if left then a else if right then c else b
  let later := if right then d else if left then b else c
  if ← less later earlier then return [least, later, earlier, greatest]
  else return [least, earlier, later, greatest]

/-- Sorts four items by five comparisons. -/
def sortFour (a b c d : α) : Comparing α (List α) := do
  let left ← less b a
  let right ← less d c
  mergePairs (if left then b else a) (if left then a else b) (if right then d else c)
    (if right then c else d)

/-- Sorts the first four items of a list, or takes just the first one.  The
last item of the sorted ones stands first. -/
def sortFirst (four : Bool) : List α → Comparing α (List α × List α)
  | [] => return ([], [])
  | a :: rest =>
    match four, rest with
    | true, b :: c :: d :: rest => return ((← sortFour a b c d).reverse, rest)
    | _, rest => return ([a], rest)

/-- Two sorted lists that are merged from both ends. -/
structure Ends (α : Type) where
  /-- Merged at the front, the last item first. -/
  front : List α := []
  /-- What the front has not taken of the two lists. -/
  left : List α
  right : List α
  /-- What the back has not taken of them, the last items first. -/
  leftBack : List α
  rightBack : List α
  /-- Merged at the back. -/
  back : List α := []

namespace Ends

/-- Merges one item at the front: of equal ones that of the left list. -/
def stepFront (e : Ends α) : Comparing α (Ends α) :=
  match e.left, e.right with
  | x :: xs, y :: ys => do
    if ← less y x then return { e with front := y :: e.front, right := ys }
    else return { e with front := x :: e.front, left := xs }
  | _, _ => aborted

/-- Merges one item at the back: of equal ones that of the right list. -/
def stepBack (e : Ends α) : Comparing α (Ends α) :=
  match e.leftBack, e.rightBack with
  | x :: xs, y :: ys => do
    if ← less y x then return { e with back := x :: e.back, leftBack := xs }
    else return { e with back := y :: e.back, rightBack := ys }
  | _, _ => aborted

def steps : Nat → Ends α → Comparing α (Ends α)
  | 0, e => return e
  | n + 1, e => do steps n (← (← e.stepFront).stepBack)

/-- Takes the item between the front and the back, if there is one. -/
def middle (e : Ends α) (left right : List α) : Ends α :=
  if left.length = right.length then e
  else if left.length < e.left.length + e.leftBack.length then
    { e with front := e.left.take 1 ++ e.front, left := e.left.drop 1 }
  else { e with front := e.right.take 1 ++ e.front, right := e.right.drop 1 }

/-- Whether the front and the back have met, in both lists. -/
def meet (e : Ends α) (left right : List α) : Bool :=
  e.left.length + e.leftBack.length == left.length &&
    e.right.length + e.rightBack.length == right.length

end Ends

/-- Merges two sorted lists from both ends.  The right one is as long as the
left one, or longer by one item. -/
def mergeEnds (left right : List α) : Comparing α (List α) := do
  let e ← Ends.steps left.length
    { left, right, leftBack := left.reverse, rightBack := right.reverse }
  let e := e.middle left right
  if e.meet left right then return e.front.reverse ++ e.back else aborted

/-- Sorts a short list by halves. -/
def smallSort (items : List α) : Comparing α (List α) :=
  if items.length < 2 then return items
  else do
    let half := items.length / 2
    let (left, restLeft) ← sortFirst (8 ≤ items.length) (items.take half)
    let (right, restRight) ← sortFirst (8 ≤ items.length) (items.drop half)
    let left ← insertAll left restLeft
    let right ← insertAll right restRight
    mergeEnds left.reverse right.reverse

/-! ## Long lists -/

/-- The item at a place, which is there. -/
def itemAt (items : Array α) (i : Nat) : Comparing α α := (items[i]?).elim aborted done

/-- The place of the item that is neither the least nor the greatest of three. -/
def medianOfThree (items : Array α) (i j k : Nat) : Comparing α Nat := do
  let a ← itemAt items i
  let b ← itemAt items j
  let c ← itemAt items k
  let below ← less a b
  if below == (← less a c) then return if (← less b c) == below then j else k
  else return i

/-- The place of about the median of three stretches of `n` items each, from
places `i`, `j` and `k` on. -/
def medianPlace (items : Array α) (n i j k : Nat) : Comparing α Nat :=
  if 8 ≤ n then do
    let m := n / 8
    let i ← medianPlace items m i (i + m * 4) (i + m * 7)
    let j ← medianPlace items m j (j + m * 4) (j + m * 7)
    let k ← medianPlace items m k (k + m * 4) (k + m * 7)
    medianOfThree items i j k
  else medianOfThree items i j k
termination_by n

/-- Chooses a pivot.  The first item takes its place. -/
def takePivot (items : List α) : Comparing α (α × List α) := do
  let n := items.length / 8
  let place ← medianPlace items.toArray n 0 (n * 4) (n * 7)
  match items.take place, items.drop place with
  | [], pivot :: after => return (pivot, after)
  | first :: before, pivot :: after => return (pivot, before ++ first :: after)
  | _, [] => aborted

/-- Puts the items of a list into their order of old behind the first one. -/
def firstApart : List α → List α
  | [] => []
  | x :: xs => x :: xs.reverse

/-- Moves the first item of a list to its end. -/
def turned : List α → List α
  | [] => []
  | x :: xs => xs ++ [x]

/-- Parts items by a test.  Those that pass it come with the last one first;
those that do not are turned round once for each item. -/
def part (test : α → Comparing α Bool) (passed failed : List α) :
    List α → Comparing α (List α × List α)
  | [] => return (passed, failed)
  | x :: xs => do
    if ← test x then part test (x :: passed) (turned failed) xs
    else part test passed (x :: turned failed) xs

/-- Sorts a list by splitting it around pivots.  No item is less than
`bound`, which was a pivot before; where the new pivot is not greater either,
the items that equal it are split off. -/
def quicksort : Nat → Option α → List α → Comparing α (List α)
  | limit, bound, items =>
    if items.length ≤ 32 then smallSort items
    else
      match limit with
      | 0 => insertionSort items
      | limit + 1 => do
        let (pivot, others) ← takePivot items
        let above ← bound.elim (return true) (less · pivot)
        if above then
          let (below, rest) ← part (less · pivot) [] [] (turned others)
          let sorted ← quicksort limit bound (firstApart below)
          return sorted ++ pivot :: (← quicksort limit (some pivot) rest)
        else
          let (equal, rest) ← part (fun x => return !(← less pivot x)) [] [] (turned others)
          return firstApart equal ++ pivot :: (← quicksort limit none rest)

/-- Sorts a list. -/
def sorting (items : List α) : Comparing α (List α) :=
  match items with
  | a :: b :: rest =>
    if items.length ≤ 20 then insertionSort items
    else do
      let falling ← less b a
      if ← isRun falling b rest then return if falling then items.reverse else items
      else quicksort (2 * (items.length ||| 1).log2) none items
  | _ => return items

end Comparing

/-- How sorting a list by a comparison goes. -/
def sortBy (cmp : α → α → Except ε Ordering) (items : List α) : Compared ε (List α) :=
  ((Comparing.sorting items.attach).perform (fun a b => cmp a.1 b.1) none).map
    (·.map Subtype.val)

/-- Sorts a list by a comparison that may fail.  Where the sort is aborted, so
is the program, and what follows is nobody's behaviour; the items are left as
they were. -/
def sortWith (cmp : α → α → Except ε Ordering) (items : List α) : Except ε (List α) :=
  match sortBy cmp items with
  | .done sorted => .ok sorted
  | .failed e => .error e
  | .aborted => .ok items

end ExternalSort
