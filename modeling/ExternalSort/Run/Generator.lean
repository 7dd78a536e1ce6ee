/-
Generating runs.

Items are held in memory until their estimated sizes reach the threshold;
then they are sorted and spilled into a new file.  A spill that fails
leaves the items in memory and no file behind.  At the end there is either
one run in memory, if nothing was ever spilled, or one run for each file.

The files belong to the generator until it hands the runs over.  A generator
that is given up before that removes them.
-/
import ExternalSort.Order.Sorting
import ExternalSort.Run.Basic
import ExternalSort.Settings
import ExternalSort.Store.Basic
import ExternalSort.Text.Quoted

namespace ExternalSort

/-- A generator of runs of items ordered by `O`. -/
structure RunGenerator (O α : Type) where
  settings : Settings
  codec : Codec α
  order : O
  /-- The tag in the names of its files. -/
  tag : UInt32
  /-- Items held in memory. -/
  buffer : Array α := #[]
  /-- Their estimated size. -/
  heldSize : Nat := 0
  /-- Files written, in order. -/
  files : List SpillFile := []
  nextSeq : Nat := 1
  /-- Items taken in so far. -/
  added : Nat := 0

namespace RunGenerator

variable {O α W : Type} [ItemOrder O α] [SpillStore W]

/-- How many names are tried before a spill gives up. -/
def nameAttempts : Nat := 64

/-- Every name tried for a file is taken. -/
def noFreeName (s : Settings) : Fault :=
  ⟨.alreadyExists,
    s!"no free spill file name in {s.directory.text} after {nameAttempts} attempts"⟩

/-- Creates the first file from number `seq` on whose name is free, after
at most so many attempts.  The result also tells the next number. -/
def createFile (s : Settings) (tag : UInt32) (seq : Nat) (w : W) :
    Nat → Except Fault (Nat × Path × Sink) × Nat × W
  | 0 => (.error (noFreeName s), seq, w)
  | attempts + 1 =>
    let path := s.spillPath tag seq
    match SpillStore.create w path with
    | (.ok sink, w) => (.ok (seq, path, sink), seq + 1, w)
    | (.error f, w) =>
      if f.kind = .alreadyExists then createFile s tag (seq + 1) w attempts
      else (.error f, seq + 1, w)

/-- Writes the items in memory into a file that was created for them. -/
def writeFile (b : RunGenerator O α) (w : W) (seq : Nat) (path : Path) (sink : Sink) :
    Except Failure Unit × RunGenerator O α × W :=
  let (r, sink) := Run.write b.codec sink b.buffer.toList
  let w := SpillStore.keep w path sink
  match r with
  | .error e => (.error e, b, (SpillStore.tryRemove w path).2)
  | .ok (items, bytes) =>
    (.ok (),
      { b with
        files := b.files ++ [⟨path, seq, items, bytes⟩]
        buffer := #[]
        heldSize := 0 },
      w)

/-- Sorts the items in memory and moves them into a new file. -/
def spill (b : RunGenerator O α) (w : W) : Except Failure Unit × RunGenerator O α × W :=
  match sortWith (ItemOrder.compare b.order) b.buffer.toList with
  | .error e => (.error (.ofCompare e), b, w)
  | .ok sorted =>
    match createFile b.settings b.tag b.nextSeq w nameAttempts with
    | (.error f, nextSeq, w) => (.error (.io f), { b with buffer := sorted.toArray, nextSeq }, w)
    | (.ok (seq, path, sink), nextSeq, w) =>
      writeFile { b with buffer := sorted.toArray, nextSeq } w seq path sink

/-- Holds an item that was accepted. -/
def hold (b : RunGenerator O α) (order : O) (a : α) : RunGenerator O α :=
  { b with
    order := order
    heldSize := satAdd b.heldSize (b.codec.size a)
    buffer := b.buffer.push a
    added := b.added + 1 }

/-- Takes an item in, and spills when the threshold is reached.  An item
that the order refuses is not taken in. -/
def add (b : RunGenerator O α) (w : W) (a : α) : Except Failure Unit × RunGenerator O α × W :=
  match ItemOrder.accept b.order a with
  | .error e => (.error (.ofCompare e), b, w)
  | .ok order =>
    let b := b.hold order a
    if b.settings.threshold ≤ b.heldSize then b.spill w else (.ok (), b, w)

/-- Takes items in, up to the first one that fails. -/
def addAll (b : RunGenerator O α) (w : W) : List α → Except Failure Unit × RunGenerator O α × W
  | [] => (.ok (), b, w)
  | a :: rest =>
    match b.add w a with
    | (.error e, b, w) => (.error e, b, w)
    | (.ok (), b, w) => addAll b w rest

/-- Gives the generator up and removes its files. -/
def discard (b : RunGenerator O α) (w : W) : W :=
  SpillStore.removeAll w (b.files.map SpillFile.path)

/-- The files of the generator as runs. -/
def fileRuns (b : RunGenerator O α) : List (Run α) := b.files.map .file

/-- Ends the generation and hands the runs over.  If that fails the generator
is given up. -/
def close (b : RunGenerator O α) (w : W) : Except Failure (List (Run α)) × W :=
  if b.files.isEmpty then
    match sortWith (ItemOrder.compare b.order) b.buffer.toList with
    | .error e => (.error (.ofCompare e), b.discard w)
    | .ok sorted => (.ok [.memory sorted], w)
  else if b.buffer.isEmpty then (.ok b.fileRuns, w)
  else
    match b.spill w with
    | (.error e, b, w) => (.error e, b.discard w)
    | (.ok (), b, w) => (.ok b.fileRuns, w)

/-! ## Sorts that are aborted -/

/-- Whether the items in memory can be sorted. -/
def sortReturns (b : RunGenerator O α) : Bool :=
  !(sortBy (ItemOrder.compare b.order) b.buffer.toList).isAborted

/-- Whether taking an item in comes back. -/
def addReturns (b : RunGenerator O α) (a : α) : Bool :=
  match ItemOrder.accept b.order a with
  | .error _ => true
  | .ok order =>
    let b := b.hold order a
    if b.settings.threshold ≤ b.heldSize then b.sortReturns else true

/-- Whether taking items in comes back. -/
def addAllReturns (b : RunGenerator O α) (w : W) : List α → Bool
  | [] => true
  | a :: rest =>
    b.addReturns a &&
      match b.add w a with
      | (.error _, _, _) => true
      | (.ok (), b, w) => addAllReturns b w rest

/-- Whether ending the generation comes back. -/
def closeReturns (b : RunGenerator O α) : Bool :=
  if !b.files.isEmpty && b.buffer.isEmpty then true else b.sortReturns

/-- A description of the generator for people. -/
def describe (b : RunGenerator O α) : String :=
  "RunBuilder \x7b temp_dir: " ++ Text.quoted b.settings.directory.text ++
  s!", spill_threshold: {b.settings.threshold}" ++
  s!", buffered_len: {b.buffer.size}" ++
  s!", buffered_bytes: {b.heldSize}" ++
  ", tag: " ++ Text.padded 16 8 b.tag.toNat ++
  s!", spilled: {b.files.length}" ++
  s!", offered: {b.added} \x7d"

end RunGenerator

end ExternalSort
