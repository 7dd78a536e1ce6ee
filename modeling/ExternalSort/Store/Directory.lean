/-
A store that is a tree of directories.

A path leads from the root through directories to a file or a directory.
It leads nowhere if something on the way is missing or is a file, or has
a name that is too long for any directory.
-/
import ExternalSort.Store.Basic

namespace ExternalSort

/-- What a path can lead to. -/
inductive Node where
  | directory
  | file (bytes : List UInt8)
deriving DecidableEq, Repr

/-- A tree of directories: everything in it but its root, by the names
that lead there from the root. -/
structure Directory where
  entries : List (List String × Node) := []
deriving DecidableEq, Repr

namespace Directory

/-! ## Faults -/

def notFound : Fault := ⟨.notFound, "No such file or directory (os error 2)"⟩

def alreadyExists : Fault := ⟨.alreadyExists, "File exists (os error 17)"⟩

def notADirectory : Fault := ⟨.notADirectory, "Not a directory (os error 20)"⟩

def isADirectory : Fault := ⟨.isADirectory, "Is a directory (os error 21)"⟩

def tooLong : Fault := ⟨.invalidFilename, "File name too long (os error 36)"⟩

def holdsNul : Fault := ⟨.invalidInput, "file name contained an unexpected NUL byte"⟩

/-! ## Limits -/

/-- How many bytes a name may have. -/
def nameLimit : Nat := 255

/-- How many bytes a path may have. -/
def pathLimit : Nat := 4095

/-- What is wrong with a path wherever it leads. -/
def pathFault? (p : Path) : Option Fault :=
  if p.text.toList.contains '\x00' then some holdsNul
  else if pathLimit < p.text.utf8ByteSize then some tooLong
  else none

/-! ## Names -/

/-- What some names lead to. -/
def node? (d : Directory) (way : List String) : Option Node :=
  if way.isEmpty then some .directory else d.entries.lookup way

def put (d : Directory) (way : List String) (n : Node) : Directory :=
  ⟨(way, n) :: d.entries.filter (·.1 != way)⟩

def erase (d : Directory) (way : List String) : Directory :=
  ⟨d.entries.filter (·.1 != way)⟩

/-- Asks a directory for the last of some names.  The limit of a name shows
here and not before, so a name that nothing asks for may have any length. -/
def look (d : Directory) (way : List String) : Except Fault (Option Node) :=
  if way.getLast?.any (nameLimit < ·.utf8ByteSize) then .error tooLong else .ok (d.node? way)

/-- One step on the way: into a directory, back out of it, or nowhere,
which takes a directory as well. -/
def step (d : Directory) (way : List String) (name : String) : Except Fault (List String) := do
  match ← d.look way with
  | none => .error notFound
  | some (.file _) => .error notADirectory
  | some .directory =>
    .ok (if name = ".." then way.dropLast else if name = "." then way else way ++ [name])

/-- Where the names of a path lead, if all but the last one are
directories. -/
def follow (d : Directory) (p : Path) : Except Fault (List String) :=
  match pathFault? p with
  | some f => .error f
  | none => p.names.foldlM d.step []

/-- Where a path leads.  One that ends open has to lead to a directory. -/
def locate (d : Directory) (p : Path) : Except Fault (List String) := do
  let way ← d.follow p
  if p.endsOpen then d.step way "." else .ok way

/-- What a path leads to, and where that is. -/
def find (d : Directory) (p : Path) : Except Fault (List String × Option Node) := do
  let way ← d.locate p
  return (way, ← d.look way)

/-! ## Files -/

/-- A name that is left open is none of a file.  Dots lead to a directory
that is there, open or not. -/
def create (d : Directory) (p : Path) : Except Fault Sink × Directory :=
  match d.follow p with
  | .error f => (.error f, d)
  | .ok way =>
    if p.endsOpen && p.names.getLast?.any (fun n => n != "." && n != "..") then
      (.error isADirectory, d)
    else match d.look way with
    | .error f => (.error f, d)
    | .ok (some _) => (.error alreadyExists, d)
    | .ok none => (.ok {}, d.put way (.file []))

/-- Gives a file its content. -/
def keep (d : Directory) (p : Path) (s : Sink) : Directory :=
  match d.locate p with
  | .error _ => d
  | .ok way => d.put way (.file s.bytes)

/-- A directory can be opened as well, but it cannot be read. -/
def openFile (d : Directory) (p : Path) : Except Fault Source × Directory :=
  match d.find p with
  | .error f => (.error f, d)
  | .ok (_, none) => (.error notFound, d)
  | .ok (_, some .directory) => (.ok [.fault isADirectory], d)
  | .ok (_, some (.file bs)) => (.ok (Source.ofBytes bs), d)

def remove (d : Directory) (p : Path) : Except Fault Unit × Directory :=
  match d.find p with
  | .error f => (.error f, d)
  | .ok (_, none) => (.error notFound, d)
  | .ok (_, some .directory) => (.error isADirectory, d)
  | .ok (way, some (.file _)) => (.ok (), d.erase way)

/-! ## Directories -/

/-- Goes the rest of a way and makes the directories that are missing.
What is made is never in the place of a file.  A name that only dots follow
has to be there already. -/
def makeWay (d : Directory) (way : List String) : List String → Except Fault Unit × Directory
  | [] => (.ok (), d)
  | name :: names =>
    match d.step way name with
    | .error f => (.error f, d)
    | .ok next =>
      if !names.isEmpty && names.all (· == ".") then d.makeWay next names
      else match d.look next with
      | .error f => (.error f, d)
      | .ok none => (d.put next .directory).makeWay next names
      | .ok (some .directory) => d.makeWay next names
      | .ok (some (.file _)) => (.error alreadyExists, d)

/-- Makes the directories on the way to a path.  A way that is blocked from
the start is left as it is; one that has a gap is made up to the block. -/
def ensureDirectory (d : Directory) (p : Path) : Except Fault Unit × Directory :=
  match d.follow p with
  | .ok _ => d.makeWay [] p.names
  | .error f => if f = notFound then d.makeWay [] p.names else (.error f, d)

instance : SpillStore Directory where
  create := create
  keep := keep
  openFile := openFile
  remove := remove
  ensureDirectory := ensureDirectory

/-- The path of every file and directory, from the root on. -/
def paths (d : Directory) : List String := d.entries.map fun e => "/".intercalate e.1

end Directory

end ExternalSort
