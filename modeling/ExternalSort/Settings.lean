/-
The settings of a sort.

They say how much may be held in memory before a run is spilled, where
spill files go and how they are named, and how merging reads them.
-/
import ExternalSort.Fault
import ExternalSort.Path
import ExternalSort.Text.Blank
import ExternalSort.Text.Number

namespace ExternalSort

/-- The settings of a sort. -/
structure Settings where
  /-- Estimated bytes held in memory before they are spilled. -/
  threshold : Nat
  /-- Items that each intake of a merge holds. -/
  ahead : Nat
  /-- Bytes asked of a spill file at a time. -/
  chunk : Nat
  /-- Where spill files go. -/
  directory : Path
  /-- The name of the sort, with which its spill files begin. -/
  id : String
deriving DecidableEq, Repr

/-- What is wrong with settings. -/
inductive SettingsError where
  | zeroThreshold
  | zeroAhead
  | zeroChunk
  | emptyId
  /-- The directory of the spill files cannot be made. -/
  | directory (path : Path) (fault : Fault)
deriving DecidableEq, Repr

namespace SettingsError

def message : SettingsError → String
  | zeroThreshold => "spill threshold must be greater than zero"
  | zeroAhead => "read-ahead must be at least one item"
  | zeroChunk => "read chunk size must be greater than zero"
  | emptyId => "operation id must not be empty"
  | directory p _ => s!"cannot prepare temp dir {p.text}"

def causes : SettingsError → List String
  | directory _ f => [f.text]
  | zeroThreshold | zeroAhead | zeroChunk | emptyId => []

end SettingsError

namespace Settings

/-- The settings of a sort of which nothing but the directory is said. -/
def standard (directory : Path) : Settings where
  threshold := 4 * 1024 * 1024
  ahead := 10
  chunk := 8 * 1024
  directory := directory
  id := "sort"

/-- Whether two settings agree.  It does not matter how the directory is
written. -/
def sameAs (s t : Settings) : Bool :=
  s.directory.sameAs t.directory && { s with directory := t.directory } == t

/-- A word-sized count in a variable, if it is set and is one. -/
def countVariable (lookup : String → Option String) (name : String) : Option Nat :=
  (lookup name).bind fun s => Text.count? (Text.trim s.toList)

/-- A text in a variable, if it is set and not empty. -/
def textVariable (lookup : String → Option String) (name : String) : Option String :=
  (lookup name).filter (!·.isEmpty)

/-- The settings that some variables give.  A variable that is not set or
makes no sense leaves its setting as it was. -/
def ofLookup (base : Settings) (lookup : String → Option String) : Settings where
  threshold := ((countVariable lookup "SORT_SPILL_KB").map (satMul · 1024)).getD base.threshold
  ahead := (countVariable lookup "SORT_READ_AHEAD").getD base.ahead
  chunk :=
    ((countVariable lookup "SORT_READ_CHUNK_KB").map (satMul · 1024)).getD base.chunk
  directory := ((textVariable lookup "SORT_TEMP_DIR").map Path.mk).getD base.directory
  id := (textVariable lookup "SORT_ID").getD base.id

/-- Whether a sort can work with the settings; the first thing wrong with
them counts. -/
def check (s : Settings) : Except SettingsError Unit :=
  if s.threshold = 0 then .error .zeroThreshold
  else if s.ahead = 0 then .error .zeroAhead
  else if s.chunk = 0 then .error .zeroChunk
  else if s.id.toList.all Text.isBlank then .error .emptyId
  else .ok ()

/-! ## Names of spill files -/

/-- Whether a character may not stand in the name of a spill file. -/
def isUnsafe (c : Char) : Bool := Text.isControl c || Text.isPunctuation c || Text.isBlank c

/-- A text with one underscore for each run of unsafe characters; `inRun`
tells that such a run stands right before it. -/
def safeChars (inRun : Bool) : List Char → List Char
  | [] => []
  | c :: cs =>
    if isUnsafe c then if inRun then safeChars true cs else '_' :: safeChars true cs
    else c :: safeChars false cs

/-- The name of the sort as it stands in the names of its files. -/
def fileStem (s : Settings) : String := String.ofList (safeChars false s.id.toList)

/-- The name of a spill file: the sort, the tag of its writer in eight
hexadecimal digits, and its number in at least six decimal ones. -/
def spillName (s : Settings) (tag : UInt32) (seq : Nat) : String :=
  s.fileStem ++ "-" ++ Text.padded 16 8 tag.toNat ++ "-" ++ Text.padded 10 6 seq ++ ".sort"

/-- The path of a spill file. -/
def spillPath (s : Settings) (tag : UInt32) (seq : Nat) : Path :=
  s.directory.join (s.spillName tag seq)

end Settings

end ExternalSort
