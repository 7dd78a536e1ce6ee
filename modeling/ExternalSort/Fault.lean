/-
Faults of the outside world: what reading, writing and the spill store
report when they fail.
-/
namespace ExternalSort

/-- The class of a fault. -/
inductive FaultKind where
  | notFound
  | permissionDenied
  | alreadyExists
  | wouldBlock
  | invalidData
  | unexpectedEof
  | connectionReset
  | brokenPipe
  | timedOut
  | notADirectory
  | isADirectory
  | invalidInput
  | invalidFilename
  | writeZero
  | other
deriving DecidableEq, Repr

namespace FaultKind

/-- Every class. -/
def all : List FaultKind :=
  [notFound, permissionDenied, alreadyExists, wouldBlock, invalidData, unexpectedEof,
    connectionReset, brokenPipe, timedOut, notADirectory, isADirectory, invalidInput,
    invalidFilename, writeZero, other]

def name : FaultKind → String
  | notFound => "NotFound"
  | permissionDenied => "PermissionDenied"
  | alreadyExists => "AlreadyExists"
  | wouldBlock => "WouldBlock"
  | invalidData => "InvalidData"
  | unexpectedEof => "UnexpectedEof"
  | connectionReset => "ConnectionReset"
  | brokenPipe => "BrokenPipe"
  | timedOut => "TimedOut"
  | notADirectory => "NotADirectory"
  | isADirectory => "IsADirectory"
  | invalidInput => "InvalidInput"
  | invalidFilename => "InvalidFilename"
  | writeZero => "WriteZero"
  | other => "Other"

/-- The class of a name. -/
def ofName? (s : String) : Option FaultKind := all.find? (·.name == s)

end FaultKind

/-- A failed input or output operation: its class and its text. -/
structure Fault where
  kind : FaultKind
  text : String
deriving DecidableEq, Repr

namespace Fault

/-- The source has nothing to give right now and may have later. -/
def wouldBlock : Fault := ⟨.wouldBlock, "operation would block"⟩

/-- A text that was read is not UTF-8. -/
def notText : Fault := ⟨.invalidData, "stream did not contain valid UTF-8"⟩

end Fault

end ExternalSort
