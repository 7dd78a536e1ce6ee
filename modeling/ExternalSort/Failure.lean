/-
The errors that end a stream.

An error may have a cause, which is a text, a failed comparison or another
error of a stream.  The chain of causes is part of what is reported.
-/
import ExternalSort.Fault
import ExternalSort.Order.Basic

namespace ExternalSort

mutual

/-- Why a stream failed. -/
inductive Failure where
  /-- Reading, writing or the spill store failed. -/
  | io (fault : Fault)
  /-- An item could not be turned into bytes. -/
  | encoding (cause : Cause)
  /-- Bytes could not be turned into an item. -/
  | decoding (cause : Cause)
  /-- Items did not compare, or one was refused. -/
  | comparison (cause : Cause)
  /-- The bytes end inside a frame. -/
  | truncatedFrame (expected actual : Nat)
  /-- A frame is longer than frames may be. -/
  | frameTooLarge (length : Nat)
  /-- The input of a sort failed. -/
  | input (cause : Cause)
deriving DecidableEq, Repr

/-- The cause of an error. -/
inductive Cause where
  | text (text : String)
  | compare (error : OrderError)
  | stream (error : Failure)
deriving DecidableEq, Repr

end

mutual

/-- The text of an error. -/
def Failure.message : Failure → String
  | .io _ => "io error"
  | .encoding _ => "serialization failed"
  | .decoding _ => "deserialization failed"
  | .comparison _ => "comparison failed"
  | .truncatedFrame expected actual =>
    s!"truncated frame: expected {expected} bytes, found {actual}"
  | .frameTooLarge length => s!"frame too large: {length} bytes"
  | .input _ => "input stream failed"

/-- The texts of the causes of an error, the nearest one first. -/
def Failure.causes : Failure → List String
  | .io f => [f.text]
  | .encoding c => c.texts
  | .decoding c => c.texts
  | .comparison c => c.texts
  | .truncatedFrame .. => []
  | .frameTooLarge _ => []
  | .input c => c.texts

/-- The text of a cause, and those of its own causes. -/
def Cause.texts : Cause → List String
  | .text t => [t]
  | .compare e => [e.message]
  | .stream e => e.message :: e.causes

end

namespace Failure

/-- A failed comparison, as the error of a stream. -/
def ofCompare (e : OrderError) : Failure := .comparison (.compare e)

/-- The error of an input, as the error of the sort that reads it. -/
def ofInput (e : Failure) : Failure := .input (.stream e)

end Failure

end ExternalSort
