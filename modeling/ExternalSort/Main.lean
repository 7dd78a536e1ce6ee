/-
`rowsort`: sorts the table on the standard input by the columns that the
arguments name, and writes it to the standard output.
-/
import ExternalSort.Command
import ExternalSort.Store.Directory

namespace ExternalSort

/-- The variables that the settings come from. -/
def settingNames : List String :=
  ["SORT_SPILL_KB", "SORT_TEMP_DIR", "SORT_ID", "SORT_READ_AHEAD", "SORT_READ_CHUNK_KB"]

end ExternalSort

open ExternalSort in
/-- Runs the command.  Spill files live in a store of its own. -/
def main (args : List String) : IO UInt32 := do
  let input ← (← IO.getStdin).readBinToEnd
  let values ← settingNames.mapM fun name => do return (name, ← IO.getEnv name)
  let place := (← IO.getEnv "TMPDIR").getD "/tmp"
  let tag ← IO.rand 0 0xFFFFFFFF
  let (outcome, _) := Command.run (.standard ⟨place⟩) (fun name => (values.lookup name).join)
    (UInt32.ofNat tag) args (Source.ofBytes input.toList) ({} : Directory)
  (← IO.getStdout).write (ByteArray.mk outcome.output.toArray)
  (← IO.getStderr).putStr outcome.complaint
  return UInt32.ofNat outcome.code
