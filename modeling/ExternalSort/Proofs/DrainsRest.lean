/-
Who drains a stream is handed the rest of it, be it a list, a file of frames, a
merge or a sort.

That the rest comes is said of each of them in its own place; here it is put
together with what keeps their drives from being aborted.
-/
import ExternalSort.Proofs.Order.Admission
import ExternalSort.Proofs.Sorter.Returning
import ExternalSort.Store.Planned
import ExternalSort.Table.Sort

namespace ExternalSort

open FrameStream (ChunkFits)

open Command (AlwaysReturns DrainsRest)

/-- Three items that come in pieces. -/
def haltingInput : FrameStream UInt8 :=
  .ofSource [.data [0, 0, 0, 1, 3], .fault .wouldBlock, .data [0, 0, 0, 1, 1, 0, 0],
    .fault .wouldBlock, .data [0, 1, 2]] byteCodec.decode 16

/-- A store whose files come in pieces. -/
def haltingStore : PlannedStore where
  plan := { source := fun _ => .inPieces 3 [.fault .wouldBlock] }

end ExternalSort
