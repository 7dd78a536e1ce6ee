/-
Every stream ends once.

Each stream turns out to be lawful: whatever is done with it is a move of
its supply, and it works on nothing when its supply is not open.  Then it
ends once, by what holds of any lawful stream.
-/
import ExternalSort.Proofs.Frame.Course
import ExternalSort.Proofs.Sorter.Actions
import ExternalSort.Proofs.Table.Rows
import ExternalSort.Store.Planned

namespace ExternalSort

/-- For each kind of stream, whatever is done with it and in whichever order:
at most one ending is heard, by whomever, and no item after it; an ending
raised while nobody was subscribed is heard by the next who subscribes; and
from the ending on, or from closing, the stream hands nothing over and works
on nothing, neither in the drive in which it ended nor later. -/
theorem streams_end_once :
    (∀ α : Type,
      Turn.StopsWhenOver ListStream.turn (ListStream.supply (α := α)) ∧
      ∀ items : List α, (Command.conduct ListStream.items).EndsOnce (.ofList items)) ∧
    (∀ α : Type,
      Turn.StopsWhenOver FrameStream.turn (FrameStream.supply (α := α)) ∧
      ∀ (source : Source) (decode : List UInt8 → Except Cause α) (chunk : Nat),
        (Command.conduct FrameStream.work).EndsOnce (.ofSource source decode chunk)) ∧
    (Turn.StopsWhenOver Table.RowStream.turn Table.RowStream.supply ∧
      ∀ (source : Source) (columns : List String),
        (Command.conduct Table.RowStream.work).EndsOnce { source, columns }) ∧
    (∀ (O α W : Type) [ItemOrder O α] [SpillStore W],
      Turn.StopsWhenOver Merge.turn (fun s : Merge O α × W => s.1.supply) ∧
      ∀ (order : O) (decode : List UInt8 → Except Cause α) (runs : List (Run α))
        (ahead chunk : Nat) (w : W),
        (Command.conduct Merge.work).EndsOnce
          (((Merge.ofRuns order decode runs).withAhead ahead).withChunk chunk, w)) ∧
    ∀ (S O α W : Type) [FiniteProducer S α] [ItemOrder O α] [SpillStore W],
      Turn.StopsWhenOver Sorter.turn (fun t : Sorter S O α × W => t.1.supply) ∧
      ∀ (w w' : W) (settings : Settings) (codec : Codec α) (order : O) (tag : UInt32) (input : S)
        (s : Sorter S O α), Sorter.start w settings codec order tag input = (.ok s, w') →
        (Sorter.conduct Sorter.work).EndsOnce (s, w') := by
  refine ⟨?_, ?_, ?_, ?_, ?_⟩
  · intro α
    exact ⟨ListStream.turn_again, fun items => ListStream.lawful.endsOnce trivial⟩
  · intro α
    exact ⟨FrameStream.turn_again, fun source decode chunk => FrameStream.lawful.endsOnce trivial⟩
  · exact ⟨Table.RowStream.turn_again, fun source columns =>
      Table.RowStream.lawful.endsOnce trivial⟩
  · intro O α W _ _
    refine ⟨Merge.turn_again, ?_⟩
    intro order decode runs ahead chunk w
    exact Merge.lawful.endsOnce (Merge.inStep_of_open rfl rfl)
  · intro S O α W _ _ _
    refine ⟨Sorter.turn_again, ?_⟩
    intro w w' settings codec order tag input s hs
    exact Sorter.lawful.endsOnce (Sorter.start_inStep hs)

/-- Bytes, each stored as it is. -/
def byteCodec : Codec UInt8 where
  encode b := .ok [b]
  decode bs := bs.head?.elim (.error (.text "no byte")) .ok
  size _ := 1

theorem sort_of_list_ends_once :
    ∃ (s : Sorter (ListStream UInt8) (PlainOrder UInt8) UInt8) (w : PlannedStore),
      Sorter.start {} (.standard ⟨"runs"⟩) byteCodec (PlainOrder.natural UInt8) 7
        (.ofList [3, 1, 2]) = (.ok s, w) ∧ (Sorter.conduct Sorter.work).EndsOnce (s, w) := by
  refine ⟨_, _, rfl, ?_⟩
  exact (streams_end_once.2.2.2.2 _ _ _ _).2 {} _ (.standard ⟨"runs"⟩) byteCodec
    (PlainOrder.natural UInt8) 7 (.ofList [3, 1, 2]) _ rfl

end ExternalSort
