import ExternalSort.Main
import ExternalSort.Store.Planned
import ExternalSort.Stream.Scripted
import ExternalSort.Proofs.Stream.Course
import ExternalSort.Proofs.Bytes.Reading
import ExternalSort.Proofs.Frame.Course
import ExternalSort.Proofs.Stream.Delivery
import ExternalSort.Proofs.Merge.Greedy
import ExternalSort.Proofs.Stream.Once
import ExternalSort.Proofs.Merge.Intake
import ExternalSort.Proofs.Merge.Intakes
import ExternalSort.Proofs.Merge.Steps
import ExternalSort.Proofs.Merge.Refines
import ExternalSort.Proofs.Table.Rows
import ExternalSort.Proofs.Sorter.Actions
import ExternalSort.Proofs.EndsOnce
import ExternalSort.Proofs.Order.Sorting
import ExternalSort.Proofs.Bytes.Writing
import ExternalSort.Proofs.Frame.Writing
import ExternalSort.Proofs.Frame.Grammar
import ExternalSort.Proofs.Frame.RoundTrip
import ExternalSort.Proofs.Frame.Delivery
import ExternalSort.Proofs.Frame.Files
import ExternalSort.Proofs.Settings
import ExternalSort.Proofs.Run.Batches
import ExternalSort.Proofs.Store.Reliable
import ExternalSort.Proofs.Run.Generator
import ExternalSort.Proofs.Sorter.Sorts
import ExternalSort.Proofs.Store.Custody
import ExternalSort.Proofs.Run.Custody
import ExternalSort.Proofs.Merge.Custody
import ExternalSort.Proofs.Sorter.Custody
import ExternalSort.Proofs.Store.Ledger
import ExternalSort.Proofs.Store.Honest
import ExternalSort.Proofs.Run.Spilling
import ExternalSort.Proofs.Run.Conservation
import ExternalSort.Proofs.Run.Cuts
import ExternalSort.Proofs.Store.Alike
import ExternalSort.Proofs.Merge.Alike
import ExternalSort.Proofs.Run.Alike
import ExternalSort.Proofs.Sorter.Alike
import ExternalSort.Proofs.SpillFiles
import ExternalSort.Proofs.Order.Screen
import ExternalSort.Proofs.Order.Admission
import ExternalSort.Proofs.Binary64.Place
import ExternalSort.Proofs.Order.Values
import ExternalSort.Proofs.Order.Records
import ExternalSort.Proofs.Table.Lines
import ExternalSort.Proofs.Table.Course
import ExternalSort.Proofs.Stream.Credit
import ExternalSort.Proofs.KeepsToDemand
import ExternalSort.Proofs.Row
import ExternalSort.Proofs.Table.Packing
import ExternalSort.Proofs.Table.Grammar
import ExternalSort.Proofs.Stream.Diligence
import ExternalSort.Proofs.Merge.Progress
import ExternalSort.Proofs.Sorter.Progress
import ExternalSort.Proofs.Sorter.Prompt
import ExternalSort.Proofs.Sorter.Serving
import ExternalSort.Proofs.Sorter.Tuning
import ExternalSort.Proofs.Table.Text
import ExternalSort.Proofs.Table.Sort
import ExternalSort.Proofs.Store.Sharing
import ExternalSort.Proofs.Run.Sharing
import ExternalSort.Proofs.Merge.Reading
import ExternalSort.Proofs.Party
import ExternalSort.Proofs.SharedDirectory
import ExternalSort.Proofs.Run.Offering
import ExternalSort.Proofs.Sorter.Verdict
import ExternalSort.Proofs.Stream.Balance
import ExternalSort.Proofs.Merge.Bounds
import ExternalSort.Proofs.Sorter.Bounds
import ExternalSort.Proofs.Sorter.Counters
import ExternalSort.Proofs.Sorter.Draining
import ExternalSort.Proofs.Table.Reread
import ExternalSort.Proofs.Binary64.Value
import ExternalSort.Proofs.Order.Reversal
import ExternalSort.Proofs.Order.Locks
import ExternalSort.Proofs.Run.Refusals
import ExternalSort.Proofs.Path
import ExternalSort.Proofs.SortKey
import ExternalSort.Proofs.Merge.Fills
import ExternalSort.Proofs.Frame.GivenUp
import ExternalSort.Proofs.Merge.Grants
import ExternalSort.Proofs.DrivesReturn
import ExternalSort.Proofs.DrainsRest
