import StreamDecode.Feeding
import StreamDecode.LogPool
import StreamDecode.RecordReader
import StreamDecode.Schema
import StreamDecode.Session
import StreamDecode.Slice.Shelf
import StreamDecode.Proofs.LawfulBuffer
import StreamDecode.Proofs.Linear
import StreamDecode.Proofs.Composed
import StreamDecode.Proofs.Arrival
import StreamDecode.Proofs.Progress
import StreamDecode.Proofs.Recording
import StreamDecode.Proofs.Conservation
import StreamDecode.Proofs.Rounds
import StreamDecode.Proofs.EndOfInput
import StreamDecode.Proofs.Choice
import StreamDecode.Proofs.Seamless
import StreamDecode.Proofs.Renumbering
import StreamDecode.Proofs.Alternatives
import StreamDecode.Proofs.Chunking
import StreamDecode.Proofs.Records
import StreamDecode.Proofs.Truncation
import StreamDecode.Proofs.KeyOrder
import StreamDecode.Proofs.Wire
import StreamDecode.Proofs.Reading
import StreamDecode.Proofs.ReadingContainers
import StreamDecode.Proofs.Format
import StreamDecode.Proofs.Repetition
import StreamDecode.Proofs.Windows
import StreamDecode.Proofs.Accounts
import StreamDecode.Proofs.Lineage
import StreamDecode.Proofs.Mapping
import StreamDecode.Proofs.SharedRuns
import StreamDecode.Proofs.ReaderCalls
import StreamDecode.Proofs.Polling
import StreamDecode.Proofs.LookingAhead
import StreamDecode.Proofs.Traces
import StreamDecode.Proofs.RecursiveTrees
import StreamDecode.Proofs.OrderedContainers
import StreamDecode.Proofs.Passes
import StreamDecode.Proofs.TreePasses
import StreamDecode.Proofs.DeclaredCounts
import StreamDecode.Proofs.Indexing
import StreamDecode.Proofs.SharedLogs
import StreamDecode.Proofs.Parts
import StreamDecode.Proofs.RecordKeeping
import StreamDecode.Proofs.SharedStorage
import StreamDecode.Proofs.SlicesAsLists
import StreamDecode.Proofs.ByteOrders
