import ValueRuntime.Main
import ValueRuntime.Proofs.Heap.Graph
import ValueRuntime.Proofs.Heap.Layout
import ValueRuntime.Proofs.Heap.Change
import ValueRuntime.Proofs.Datum.Every
import ValueRuntime.Proofs.Heap.Stores
import ValueRuntime.Proofs.Heap.Sizes
import ValueRuntime.Proofs.Heap.View
import ValueRuntime.Proofs.Heap.Balance
import ValueRuntime.Proofs.Datum.Balance
import ValueRuntime.Proofs.Machine.Run
import ValueRuntime.Proofs.Machine.Balance
import ValueRuntime.Proofs.Machine.Trace
import ValueRuntime.Proofs.Machine.Evaluation
import ValueRuntime.Proofs.Machine.Forest
import ValueRuntime.Proofs.Codec.Heads
import ValueRuntime.Proofs.Codec.Items
import ValueRuntime.Proofs.Codec.Records
import ValueRuntime.Proofs.Codec.Data
import ValueRuntime.Proofs.Codec.RoundTrip
import ValueRuntime.Proofs.Codec.Canonical
import ValueRuntime.Proofs.Codec.EqualData
import ValueRuntime.Proofs.Codec.Offences
import ValueRuntime.Proofs.Codec.Reading
import ValueRuntime.Proofs.Codec.Decoded
import ValueRuntime.Proofs.Codec.Depth
import ValueRuntime.Proofs.Machine.Globals
import ValueRuntime.Proofs.Image.History
import ValueRuntime.Proofs.Heap.Contents
import ValueRuntime.Proofs.Image.Loading
import ValueRuntime.Proofs.Datum.Equality
import ValueRuntime.Proofs.Heap.Copying
import ValueRuntime.Proofs.Heap.Apart
import ValueRuntime.Proofs.Machine.Copies
import ValueRuntime.Proofs.Machine.Sizes
import ValueRuntime.Proofs.Image.Transfer
import ValueRuntime.Proofs.Image.Saving
import ValueRuntime.Proofs.Machine.Calls
import ValueRuntime.Proofs.Machine.Quiet
import ValueRuntime.Proofs.Counter.Bodies
import ValueRuntime.Proofs.Counter.Tracking
import ValueRuntime.Proofs.Counter.Steps
import ValueRuntime.Proofs.Counter.Following
import ValueRuntime.Proofs.Counter.Counting
import ValueRuntime.Proofs.Number.Rounding
import ValueRuntime.Proofs.Number.Ranges
import ValueRuntime.Proofs.Heap.Lookup
import ValueRuntime.Proofs.Heap.Building
import ValueRuntime.Proofs.Machine.Rebuilding
import ValueRuntime.Proofs.Heap.Distinct
import ValueRuntime.Proofs.Machine.Client
import ValueRuntime.Proofs.Machine.Ownership
import ValueRuntime.Proofs.Number.Integers
import ValueRuntime.Proofs.Machine.Subscripts
import ValueRuntime.Proofs.Machine.Walks
import ValueRuntime.Proofs.Machine.Snapshots
import ValueRuntime.Proofs.Machine.Hiding
import ValueRuntime.Proofs.Machine.Iterations
import ValueRuntime.Proofs.Machine.Interleaving
import ValueRuntime.Proofs.Datum.Order
import ValueRuntime.Proofs.Number.Decimals
import ValueRuntime.Proofs.Number.Numerals
import ValueRuntime.Proofs.Number.Remainders
import ValueRuntime.Proofs.Number.Texts
import ValueRuntime.Proofs.Machine.PairWalks
import ValueRuntime.Proofs.FileTree
import ValueRuntime.Proofs.Heap.Room
import ValueRuntime.Proofs.Machine.Growth
import ValueRuntime.Proofs.Manifest
