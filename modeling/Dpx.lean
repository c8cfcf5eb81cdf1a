import Dpx.Lib.LittleEndian
import Dpx.Lib.Framing
import Dpx.Lib.Counted
import Dpx.Lib.Buffer
import Dpx.Lib.Cursor
import Dpx.Lib.PrefixRange
import Dpx.Lib.RangeOrder
import Dpx.Lib.Fnv
import Dpx.Lib.Chunked
import Dpx.Lib.LastWriter
import Dpx.Lib.Runs
import Dpx.Lib.Word
import Dpx.Lib.MapSum
import Dpx.Lib.Scan
import Dpx.Lib.VersionList
import Dpx.Lib.Interleave
import Dpx.Lib.MergeChain
import Dpx.Lib.Slices
import Dpx.Lib.Program
import Dpx.Lib.Files
import Dpx.Lib.Turns
import Dpx.Engine.Interface
import Dpx.Engine.Memory
import Dpx.Engine.Equivalence
import Dpx.Engine.Money
import Dpx.Engine.Mvcc
import Dpx.Engine.MvccCompact
import Dpx.Engine.MvccCalls
import Dpx.Engine.MvccFastPath
import Dpx.Engine.MvccRefines
import Dpx.Engine.MvccOrder
import Dpx.Engine.Dump
import Dpx.Engine.DumpFile
import Dpx.Engine.Checkpoint
import Dpx.Engine.MvccCheckpoint
import Dpx.Engine.MvccFuture
import Dpx.Engine.Badger
import Dpx.Engine.Oshodi
import Dpx.Engine.Pebble
import Dpx.Engine.PebbleIter
import Dpx.Engine.PebbleSnapshots
import Dpx.Shared.Proposal
import Dpx.Shared.Wire
import Dpx.Shared.Telemetry
import Dpx.Conductor.Fsm
import Dpx.Conductor.Writes
import Dpx.Conductor.Agreement
import Dpx.Conductor.Replay
import Dpx.Conductor.Direct
import Dpx.Conductor.Trace
import Dpx.Conductor.History
import Dpx.Conductor.Store
import Dpx.Conductor.Transfers
import Dpx.Tx
import Dpx.Conductor.Debit
import Dpx.Conductor.Insert
import Dpx.Conductor.Reopen
import Dpx.Conductor.ReopenedUpdates
import Dpx.Conductor.Sharded
import Dpx.Conductor.Inline
import Dpx.Conductor.ShardedMvcc
import Dpx.Conductor.Bodies
import Dpx.Conductor.Entries
import Dpx.Conductor.Pipeline
import Dpx.Conductor.Lifecycle
import Dpx.Engine.ShardedCalls
import Dpx.Engine.ShardedSnapshots
import Dpx.Conductor.ShardedTransfers
import Dpx.Conductor.ShardedUpdates
import Dpx.Conductor.ShardedMvccUpdates
import Dpx.Conductor.Paths
import Dpx.Conductor.Rebuild
import Dpx.Conductor.Failed
import Dpx.Conductor.Durable
import Dpx.Range
import Dpx.Engine.MvccCoherent
import Dpx.Watch
import Dpx.Notify
import Dpx.Wakeup
import Dpx.Node
import Dpx.Balances
import Dpx.Callback
import Dpx.RunInTx
import Dpx.Serial
import Dpx.Progress
import Dpx.Pooled
import Dpx.Batcher
import Dpx.Conductor.Tar
import Dpx.Conductor.Snapshot
import Dpx.Conductor.Cluster
import Dpx.RaftTx
import Dpx.Distributed
