import Db7.Lib.TSys
import Db7.Lib.Runs
import Db7.Lib.Lists
import Db7.Lib.AtomicObject
import Db7.Lib.Columns
import Db7.Lib.Total
import Db7.Lib.Fallible
import Db7.Lib.Bytes
import Db7.Lib.Search
import Db7.Lib.BLink
import Db7.Lib.OrderedCode
import Db7.Lib.SnapshotIsolation
import Db7.Txn.Timestamp
import Db7.Access.DataChunk
import Db7.Storage.UndoBuffer
import Db7.Storage.UndoSegments
import Db7.Storage.UndoIteration
import Db7.Storage.ObjectPool
import Db7.Storage.UndoArenas
import Db7.Storage.PaxLayout
import Db7.Access.ChunkLayout
import Db7.Storage.RedoBuffer
import Db7.Storage.BufferPool
import Db7.Storage.PinnedFrames
import Db7.Storage.PoolSize
import Db7.Storage.FrameClaims
import Db7.Storage.FrameHomes
import Db7.Storage.PageBytes
import Db7.Storage.DiskScheduler
import Db7.Storage.TableFiles
import Db7.Storage.FileOffsets
import Db7.Storage.PageRows
import Db7.Storage.VersionLock
import Db7.Txn.Concurrent
import Db7.Txn.Steps
import Db7.Txn.CommitVisits
import Db7.Txn.CommitOrder
import Db7.Access.Table
import Db7.Txn.UpdateLoop
import Db7.Txn.WriteConflict
import Db7.Txn.Lifetimes
import Db7.Txn.Deletes
import Db7.Txn.Snapshots
import Db7.Access.History
import Db7.Access.Visibility
import Db7.Access.SnapshotRead
import Db7.Access.SnapshotStore
import Db7.Access.StoreReads
import Db7.Access.Settled
import Db7.Access.Atomicity
import Db7.Access.ConcurrentReads
import Db7.Access.PageChunks
import Db7.Access.StoredDb
import Db7.Access.StoredRuns
import Db7.Access.StoredReads
import Db7.Index.KeyOrder
import Db7.Index.KeyEncoder
import Db7.Index.TextCodes
import Db7.Index.VarlenLayout
import Db7.Index.Records
import Db7.Index.Compaction
import Db7.Index.Split
import Db7.Index.PageOps
import Db7.Index.SplitRoom
import Db7.Index.PageRanges
import Db7.Index.BTree
import Db7.Index.Shape
import Db7.Index.Sections
import Db7.Index.Threads
import Db7.Index.Lookup
import Db7.Index.Runs
import Db7.Index.SingleWriter
import Db7.Index.NoWrap
import Db7.Index.LeafChurn
import Db7.Index.Readers
import Db7.Index.Sequential
import Db7.Index.SeparatorLevels
import Db7.Index.Updates
import Db7.Index.Linearizable
import Db7.Index.RegularReads
import Db7.Index.NodePins
import Db7.Index.PageSearch
import Db7.Index.PinBalance
import Db7.Index.SeparatorBuffers
import Db7.Index.LeafRoom
import Db7.Access.Heads
import Db7.Access.DeletedTuple
import Db7.Catalog.Rows
import Db7.Catalog.IndexKeys
import Db7.Catalog.Liveness
import Db7.Index.UniqueInsert
import Db7.Index.LeafChain
import Db7.Index.PinRuns
import Db7.Index.LatchWaits
import Db7.Index.LeafCrabbing
import Db7.Index.UniqueLive
import Db7.Index.UniqueModify
import Db7.Catalog.DatabaseCatalog
import Db7.Catalog.Entries
import Db7.Catalog.Invariants
import Db7.Catalog.KeyScans
import Db7.Catalog.Attributes
import Db7.Catalog.FailedCalls
import Db7.Catalog.Existence
import Db7.Catalog.CreatedRows
import Db7.Catalog.Calls
import Db7.Catalog.WriteLock
import Db7.Catalog.Namespaces
import Db7.Catalog.Rename
import Db7.Catalog.NamespaceMap
