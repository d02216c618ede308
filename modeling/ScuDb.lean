import ScuDb.Buffer.BufferPoolManager
import ScuDb.Buffer.Homework2Pool
import ScuDb.Buffer.Homework2Runs
import ScuDb.Buffer.Invariant
import ScuDb.Buffer.LRUNodes
import ScuDb.Buffer.LRUReplacer
import ScuDb.Buffer.PagePool
import ScuDb.Buffer.PoolRules
import ScuDb.Buffer.Session
import ScuDb.Concurrency.AbortRuns
import ScuDb.Concurrency.CommitRuns
import ScuDb.Concurrency.RWMutex
import ScuDb.Concurrency.TransactionCalls
import ScuDb.Concurrency.TransactionManager
import ScuDb.Config
import ScuDb.Disk.DiskManager
import ScuDb.Hash.ExtendibleHash
import ScuDb.Hash.HashInvariant
import ScuDb.Hash.HashRuns
import ScuDb.Index.BPlusTree
import ScuDb.Index.Descent
import ScuDb.Index.InsertRules
import ScuDb.Index.Insertion
import ScuDb.Index.TreePages
import ScuDb.Index.TreeRules
import ScuDb.Index.TreeShape
import ScuDb.Lib.BinarySearch
import ScuDb.Lib.FileStream
import ScuDb.Lib.LinkedList
import ScuDb.Lib.Memory
import ScuDb.Lib.Program
import ScuDb.Lib.Routing
import ScuDb.Lib.SlotArray
import ScuDb.Lib.Stateful
import ScuDb.Lib.Tiling
import ScuDb.Page.BPlusTreePage
import ScuDb.Page.HeaderPage
import ScuDb.Page.HeaderRecords
import ScuDb.Page.TablePage
import ScuDb.Page.TablePageInvariant
import ScuDb.Page.TablePageSteps
import ScuDb.Page.TablePageUndo
import ScuDb.Table.HeapPages
import ScuDb.Table.HeapRuns
import ScuDb.Table.ScanDeadlock
import ScuDb.Table.ScanWriters
import ScuDb.Table.TableHeap
import ScuDb.Table.TableIterator
import ScuDb.Table.TableScan
import ScuDb.Vtable.GlobalTransaction
import ScuDb.Vtable.Restart
import ScuDb.Vtable.StorageEngine
import ScuDb.Vtable.VirtualTable
import ScuDb.Catalog.Schema
import ScuDb.Lib.LittleEndian
import ScuDb.Type.Value
import ScuDb.Table.Tuple
import ScuDb.Table.TupleRoundTrip
import ScuDb.Buffer.Availability
import ScuDb.Table.IteratorStep
import ScuDb.Table.HeapInsert
import ScuDb.Index.OrderedTree
import ScuDb.Lib.Separators
import ScuDb.Index.Search
import ScuDb.Index.IndexIterator
import ScuDb.Index.LeafSearch
import ScuDb.Index.PointQuery
import ScuDb.Index.GrownTree
import ScuDb.Index.InsertStored
import ScuDb.Index.Removal
import ScuDb.Index.RemoveRules
import ScuDb.Index.ShrunkTree
import ScuDb.Index.CallBalance
import ScuDb.Index.RemoveStored
import ScuDb.Buffer.FailedCalls
import ScuDb.Buffer.LRUCount
import ScuDb.Hash.HashInserts
import ScuDb.Page.HeaderOverrun
import ScuDb.Lib.MachineInt
import ScuDb.Type.Arithmetic
import ScuDb.Table.TupleLayout
import ScuDb.Vtable.BestIndex
import ScuDb.Vtable.ConstructTuple
import ScuDb.Index.IntegrityCheck
import ScuDb.Index.SearchLoops
import ScuDb.Catalog.CreateStatement
import ScuDb.Lib.ByteString
import ScuDb.Type.Cast
import ScuDb.Type.Comparison
import ScuDb.Index.PageWrites
import ScuDb.Page.PageCapacity
import ScuDb.Index.FullPool
import ScuDb.Index.Stepwise
import ScuDb.Index.MapRuns
import ScuDb.Index.RootRecord
import ScuDb.Index.GenericKey
import ScuDb.Lib.NullableOrder
import ScuDb.Index.KeyOrder
import ScuDb.Index.RootSections
import ScuDb.Buffer.ClientViews
import ScuDb.Buffer.HashedPool
import ScuDb.Buffer.MemberClients
import ScuDb.Buffer.PoolClients
import ScuDb.Buffer.PoolRequests
import ScuDb.Disk.FileDisk
import ScuDb.Hash.PageTable
import ScuDb.Index.IndexRuns
import ScuDb.Lib.Simulation
import ScuDb.Lib.SortedMap
import ScuDb.Concurrency.TransactionRuns
import ScuDb.Buffer.Homework2Hashed
import ScuDb.Index.ValidIds
import ScuDb.Index.RemovedLeaves
import ScuDb.Index.ScanRemoves
import ScuDb.Lib.Runs
