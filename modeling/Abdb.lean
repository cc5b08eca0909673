import Abdb.Lib.Search
import Abdb.Lib.Fence
import Abdb.Page.BTreeLeaf
import Abdb.Page.BTreeInner
import Abdb.BTree.Machine
import Abdb.BTree.Operations
import Abdb.BTree.Tree
import Abdb.BTree.Growth
import Abdb.BTree.Concurrent
import Abdb.Lib.Ledger
import Abdb.BTree.InsertSpec
import Abdb.BTree.Interleaving
import Abdb.BTree.InsertRace
import Abdb.BTree.InsertSteps
import Abdb.BTree.Sequential
import Abdb.BTree.Lookup
import Abdb.BTree.ConcurrentInsert
import Abdb.BTree.ConcurrentGet
import Abdb.BTree.InsertAlone
import Abdb.BTree.Shrink
import Abdb.BTree.DeleteSpec
import Abdb.BTree.DeleteAlone
import Abdb.BTree.Index
import Abdb.BTree.Shape
import Abdb.BTree.Scan
import Abdb.BTree.ScanComplete
import Abdb.Lib.WriteBack
import Abdb.BTree.Marks
import Abdb.BTree.Session
import Abdb.BTree.Eviction
import Abdb.Buffer.Pool
import Abdb.Buffer.Calls
import Abdb.Buffer.Frames
import Abdb.Buffer.Coverage
import Abdb.Buffer.LruK
import Abdb.Buffer.OneFrame
import Abdb.Buffer.Serial
import Abdb.Buffer.PinCounts
import Abdb.Buffer.Reclaim
import Abdb.Buffer.Failure
import Abdb.Buffer.Cache
import Abdb.Buffer.Transparent
import Abdb.Directory.Machine
import Abdb.Lib.Levels
import Abdb.Directory.Tree
import Abdb.Directory.Growth
import Abdb.Directory.Alone
import Abdb.Directory.Map
import Abdb.Directory.Reopen
import Abdb.Directory.Stale
import Abdb.Directory.Concurrent
import Abdb.Directory.Stands
import Abdb.Directory.Additions
import Abdb.Directory.NoLostUpdate
import Abdb.Directory.NewPage
import Abdb.Lib.Bytes
import Abdb.Page.Heap
import Abdb.Heap.Visibility
import Abdb.Heap.Operations
import Abdb.Heap.File
import Abdb.Heap.Insert
import Abdb.Heap.Delete
import Abdb.Heap.Table
import Abdb.Heap.Snapshot
import Abdb.Heap.Concurrent
import Abdb.Database.FirstPage
import Abdb.Databox.Value
import Abdb.Parser.Ast
import Abdb.Parser.Source
import Abdb.Parser.Statement
import Abdb.Parser.Translate
import Abdb.Parser.Operators
import Abdb.Binder.Bound
import Abdb.Planner.Plan
import Abdb.Optimizer.Expressions
import Abdb.Lib.Truth
import Abdb.Lib.Joins
import Abdb.Query.Expression
import Abdb.Lib.Filters
import Abdb.Optimizer.Pushdown
import Abdb.Query.Relation
import Abdb.Optimizer.PushdownSound
import Abdb.Optimizer.Physical
import Abdb.Optimizer.HashJoin
import Abdb.Binder.Scope
import Abdb.Binder.Select
import Abdb.Planner.Select
import Abdb.Binder.Resolve
import Abdb.Binder.Binds
import Abdb.Planner.FromScope
import Abdb.Binder.InScope
import Abdb.Planner.Scoped
import Abdb.BTree.DeleteWaits
import Abdb.Lib.Waiting
import Abdb.BTree.Scanning
import Abdb.BTree.Places
import Abdb.BTree.Latches
import Abdb.BTree.InsertFails
import Abdb.BTree.ConcurrentScan
import Abdb.BTree.Crabbing
import Abdb.BTree.HalfFull
import Abdb.Databox.Encoding
import Abdb.BTree.KeyOrder
import Abdb.Heap.ConcurrentDelete
import Abdb.Heap.Rejected
import Abdb.Database.ScanEnds
import Abdb.Page.HeapRefines
import Abdb.Lib.Probing
import Abdb.Page.IndexBuffer
import Abdb.Page.Panics
import Abdb.Buffer.LruVictim
import Abdb.Directory.Flush
import Abdb.Query.Physical
import Abdb.Optimizer.FuseSortLimit
import Abdb.Optimizer.IndexScan
import Abdb.Planner.Aggregates
import Abdb.Binder.JoinUsing
import Abdb.Binder.Modify
import Abdb.Binder.Coercion
import Abdb.Databox.Cast
import Abdb.Binder.Grouping
import Abdb.Lib.Parts
import Abdb.Query.Select
import Abdb.Query.Parts
import Abdb.Binder.Rules
import Abdb.Binder.Types
import Abdb.Query.Nulls
import Abdb.Binder.Nullability
import Abdb.Optimizer.Renaming
import Abdb.Databox.Narrowing
import Abdb.Lib.Placement
import Abdb.Databox.Layout
import Abdb.Lib.Lossy
import Abdb.Databox.Field
import Abdb.Databox.FieldWrite
import Abdb.Lib.Binary64
import Abdb.Databox.Order
import Abdb.Lib.Registry
import Abdb.Accessor.CatalogCache
import Abdb.Lib.Errors
import Abdb.Lib.Terms
import Abdb.Parser.Meaning
import Abdb.Parser.Kept
import Abdb.Optimizer.Conjunctions
import Abdb.Optimizer.Conjuncts
import Abdb.Optimizer.Collected
import Abdb.Optimizer.Sound
import Abdb.Lib.Machines
import Abdb.Lib.OrderedMap
import Abdb.Page.Edits
import Abdb.Page.PageMap
import Abdb.Page.SortedLeaf
import Abdb.Page.Routing
import Abdb.Page.Mirrors
import Abdb.Lib.Sorting
import Abdb.Query.Instance
import Abdb.Planner.Meaning
import Abdb.Binder.Statement
import Abdb.Planner.Statement
import Abdb.Lib.Issue
import Abdb.Binder.Definitions
import Abdb.Lib.Files
import Abdb.Storage.Files
import Abdb.Storage.Durable
import Abdb.BTree.Local
import Abdb.Database.Local
import Abdb.Lib.Overlay
import Abdb.Accessor.Operations
import Abdb.Accessor.Correct
import Abdb.Parser.Command
import Abdb.Parser.CreateTable
import Abdb.Lib.Agents
import Abdb.Server.Session
import Abdb.Server.Tcp
import Abdb.Databox.Record
import Abdb.Databox.Record
import Abdb.Accessor.IndexScan
import Abdb.BTree.ScanPrefix
import Abdb.Accessor.IndexScan
import Abdb.Page.FileHeader
