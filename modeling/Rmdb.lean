import Rmdb.Common.Defs
import Rmdb.Lib.Bisect
import Rmdb.Lib.SlotArray
import Rmdb.Lib.Program
import Rmdb.Index.Compare
import Rmdb.Index.Node
import Rmdb.Index.Handle
import Rmdb.Index.Delete
import Rmdb.Index.Scan
import Rmdb.Index.Leaf
import Rmdb.Index.Correctness
import Rmdb.Record.Heap
import Rmdb.Transaction.Watermark
import Rmdb.Transaction.Manager
import Rmdb.Record.Visibility
import Rmdb.Transaction.Store
import Rmdb.Transaction.Invariant
import Rmdb.Transaction.WatermarkRuns
import Rmdb.Transaction.Effects
import Rmdb.Lib.Chain
import Rmdb.Transaction.Chains
import Rmdb.Transaction.Reading
import Rmdb.Execution.Executors
import Rmdb.Analyze.Analyze
import Rmdb.Execution.Conditions
import Rmdb.Execution.OneMeaning
import Rmdb.Execution.Writes
import Rmdb.Execution.Outcome
import Rmdb.System.SmManager
import Rmdb.System.Run
import Rmdb.System.CommittedEffects
import Rmdb.System.Ownership
import Rmdb.System.Rollback
import Rmdb.System.OwnWrites
import Rmdb.System.LostUpdates
import Rmdb.Server.ClientHandler
import Rmdb.Server.LifeCycle
import Rmdb.System.SerialHistory
import Rmdb.System.SerialUpdate
import Rmdb.System.GarbageCollection
import Rmdb.System.FullUndo
import Rmdb.Server.Startup
import Rmdb.Storage.BufferPool
import Rmdb.Storage.PoolInvariant
import Rmdb.Storage.PoolRuns
import Rmdb.Storage.FailedFetch
import Rmdb.Index.LeafChain
import Rmdb.Optimizer.Planner
import Rmdb.Execution.Scans
import Rmdb.Execution.SearchRange
import Rmdb.Execution.ScanAgreement
import Rmdb.Lib.Cross
import Rmdb.Optimizer.JoinOrder
import Rmdb.Execution.RunPlan
import Rmdb.Execution.SelectAnswer
import Rmdb.Execution.JoinRows
import Rmdb.Execution.SelectPlan
import Rmdb.Execution.Aggregation
import Rmdb.Execution.Limit
import Rmdb.Execution.SemiJoin
import Rmdb.Lib.Frames
import Rmdb.Recovery.LogRecord
import Rmdb.Lib.Runs
import Rmdb.Recovery.LogManager
import Rmdb.Recovery.LogRecovery
import Rmdb.Lib.Levels
import Rmdb.Lib.Sparse
import Rmdb.Storage.DiskManager
import Rmdb.Storage.PageOffsets
import Rmdb.Storage.LruReplacer
import Rmdb.Storage.PoolMemory
import Rmdb.Storage.ClosedFiles
import Rmdb.Record.RmPage
import Rmdb.Record.RmFile
import Rmdb.Record.RmScan
import Rmdb.Record.GetRecord
import Rmdb.Lib.NextLinks
import Rmdb.Record.FreeList
import Rmdb.Recovery.RedoImages
import Rmdb.Index.Pages
import Rmdb.Index.Levels
import Rmdb.Index.SplitLevels
import Rmdb.Index.Insertion
import Rmdb.Index.BPlusTree
import Rmdb.Index.TreeSearch
import Rmdb.Index.RangeScan
import Rmdb.Lib.TextStream
import Rmdb.Lib.Stays
import Rmdb.System.Catalog
import Rmdb.System.Ddl
import Rmdb.System.CatalogInvariant
import Rmdb.Index.NodePages
import Rmdb.Index.RootPage
import Rmdb.Index.Reopen
import Rmdb.Index.Slots
import Rmdb.Index.Rebalance
import Rmdb.Execution.UndoImages
import Rmdb.Record.RecordCounts
import Rmdb.Storage.PinCounts
import Rmdb.Record.PinNeutral
import Rmdb.Record.OpenFiles
import Rmdb.Recovery.WriteAhead
import Rmdb.Lib.Loops
import Rmdb.Recovery.LogScan
import Rmdb.Recovery.ReadLogRecord
import Rmdb.Recovery.LostRecord
import Rmdb.Execution.Iterators
import Rmdb.Execution.FilterIterator
import Rmdb.Lib.Selection
import Rmdb.Optimizer.JoinTree
import Rmdb.Analyze.CheckClause
import Rmdb.System.VersionChains
import Rmdb.System.ConflictChecks
import Rmdb.System.FailedInsert
import Rmdb.Lib.Writes
import Rmdb.System.UpdateStatement
import Rmdb.Execution.NumberCompare
import Rmdb.Optimizer.KeptColumns
import Rmdb.Execution.ColumnsFound
import Rmdb.Execution.SemiJoinIterator
import Rmdb.Lib.Sorting
import Rmdb.Execution.SortIterator
import Rmdb.Execution.TupleBytes
import Rmdb.Execution.Expressions
import Rmdb.Execution.SetClauses
import Rmdb.System.FailedIndex
import Rmdb.Lib.Grouping
import Rmdb.Execution.GroupKeys
import Rmdb.Execution.Aggregates
import Rmdb.Execution.Having
import Rmdb.Execution.OrderBy
import Rmdb.Index.LeafEntries
import Rmdb.Index.UniqueKeys
import Rmdb.Index.KeyMap
import Rmdb.Index.NodeSearch
import Rmdb.Index.FileHeader
import Rmdb.System.IndexNames
import Rmdb.System.ChainOrder
import Rmdb.System.ChainSteps
import Rmdb.System.CatalogRefinement
import Rmdb.System.IndexBuild
import Rmdb.System.DirtyReads
import Rmdb.System.SnapshotVersions
import Rmdb.System.SnapshotSteps
import Rmdb.System.RepeatableReads
import Rmdb.Lib.LrParser
import Rmdb.Lib.LrComplete
import Rmdb.Lib.LrPhrases
import Rmdb.Lib.PackedTable
import Rmdb.Parser.Ast
import Rmdb.Parser.Grammar
import Rmdb.Parser.Tables
import Rmdb.Parser.Yyparse
import Rmdb.Parser.Levels
import Rmdb.Parser.TreeShape
import Rmdb.Parser.SqlParser
import Rmdb.Parser.Unparse
import Rmdb.Analyze.DoAnalyze
