import MatrixCube.Lib.ByteOrder
import MatrixCube.Lib.KeyRange
import MatrixCube.Lib.BigEndian
import MatrixCube.Lib.OrderedSet
import MatrixCube.Lib.RangeIndex
import MatrixCube.Lib.Transition
import MatrixCube.Lib.Search
import MatrixCube.Lib.ListWindow
import MatrixCube.Lib.Binary64
import MatrixCube.Lib.BestOf
import MatrixCube.Lib.Feed
import MatrixCube.Lib.Heap
import MatrixCube.Pb
import MatrixCube.Raftstore.Keys
import MatrixCube.Raftstore.Split
import MatrixCube.Raftstore.ConfChange
import MatrixCube.Raftstore.LogStorage
import MatrixCube.Raftstore.Entries
import MatrixCube.Raftstore.Proposal
import MatrixCube.Raftstore.Apply
import MatrixCube.Raftstore.Batch
import MatrixCube.Raftstore.PostApply
import MatrixCube.Util.ShardTree
import MatrixCube.Storage.KV
import MatrixCube.Storage.SplitCheck
import MatrixCube.Storage.Snapshot
import MatrixCube.Raftstore.MetaKeys
import MatrixCube.Raftstore.ShardsPool
import MatrixCube.Prophet.ResourceTree
import MatrixCube.Prophet.CachedResources
import MatrixCube.Prophet.Heartbeat
import MatrixCube.Prophet.BasicCluster
import MatrixCube.Prophet.Schedule.Operator
import MatrixCube.Prophet.Schedule.WaitingOperator
import MatrixCube.Prophet.Schedule.OperatorController
import MatrixCube.Prophet.Schedule.Builder
import MatrixCube.Prophet.Schedule.Planner
import MatrixCube.Prophet.Schedule.Step
import MatrixCube.Prophet.IDAlloc
import MatrixCube.Prophet.Placement.Rule
import MatrixCube.Prophet.Placement.Override
import MatrixCube.Prophet.Placement.RuleList
import MatrixCube.Prophet.Placement.RuleManager
import MatrixCube.Prophet.Placement.Fit
import MatrixCube.Prophet.Placement.FitSearch
import MatrixCube.Prophet.Placement.FitBest
import MatrixCube.Prophet.Storage
import MatrixCube.Prophet.Cache.LRU
import MatrixCube.Prophet.Cache.TwoQueue
import MatrixCube.Prophet.BTree.Model
import MatrixCube.Prophet.BTree.Indices
import MatrixCube.Prophet.BTree.Invariant
import MatrixCube.Prophet.BTree.Query
import MatrixCube.Prophet.BTree.Insert
import MatrixCube.Prophet.BTree.Remove
import MatrixCube.Prophet.BTree.Tree
import MatrixCube.Prophet.BTree.Iterate
import MatrixCube.Prophet.ResourceBTree
import MatrixCube.Prophet.Statistics.TopN
import MatrixCube.Prophet.Statistics.IndexedHeap
import MatrixCube.Prophet.Statistics.SingleTopN
import MatrixCube.Prophet.Statistics.Store
