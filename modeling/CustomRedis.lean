import CustomRedis.Model.Common
import CustomRedis.Model.Dstr
import CustomRedis.Model.Hashmap
import CustomRedis.Model.AvlTree
import CustomRedis.Lib.KeyedList
import CustomRedis.Lib.Mem
import CustomRedis.Lib.Zipper
import CustomRedis.Proof.Hashmap
import CustomRedis.Model.Zset
import CustomRedis.Model.Heap
import CustomRedis.Model.Dlist
import CustomRedis.Model.Hyperloglog
import CustomRedis.Model.OutHelpers
import CustomRedis.Model.Keyspace
import CustomRedis.Model.RedisFunctions
import CustomRedis.Model.Server
import CustomRedis.Model.EventLoop
import CustomRedis.Model.Client
import CustomRedis.Proof.Keyspace
import CustomRedis.Proof.Heap
import CustomRedis.Proof.AvlTree
import CustomRedis.Proof.Zset
import CustomRedis.Lib.Run
import CustomRedis.Proof.ZsetRuns
import CustomRedis.Proof.Handlers
import CustomRedis.Proof.Reachable
import CustomRedis.Proof.Creation
import CustomRedis.Proof.Errors
import CustomRedis.Proof.TtlIndex
import CustomRedis.Proof.Deadlines
import CustomRedis.Proof.Frames
import CustomRedis.Proof.Faults
import CustomRedis.Proof.Arity
import CustomRedis.Proof.KeyValue
import CustomRedis.Proof.TypeChecks
import CustomRedis.Proof.DstrRuns
import CustomRedis.Proof.HllCache
import CustomRedis.Proof.EventLoop
import CustomRedis.Proof.Connections
import CustomRedis.Proof.ReplyStream
import CustomRedis.Lib.LinkedRing
import CustomRedis.Proof.Dlist
import CustomRedis.Proof.TimeoutLists
import CustomRedis.Proof.TimeoutOrder
import CustomRedis.Lib.PrefixCode
import CustomRedis.Proof.StoredStrings
import CustomRedis.Proof.ReplyGrammar
import CustomRedis.Proof.Replies
import CustomRedis.Lib.RunLength
import CustomRedis.Proof.HllSparse
import CustomRedis.Proof.HllDense
import CustomRedis.Proof.HllRegisters
import CustomRedis.Proof.AvlBalance
import CustomRedis.Proof.RankWalk
import CustomRedis.Proof.LoadFactor
import CustomRedis.Model.Threadpool
import CustomRedis.Proof.Threadpool
import CustomRedis.Proof.OneKey
import CustomRedis.Proof.Deque
import CustomRedis.Proof.NestedMap
import CustomRedis.Proof.HashRuns
import CustomRedis.Proof.SetRuns
import CustomRedis.Proof.Bitmap
import CustomRedis.Proof.Ownership
import CustomRedis.Proof.LowerBound
import CustomRedis.Proof.RangeQuery
import CustomRedis.Proof.ScoreRuns
import CustomRedis.Lib.HeapOrder
import CustomRedis.Proof.HeapOrder
import CustomRedis.Proof.HeapUpdates
import CustomRedis.Proof.TtlClock
import CustomRedis.Proof.ExpiryBatch
import CustomRedis.Proof.PollTimeout
import CustomRedis.Proof.SparseForm
import CustomRedis.Proof.SparseWalks
import CustomRedis.Proof.Densify
import CustomRedis.Proof.HllMerge
import CustomRedis.Proof.ListRanges
import CustomRedis.Proof.BitRanges
import CustomRedis.Proof.HashPairs
import CustomRedis.Proof.KeyAliases
import CustomRedis.Proof.ClientReplies
import CustomRedis.Lib.Agree
import CustomRedis.Proof.Isolation
import CustomRedis.Proof.Backlog
import CustomRedis.Proof.Linearization
import CustomRedis.Proof.KvClients
import CustomRedis.Lib.Drain
import CustomRedis.Proof.PoolProgress
import CustomRedis.Proof.ZsetNodes
import CustomRedis.Lib.Life
import CustomRedis.Proof.KeyLife
import CustomRedis.Lib.Words
import CustomRedis.Model.Session
import CustomRedis.Proof.Session
import CustomRedis.Proof.LoopRound
import CustomRedis.Proof.ListQueue
