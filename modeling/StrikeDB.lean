import StrikeDB.CrdtRuns
import StrikeDB.Crc
import StrikeDB.ElementKeys
import StrikeDB.ExpiryMirror
import StrikeDB.Episodes
import StrikeDB.EventLoopProgress
import StrikeDB.SubscriberCalls
import StrikeDB.Replies
import StrikeDB.RespStream
import StrikeDB.SnapshotFile
import StrikeDB.SnapshotReads
import StrikeDB.StreamHeaders
import StrikeDB.StreamRuns
import StrikeDB.TornLogs
import StrikeDB.RespRequests
import StrikeDB.WatchExec
import StrikeDB.AclRoundTrip
import StrikeDB.TimeSeriesRuns
import StrikeDB.FailedCommands
import StrikeDB.StreamAutoclaim
import StrikeDB.StreamLag
import StrikeDB.ListRuns
import StrikeDB.LiveCount
import StrikeDB.ScanCursor
import StrikeDB.SparseIndex
import StrikeDB.CheckpointRuns
import StrikeDB.BuiltSearch
import StrikeDB.HybridClock
import StrikeDB.MembranePlan
import StrikeDB.DmaQueue
import StrikeDB.RangeCalls
import StrikeDB.ChunkRuns
import StrikeDB.MemoryGraphRuns
import StrikeDB.TableRuns
import StrikeDB.ReactiveRuns
import StrikeDB.JsonExact
import StrikeDB.VcKeys
import StrikeDB.ChainCompaction
import StrikeDB.OrderedKeys
import StrikeDB.BlockingPool
import StrikeDB.DotKernels
import StrikeDB.LowBitVectors
import StrikeDB.CacheDebugger
import StrikeDB.ReducerRuns
import StrikeDB.MemoryIsolation
import StrikeDB.DurableRuns
import StrikeDB.GroupRemoval
import StrikeDB.SetRuns
