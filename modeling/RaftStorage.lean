import RaftStorage.Cluster.ApplyChannel
import RaftStorage.Cluster.CommitRule
import RaftStorage.Cluster.Compaction
import RaftStorage.Cluster.Leadership
import RaftStorage.Cluster.Persistence
import RaftStorage.Cluster.Restart
import RaftStorage.Cluster.Safety
import RaftStorage.Cluster.Tickers
import RaftStorage.Fiber.FdContexts
import RaftStorage.Fiber.Hook
import RaftStorage.Fiber.Idle
import RaftStorage.Fiber.SchedulerSpecs
import RaftStorage.Fiber.TimerThreads
import RaftStorage.Kv.ClerkIds
import RaftStorage.Kv.Queues
import RaftStorage.Kv.Snapshots
import RaftStorage.Kv.Specification
import RaftStorage.Kv.StateSize
import RaftStorage.Raft.PersisterReads
import RaftStorage.Rpc.Calls
import RaftStorage.Rpc.Channel
import RaftStorage.Rpc.ConfigSpecs
import RaftStorage.Rpc.Responses
import RaftStorage.Service.Availability
import RaftStorage.Store.FiniteMap
