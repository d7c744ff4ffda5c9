import TieredKVCache.Adapter.Destination
import TieredKVCache.Adapter.Registrations
import TieredKVCache.Bench.Exclusive
import TieredKVCache.Bench.Percentiles
import TieredKVCache.Bench.S3FifoRuns
import TieredKVCache.Bench.SlowGrowth
import TieredKVCache.DataPath.Format
import TieredKVCache.DataPath.Registration
import TieredKVCache.DataPath.RoundTrip
import TieredKVCache.DataPath.TransferRuns
import TieredKVCache.Lib.LazyQueue
import TieredKVCache.Scheduler.Coverage
import TieredKVCache.Scheduler.IndexRuns
import TieredKVCache.Scheduler.LeastLoaded
import TieredKVCache.Scheduler.MaxMin
import TieredKVCache.Scheduler.Repeated
import TieredKVCache.Scheduler.ExactShares
import TieredKVCache.Storage.EdgeHistory
import TieredKVCache.Storage.Flush
import TieredKVCache.Storage.Ghost
import TieredKVCache.Storage.Predictions
import TieredKVCache.Storage.QueueLength
import TieredKVCache.Storage.Quota
import TieredKVCache.Storage.ShardedRuns
import TieredKVCache.Storage.SlowTier
import TieredKVCache.Storage.Termination
import TieredKVCache.VllmAdapter.Connector
import TieredKVCache.VllmAdapter.EvictFailure
import TieredKVCache.VllmAdapter.MainVictim
import TieredKVCache.VllmAdapter.SameVictim
import TieredKVCache.DataPath.TransferErrors
import TieredKVCache.Bench.AccessLog
import TieredKVCache.Bench.LruReplay
import TieredKVCache.Bench.Multitenant
import TieredKVCache.Bench.PoolSizes
import TieredKVCache.Bench.Reports
import TieredKVCache.VllmAdapter.KvContents
import TieredKVCache.VllmAdapter.Coherence
import TieredKVCache.Adapter.EngineSessions
import TieredKVCache.Scheduler.RouteRuns
import TieredKVCache.VllmAdapter.Cluster
import TieredKVCache.Bench.ScanResistance
import TieredKVCache.DataPath.EngineDelivery
import TieredKVCache.DataPath.MemoryDelivery
import TieredKVCache.Bench.SlowFloor
import TieredKVCache.Storage.Keeping
import TieredKVCache.Storage.Reserve
import TieredKVCache.Bench.TenantShare
