import RustMq.Wal.AnyBytes
import RustMq.Wal.Crash
import RustMq.Store.SegmentFiles
import RustMq.Store.ManifestFile
import RustMq.Store.PlanExecution
import RustMq.Store.ColdViews
import RustMq.Store.Retiering
import RustMq.Store.FailedAppends
import RustMq.Store.Budget
import RustMq.Store.ReadCache
import RustMq.Store.LruCache
import RustMq.Store.Fencing
import RustMq.Broker.Segments
import RustMq.Broker.Consumer
import RustMq.Replication.ProtoConvert
import RustMq.Replication.Heartbeats
import RustMq.Replication.OneByOne
import RustMq.Replication.Transfer
import RustMq.Controller.Integrity
import RustMq.Controller.Determinism
import RustMq.Controller.LogCompaction
import RustMq.Controller.Election
import RustMq.Controller.TopicCreation
import RustMq.Controller.RaftNetwork
import RustMq.Operations.Upgrade
import RustMq.Operations.Rebalance
import RustMq.Security.RuleSnapshots
import RustMq.Security.Wildcards
import RustMq.Security.RaftAcl
import RustMq.Security.Decisions
import RustMq.Security.Invalidation
import RustMq.Group.Durability
import RustMq.Group.OffsetsTopic
import RustMq.Group.Assignments
import RustMq.Group.Fencing
import RustMq.Sdk.Fetching
import RustMq.Sdk.FetchProtocol
import RustMq.Sdk.Retries
import RustMq.Sdk.Producer
import RustMq.Sdk.GroupCommit
import RustMq.Subscriber.Batching
import RustMq.Admin.RateLimiter
import RustMq.Broker.Acks
