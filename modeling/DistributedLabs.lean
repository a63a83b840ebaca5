import DistributedLabs.Raft.Reordering
import DistributedLabs.Raft.Delivery
import DistributedLabs.Raft.Votes
import DistributedLabs.Raft.Persistence
import DistributedLabs.Raft.Timers
import DistributedLabs.Raft.Commitment
import DistributedLabs.Raft.Applier
import DistributedLabs.Raft.Deadlock
import DistributedLabs.Lab0.Permits
import DistributedLabs.Lab0.SerialWaits
import DistributedLabs.Lab0.Cancellation
import DistributedLabs.Lab1.Agreement
import DistributedLabs.Lab1.Freshness
import DistributedLabs.Lab1.Statistics
import DistributedLabs.Checker.Soundness
import DistributedLabs.Kv.MakeShardmap
import DistributedLabs.Kv.Requests
import DistributedLabs.Kv.Listeners
import DistributedLabs.Kv.Refinement
import DistributedLabs.Kv.Atomicity
import DistributedLabs.Kv.TimedMap
import DistributedLabs.Kv.CopyChain
import DistributedLabs.Kv.UpdateEnd
import DistributedLabs.Kv.Cleaners
import DistributedLabs.Kv.Retrieval
import DistributedLabs.Kv.Failover
import DistributedLabs.Kv.FanOutEnd
import DistributedLabs.Rpc.Replies
import DistributedLabs.Rpc.Progress
import DistributedLabs.Raft.LinkedRefines
import DistributedLabs.Kv.Regularity
import DistributedLabs.Raft.TesterCalls
import DistributedLabs.Raft.Handover
import DistributedLabs.Kv.Rebalancing
