import ConsensusLab.Foundation.Quorum
import ConsensusLab.Foundation.Reachability
import ConsensusLab.Foundation.Histories
import ConsensusLab.Foundation.Inevitability
import ConsensusLab.Foundation.Utf8
import ConsensusLab.Foundation.Json
import ConsensusLab.Foundation.Election
import ConsensusLab.Foundation.LogOrder
import ConsensusLab.Foundation.StorageProgram
import ConsensusLab.Foundation.ReplicatedLog.Protocol
import ConsensusLab.Foundation.ReplicatedLog.Invariant
import ConsensusLab.Foundation.ReplicatedLog.Records
import ConsensusLab.Foundation.ReplicatedLog.Campaign
import ConsensusLab.Foundation.ReplicatedLog.Victory
import ConsensusLab.Foundation.ReplicatedLog.Office
import ConsensusLab.Foundation.ReplicatedLog.Replication
import ConsensusLab.Foundation.ReplicatedLog.Safety
import ConsensusLab.Foundation.ReplicatedLog.LogMatching
import ConsensusLab.Foundation.ReplicatedLog.Agreement
import ConsensusLab.Raft.Types
import ConsensusLab.Raft.Node
import ConsensusLab.Raft.RpcHandlers
import ConsensusLab.Raft.Replication
import ConsensusLab.Raft.Server
import ConsensusLab.Raft.Cluster
import ConsensusLab.Raft.Steps
import ConsensusLab.Raft.HandlerRules
import ConsensusLab.Raft.ReplicationRules
import ConsensusLab.Raft.Bookkeeping
import ConsensusLab.Raft.FollowerAnswers
import ConsensusLab.Raft.WholeLogs
import ConsensusLab.Raft.LogWindow
import ConsensusLab.Raft.Configuration
import ConsensusLab.Raft.Placement
import ConsensusLab.Raft.Wiring
import ConsensusLab.Raft.ElectionMirror
import ConsensusLab.Raft.ElectionSafety
import ConsensusLab.Raft.LogMirror
import ConsensusLab.Raft.HandlerMirror
import ConsensusLab.Raft.OfficeMirror
import ConsensusLab.Raft.LogRefinement
import ConsensusLab.Raft.StateMachineSafety
import ConsensusLab.Raft.SnapshotMatching
import ConsensusLab.Raft.LogEvents
import ConsensusLab.Raft.ServerRuns
import ConsensusLab.Raft.ApplyLoopSafety
import ConsensusLab.Raft.ApplyOrder
import ConsensusLab.Raft.CrashDurability
import ConsensusLab.Raft.RequestSafety
import ConsensusLab.Raft.Restoration
import ConsensusLab.Raft.ElectionOutcome
import ConsensusLab.Raft.SnapshotPrecedence
import ConsensusLab.Raft.StandingChanges
import ConsensusLab.Raft.DegradedNodes
import ConsensusLab.Foundation.StorageCalls
import ConsensusLab.Raft.JSONStorage
import ConsensusLab.Raft.StorageMirror
import ConsensusLab.Transport.ClusterClient
import ConsensusLab.Raft.CountedQuorums
import ConsensusLab.Raft.ReplicationProgress
import ConsensusLab.KV.Store
import ConsensusLab.KV.Encoding
import ConsensusLab.Service.KV
import ConsensusLab.Service.WakeUps
import ConsensusLab.Service.System
import ConsensusLab.Raft.CommitRecord
import ConsensusLab.Service.StoreReplay
import ConsensusLab.Service.CommittedStores
import ConsensusLab.Service.Acknowledgements
import ConsensusLab.Foundation.Rank
import ConsensusLab.Raft.CommitRule
import ConsensusLab.Transport.WireFormat
import ConsensusLab.Transport.RemoteCluster
import ConsensusLab.Raft.AcceptedEntries
import ConsensusLab.Raft.Redelivery
import ConsensusLab.Raft.Backtracking
import ConsensusLab.Foundation.Lockstep
import ConsensusLab.Raft.Compaction
import ConsensusLab.Raft.HostileMessages
import ConsensusLab.Raft.FailedOperations
import ConsensusLab.Foundation.Directory
import ConsensusLab.Raft.FileWrites
import ConsensusLab.Raft.ApplyWakeUps
import ConsensusLab.Service.AppliedTimestamps
import ConsensusLab.Raft.EntryOrigins
import ConsensusLab.Raft.DurableVotes
import ConsensusLab.Raft.DeliveryOrder
import ConsensusLab.Raft.LeaderAppendOnly
import ConsensusLab.Raft.Partitions
import ConsensusLab.Raft.Continuations
import ConsensusLab.Raft.Campaigns
import ConsensusLab.Raft.Availability
import ConsensusLab.Raft.LoneMembers
import ConsensusLab.Raft.ReplicationWakeUps
import ConsensusLab.Raft.RestingLeaders
import ConsensusLab.Foundation.StorageLayers
import ConsensusLab.Raft.FileServices
import ConsensusLab.Raft.FileBackedClusters
import ConsensusLab.Raft.ApplyPipeline
import ConsensusLab.Service.ApplyLoops
import ConsensusLab.Service.Processes
import ConsensusLab.Service.SnapshotCadence
import ConsensusLab.Service.Drain
import ConsensusLab.Service.Reads
import ConsensusLab.Foundation.Separators
import ConsensusLab.App.Peers
