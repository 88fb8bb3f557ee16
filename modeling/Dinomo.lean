import Dinomo.Library.Transition
import Dinomo.Library.Records
import Dinomo.LogBlocks
import Dinomo.Clht
import Dinomo.ClhtSpec
import Dinomo.Storage
import Dinomo.IndexSpec
import Dinomo.Compute
import Dinomo.Library.Chain
import Dinomo.Library.Pipeline
import Dinomo.Cluster
import Dinomo.Steps
import Dinomo.Invariant
import Dinomo.Invariant.Frame
import Dinomo.Invariant.Owner
import Dinomo.Invariant.Threads
import Dinomo.Invariant.Hands
import Dinomo.Invariant.Rotation
import Dinomo.Invariant.Accounting
import Dinomo.Invariant.Replicated
import Dinomo.Invariant.Indirect
import Dinomo.Invariant.Passes
import Dinomo.Invariant.Merge
import Dinomo.Invariant.Step
import Dinomo.Invariant.Check
import Dinomo.DurableAcks
import Dinomo.Batching
import Dinomo.Reclamation
import Dinomo.Refinement
import Dinomo.Refinement.Threads
import Dinomo.Refinement.Passes
import Dinomo.Refinement.Calls
import Dinomo.Refinement.Step
import Dinomo.MergePass
import Dinomo.OrderedMerge
import Dinomo.LastWrite
import Dinomo.Library.HashRing
import Dinomo.Replication
import Dinomo.Server
import Dinomo.UserRequests
import Dinomo.PendingRequests
import Dinomo.ReplicationChange
import Dinomo.Fleet
import Dinomo.Fleet.Balance
import Dinomo.Fleet.Frame
import Dinomo.Fleet.Deliver
import Dinomo.Fleet.Step
import Dinomo.AccessPath
import Dinomo.Exchange
import Dinomo.Departure
import Dinomo.Join
import Dinomo.JoinOrder
import Dinomo.RingMembership
import Dinomo.KeyNumbers
import Dinomo.Serializers
import Dinomo.RequestFaults
import Dinomo.AddressRepair
import Dinomo.IndexMap
import Dinomo.ClhtResize
import Dinomo.ResizeHelp
import Dinomo.Library.Rounding
import Dinomo.FixedSizedCache
import Dinomo.AdaptiveCache
import Dinomo.Promotion
import Dinomo.CacheBounds
import Dinomo.CacheCoherence
import Dinomo.HybridCache
import Dinomo.Client
import Dinomo.ClientTracking
import Dinomo.Library.RingSearch
import Dinomo.Monitor
import Dinomo.MonitorBounds
import Dinomo.FactorBounds
import Dinomo.NodeAddition
import Dinomo.NodeRemoval
import Dinomo.Library.CausalMerge
import Dinomo.CausalLattices
import Dinomo.LocalLog
import Dinomo.WriteProgress
import Dinomo.Preallocation
import Dinomo.ThreadTail
import Dinomo.Ownership
import Dinomo.LogGuarantees
import Dinomo.LogList
import Dinomo.Failover
import Dinomo.Library.RingIterator
import Dinomo.PartitionChange
import Dinomo.ReplicaSet
import Dinomo.Library.Grouping
import Dinomo.Addresses
import Dinomo.ClientReplicas
import Dinomo.StorageFactors
import Dinomo.ReplicationRounds
import Dinomo.ServerStatistics
import Dinomo.Timestamps
import Dinomo.Responses
import Dinomo.RequestCodes
import Dinomo.Library.Buffer
import Dinomo.MetadataStore
import Dinomo.Library.ByteOrder
import Dinomo.Handshake
import Dinomo.MetadataKeys
