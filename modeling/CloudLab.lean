import CloudLab.Library.Bytes
import CloudLab.Library.Wire
import CloudLab.Library.Schema
import CloudLab.Library.ZeroFreeInput
import CloudLab.Library.Frames
import CloudLab.Library.Maps
import CloudLab.Library.Transition
import CloudLab.Library.TwoPhase
import CloudLab.Library.Numerals
import CloudLab.Library.Lines
import CloudLab.Library.UnorderedMap
import CloudLab.Library.Mutexes
import CloudLab.Library.SharedPtr
import CloudLab.Library.RefCounts
import CloudLab.Library.LinkedLists
import CloudLab.Library.Traversal
import CloudLab.Library.Dependencies
import CloudLab.Library.Extensions
import CloudLab.Library.Layers
import CloudLab.Transport.Socket
import CloudLab.Transport.Framing
import CloudLab.Transport.Returns
import CloudLab.SingleNode.Message
import CloudLab.SingleNode.Server
import CloudLab.SingleNode.Verify
import CloudLab.SingleNode.Mirror
import CloudLab.SingleNode.Handshake
import CloudLab.SingleNode.Traces
import CloudLab.SingleNode.Cursor
import CloudLab.SingleNode.Connections
import CloudLab.SingleNode.ThreadPool
import CloudLab.KvStore.Methods
import CloudLab.KvStore.History
import CloudLab.KvStore.Serializability
import CloudLab.KvStore.Locking
import CloudLab.KvStore.ReadLocks
import CloudLab.KvStore.Linearizability
import CloudLab.Workload.Operations
import CloudLab.Workload.Graph
import CloudLab.Workload.Ownership
import CloudLab.Workload.Dropping
import CloudLab.Workload.Parsing
import CloudLab.Workload.DeepCopy
import CloudLab.Workload.Reachable
import CloudLab.Workload.Moving
import CloudLab.Workload.Results
import CloudLab.Workload.Workers
import CloudLab.Workload.Wakeups
import CloudLab.Workload.Bitwise
import CloudLab.Workload.Arithmetic
import CloudLab.Workload.Generator
import CloudLab.Workload.Oracle
import CloudLab.Workload.Outcomes
import CloudLab.Workload.Batches
import CloudLab.Workload.Draining
import CloudLab.Workload.Sharing
import CloudLab.Workload.Leaks
import CloudLab.Sharding.Message
import CloudLab.Sharding.Transport
import CloudLab.Sharding.Server
import CloudLab.Sharding.Master
import CloudLab.Sharding.Redistribution
import CloudLab.Sharding.Cluster
import CloudLab.Sharding.Delivery
import CloudLab.Sharding.History
import CloudLab.Sharding.StoreAsMap
import CloudLab.Sharding.Joins
import CloudLab.Sharding.Placement
import CloudLab.Sharding.Processes
import CloudLab.Sharding.Concurrent
import CloudLab.Sharding.Traffic
import CloudLab.Sharding.Membership
import CloudLab.Sharding.AckedWrites
import CloudLab.Sharding.Undecodable
import CloudLab.Sharding.Joining
import CloudLab.Sharding.Routing
import CloudLab.Sharding.Linearizable
import CloudLab.Sharding.Growing
import CloudLab.Replication.Message
import CloudLab.Replication.Codec
import CloudLab.Replication.Log
import CloudLab.Replication.Startup
import CloudLab.Replication.ClientPort
import CloudLab.Replication.Acknowledged
import CloudLab.Replication.SamePair
import CloudLab.Replication.Session
import CloudLab.Replication.Descriptors
import CloudLab.Replication.Reads
import CloudLab.Counter.Message
import CloudLab.Counter.Channel
import CloudLab.Counter.Sessions
import CloudLab.Counter.Disconnect
