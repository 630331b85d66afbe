import NoSqlStore.Common.Collect
import NoSqlStore.Model.Grpc
import NoSqlStore.Model.Manager
/-!
# The messages on the wire

`conversions.rs`, the cluster state `manager/grpc/output.rs` writes and the
arms of the two `input_from_manager` that read it, and the batches and
answers `worker/grpc/output.rs` writes and `input_from_worker` reads. The
messages are those of the `.proto` files; prost carries them unchanged. A
node id travels as its text, a partition number as a `u32` that is cut to
sixteen bits where it is read, and a hash set as a list. Hash maps and hash
sets are iterated in any order.
-/

namespace NoSqlStore

namespace Wire

/-! ## The messages -/

structure Addr where
  host : String
  port : ℕ
  deriving DecidableEq

structure GrpcNode where
  id : String
  addr : Option Addr
  lastHeartbeat : ℕ
  nodeType : ℤ
  deriving DecidableEq

structure GrpcPartition where
  master : String
  replicas : List String
  deriving DecidableEq

structure GrpcReplicas where
  replicas : List String
  deriving DecidableEq

structure GrpcPartitions where
  mapping : Map ℕ GrpcPartition
  newReplicas : Map ℕ GrpcReplicas
  oldReplicas : Map ℕ GrpcReplicas

structure GrpcClusterState where
  epoch : ℕ
  leaderId : String
  nodes : List GrpcNode
  partitions : Option GrpcPartitions

structure GrpcRecord where
  key : ℕ
  value : List UInt8
  ttl : ℕ
  creationTime : ℕ
  deleted : Bool
  deriving DecidableEq

/-- The payloads one worker sends another once they are connected. -/
inductive GrpcWorkerEvent
  | syncBatchRequest (records : List GrpcRecord)
  | syncBatchResponse (partitionIdToMaxAppliedKey : Map ℕ ℕ)

/-! ## Texts, orders and numbers -/

/-- The `uuid` crate: the text of a UUID and `Uuid::parse_str`. -/
structure Uuid where
  text : ℕ → String
  parseStr : String → Option ℕ

namespace Uuid

variable (uuid : Uuid)

/-- The text of every UUID is parsed back to it. -/
def Lawful : Prop := ∀ u < 2 ^ 128, uuid.parseStr (uuid.text u) = some u

/-- `NodeId::to_string`. -/
def toString (id : NodeId) : String := uuid.text id.uuid

/-- `NodeId::from_string`, which panics on a text that is no UUID. -/
def fromString (id : String) : Option NodeId := (uuid.parseStr id).map NodeId.mk

end Uuid

/-- The orders a map of sets is iterated in: its entries', and that of the
set of each entry. -/
structure TableOrder where
  entries : Iteration
  elements : PartitionId → Iteration

/-- `partition_id as u16`. -/
def narrow (id : ℕ) : PartitionId := ⟨id % 2 ^ 16⟩

/-! ## `conversions.rs` -/

def grpcNodeTypeToDomain (nodeType : ℤ) : NodeType := if nodeType = 1 then .worker else .manager

def domainNodeTypeToGrpc : NodeType → ℤ
  | .manager => 0
  | .worker => 1

/-- A map that is written entry by entry, its keys widened to a `u32`. -/
def tableToGrpc {α β : Type} (order : Iteration) (encode : PartitionId → α → β)
    (table : Map PartitionId α) : Map ℕ β :=
  collect ((order.run table.toList).map fun e => (e.1.id, encode e.1 e.2))

/-- A map that is read entry by entry, its keys cut to a `u16`. -/
def tableToDomain {α β : Type} (order : Iteration) (decode : β → Option α) (table : Map ℕ β) :
    Option (Map PartitionId α) :=
  ((order.run table.toList).mapM fun e => (decode e.2).map fun v => (narrow e.1, v)).map collect

variable (uuid : Uuid)

/-- The texts of a set of nodes. -/
def nodesToGrpc (order : Iteration) (nodes : Finset NodeId) : List String :=
  (order.run (nodes.sort (· ≤ ·))).map uuid.toString

/-- The set of the nodes whose texts are listed. -/
def nodesToDomain (nodes : List String) : Option (Finset NodeId) :=
  (nodes.mapM uuid.fromString).map List.toFinset

def partitionToGrpc (order : Iteration) (partition : Partition) : GrpcPartition :=
  ⟨uuid.toString partition.master, nodesToGrpc uuid order partition.replicas⟩

def partitionToDomain (partition : GrpcPartition) : Option Partition :=
  (uuid.fromString partition.master).bind fun master =>
    (nodesToDomain uuid partition.replicas).map fun replicas => ⟨master, replicas⟩

def domainPartitionMappingToGrpc (order : TableOrder) (mapping : Map PartitionId Partition) :
    Map ℕ GrpcPartition :=
  tableToGrpc order.entries (fun p => partitionToGrpc uuid (order.elements p)) mapping

def grpcPartitionMappingToDomain (order : Iteration) (mapping : Map ℕ GrpcPartition) :
    Option (Map PartitionId Partition) :=
  tableToDomain order (partitionToDomain uuid) mapping

def domainOldReplicasToGrpc (order : TableOrder) (mapping : Map PartitionId (Finset NodeId)) :
    Map ℕ GrpcReplicas :=
  tableToGrpc order.entries (fun p nodes => ⟨nodesToGrpc uuid (order.elements p) nodes⟩) mapping

def grpcOldReplicasToDomain (order : Iteration) (mapping : Map ℕ GrpcReplicas) :
    Option (Map PartitionId (Finset NodeId)) :=
  tableToDomain order (fun old => nodesToDomain uuid old.replicas) mapping

/-- The orders in which the three maps of a table are written. -/
structure WriteOrder where
  mapping : TableOrder
  oldReplicas : TableOrder
  newReplicas : TableOrder

/-- The orders in which they are read. -/
structure ReadOrder where
  mapping : Iteration
  oldReplicas : Iteration
  newReplicas : Iteration

def domainPartitionsToGrpc (order : WriteOrder) (partitions : Partitions) : GrpcPartitions where
  mapping := domainPartitionMappingToGrpc uuid order.mapping partitions.mapping
  oldReplicas := domainOldReplicasToGrpc uuid order.oldReplicas partitions.oldReplicas
  newReplicas := domainOldReplicasToGrpc uuid order.newReplicas partitions.newReplicas

def grpcPartitionsToDomain (order : ReadOrder) (partitions : GrpcPartitions) :
    Option Partitions := do
  let mapping ← grpcPartitionMappingToDomain uuid order.mapping partitions.mapping
  let oldReplicas ← grpcOldReplicasToDomain uuid order.oldReplicas partitions.oldReplicas
  let newReplicas ← grpcOldReplicasToDomain uuid order.newReplicas partitions.newReplicas
  return { mapping, oldReplicas, newReplicas }

/-! ## Cluster states -/

/-- The message `handle_output_cluster_state` puts into the event of a
client, a worker or a manager. -/
def handleOutputClusterState (order : WriteOrder) (state : ClusterState) : GrpcClusterState where
  epoch := state.epoch
  leaderId := uuid.toString state.leaderId
  nodes := state.nodes.map fun node =>
    ⟨uuid.toString node.id, some ⟨node.host, node.port⟩, node.lastHeartbeat,
      domainNodeTypeToGrpc node.nodeType⟩
  partitions := some (domainPartitionsToGrpc uuid order state.partitions)

/-- A listed node as it is read: `some none` for one without an address,
which is skipped. -/
def nodeToDomain (node : GrpcNode) : Option (Option ClusterNode) :=
  match node.addr with
  | some addr => (uuid.fromString node.id).map fun id =>
    some ⟨id, addr.host, addr.port, node.lastHeartbeat, grpcNodeTypeToDomain node.nodeType⟩
  | none => some none

def nodesOf (nodes : List GrpcNode) : Option (List ClusterNode) :=
  (nodes.mapM (nodeToDomain uuid)).map List.reduceOption

/-- The state the manager's `input_from_manager` hands to its service;
none if the message has no table, which ends the stream. -/
def Manager.inputFromManager (order : ReadOrder) (me : Me) (message : GrpcClusterState) :
    Option Manager.ManagerProtocol := do
  let partitions ← message.partitions
  let leaderId ← uuid.fromString message.leaderId
  let partitions ← grpcPartitionsToDomain uuid order partitions
  let nodes ← nodesOf uuid message.nodes
  return .clusterState me.id { epoch := message.epoch, leaderId, partitions, nodes }

/-- The payload the worker's `input_from_manager` reads of a message. -/
def managerPayload (order : ReadOrder) (message : GrpcClusterState) :
    Option Worker.ManagerPayload := do
  let leaderId ← uuid.fromString message.leaderId
  let partitions ← message.partitions.mapM (grpcPartitionsToDomain uuid order)
  let nodes ← nodesOf uuid message.nodes
  return .clusterState message.epoch leaderId nodes partitions

/-- The message that reaches the worker's service from a manager's stream. -/
def Worker.inputFromManager (order : ReadOrder) (id : NodeId) (message : GrpcClusterState) :
    Option Worker.WorkerProtocol :=
  (managerPayload uuid order message).bind (Worker.managerMessage id)

/-! ## Batches and their answers -/

def recordToGrpc (r : Worker.SyncRecord) : GrpcRecord where
  key := r.key.val
  value := r.value
  ttl := r.ttl
  creationTime := r.creationTimeMs
  deleted := r.deleted

def recordToDomain (r : GrpcRecord) : Worker.SyncRecord where
  key := ⟨r.key⟩
  value := r.value
  ttl := r.ttl
  creationTimeMs := r.creationTime
  deleted := r.deleted

/-- The event `worker/grpc/output.rs` makes of a message to another worker. -/
def workerOutput (order : Iteration) : Worker.WorkerProtocol → Option GrpcWorkerEvent
  | .syncBatch _ request => some (.syncBatchRequest (request.records.map recordToGrpc))
  | .syncBatchResponse _ keys =>
    some (.syncBatchResponse (tableToGrpc order (fun _ key => key.val) keys))
  | _ => none

/-- The payload `input_from_worker` reads of an event. -/
def workerPayload (order : Iteration) : GrpcWorkerEvent → Option Worker.WorkerPayload
  | .syncBatchRequest records => some (.syncBatchRequest (records.map recordToDomain))
  | .syncBatchResponse keys =>
    (tableToDomain order (fun key => some ⟨key⟩) keys).map .syncBatchResponse

/-- What worker `me` receives from the stream of worker `id`. -/
def Worker.inputFromWorker (order : Iteration) (me : Me) (id : NodeId) (event : GrpcWorkerEvent) :
    Option Worker.WorkerProtocol :=
  (workerPayload order event).bind (Worker.workerMessage me id)

end Wire

end NoSqlStore
