import NoSqlStore.Model.Wire
/-!
# The streams of a manager and of a worker

Every arm of the output tasks (`manager/grpc/output.rs`,
`worker/grpc/output.rs`) and of the loops that read a stream
(`manager/grpc/input.rs` and the `input_from_manager` of
`worker/grpc/input.rs`), for all the payloads of `manager-api.proto`. A
session is looked up under the recipient's id; one whose receiver is gone
is dropped and reported to the service, and a recipient without a session
is passed over. `unreachable!` is the one panic of an output task.
-/

namespace NoSqlStore

namespace Wire

/-! ## The events -/

structure Connect where
  id : String
  addr : Option Addr
  replicationFactor : Option ℕ
  deriving DecidableEq

/-- The payloads of a `ManagerEvent`. -/
inductive ManagerEvent
  | connect (request : Connect)
  | connectResponse (id : String)
  | heartbeat (id : String) (ts : ℕ)
  | getClusterState
  | clusterState (state : GrpcClusterState)
  | voteRequest (epoch ts : ℕ)
  | voteResponse (leaderId : String) (ts : ℕ)
  | leader (id : String) (epoch ts : ℕ)
  | removePartitionFromReplica (replicaId : String) (partitionId : ℕ)

/-- The payloads of a `WorkerEvent` between a worker and a manager. -/
inductive WorkerEvent
  | connect (request : Connect)
  | connectResponse (id : String)
  | heartbeat (id : String) (ts : ℕ)
  | getClusterState
  | clusterState (state : GrpcClusterState)
  | managerLeader (id : String) (epoch ts : ℕ)
  | removePartitionFromReplica (replicaId : String) (partitionId : ℕ)

/-! ## The sessions -/

/-- The sessions by peer, and whether the receiver of each is gone. -/
abbrev SessionMap := Map NodeId Bool

structure ManagerSessions where
  managers : SessionMap
  workers : SessionMap
  clients : SessionMap

structure WorkerSessions where
  managers : SessionMap
  workers : SessionMap

/-- What an output task does about a message. -/
inductive Effect
  | managerEvent (id : NodeId) (event : ManagerEvent)
  | workerEvent (id : NodeId) (event : WorkerEvent)
  | peerEvent (id : NodeId) (event : GrpcWorkerEvent)
  | clientEvent (id : NodeId) (state : GrpcClusterState)
  /-- The service is told that the node is disconnected. -/
  | report (id : NodeId)
  /-- A manager is dialled, and greeted with the request. -/
  | dialManager (host : String) (port : ℕ) (request : Connect)
  | dialWorker (host : String) (port : ℕ)

/-- `handle_common`. -/
def handleCommon (sessions : SessionMap) (id : NodeId) (send : Effect) :
    SessionMap × List Effect :=
  match sessions[id]? with
  | some true => (sessions.erase id, [.report id])
  | some false => (sessions, [send])
  | none => (sessions, [])

variable (uuid : Uuid)

/-! ## The manager's output task -/

namespace ManagerSessions

variable (s : ManagerSessions)

def toManager (id : NodeId) (event : ManagerEvent) : ManagerSessions × List Effect :=
  let (managers, effects) := handleCommon s.managers id (.managerEvent id event)
  ({ s with managers }, effects)

/-- A node with a worker's session gets the worker's event, any other one
the manager's. -/
def toNode (id : NodeId) (asWorker : WorkerEvent) (asManager : ManagerEvent) :
    ManagerSessions × List Effect :=
  if id ∈ s.workers then
    let (workers, effects) := handleCommon s.workers id (.workerEvent id asWorker)
    ({ s with workers }, effects)
  else s.toManager id asManager

/-- The client the state is for. A closed receiver loses it. -/
def toClient (id : NodeId) (state : GrpcClusterState) : List Effect :=
  match s.clients[id]? with
  | some false => [.clientEvent id state]
  | _ => []

/-- Every other client is sent the state too, in an order of the map's;
those whose receivers are gone are dropped. -/
def toOtherClients (order : Iteration) (id : NodeId) (state : NodeId → GrpcClusterState) :
    ManagerSessions × List Effect :=
  ({ s with clients := s.clients.filter fun client closed => client = id || !closed },
    ((order.run s.clients.toList).filter fun e => e.1 ≠ id ∧ !e.2).map fun e =>
      .clientEvent e.1 (state e.1))

end ManagerSessions

/-- The `Connect` request a node greets the manager it dials with. -/
def greeting (me : Me) (replicationFactor : Option ℕ) : Connect :=
  ⟨uuid.toString me.id, some ⟨me.host, me.port⟩, replicationFactor.map (· % 2 ^ 32)⟩

/-- The orders in which maps are iterated while a cluster state is sent:
it is written anew for each recipient. -/
structure Orders where
  write : NodeId → WriteOrder
  clients : Iteration

/-- `handle_output_cluster_state`. -/
def Manager.outputClusterState (orders : Orders) (s : ManagerSessions) (id : NodeId)
    (state : ClusterState) : ManagerSessions × List Effect :=
  let written := fun id => handleOutputClusterState uuid (orders.write id) state
  let (s, first) := if id ∈ s.clients then (s, s.toClient id (written id))
    else s.toNode id (.clusterState (written id)) (.clusterState (written id))
  let (s, others) := s.toOtherClients orders.clients id written
  (s, first ++ others)

/-- The arms of `output`; none is the panic. -/
def Manager.output (orders : Orders) (me : Me) (replicationFactor : ℕ) (s : ManagerSessions) :
    Manager.ManagerProtocol → Option (ManagerSessions × List Effect)
  | .removePartitionFromReplica id replicaId partitionId =>
    let replicaId := uuid.toString replicaId
    some (s.toNode id (.removePartitionFromReplica replicaId partitionId.id)
      (.removePartitionFromReplica replicaId partitionId.id))
  | .heartbeat id nodeId ts =>
    let nodeId := uuid.toString nodeId
    some (s.toNode id (.heartbeat nodeId ts) (.heartbeat nodeId ts))
  | .newConnection _ host port manager =>
    some (s,
      if manager then [.dialManager host port (greeting uuid me (some replicationFactor))] else [])
  | .getClusterState id => some (s.toManager id .getClusterState)
  | .clusterState recipientId state => some (outputClusterState uuid orders s recipientId state)
  | .voteRequest id epoch ts => some (s.toManager id (.voteRequest epoch ts))
  | .voteResponse id leaderId ts =>
    some (s.toManager id (.voteResponse (uuid.toString leaderId) ts))
  | .leader id epoch ts =>
    -- only the leader sends it
    let leaderId := uuid.toString me.id
    some (s.toNode id (.managerLeader leaderId epoch ts) (.leader leaderId epoch ts))
  | .nodeDisconnected _ => none

/-! ## What a manager reads -/

/-- The arms of the manager's `input_from_manager`; none if the payload
ends the stream. -/
def Manager.fromManager (order : ReadOrder) (me : Me) (id : NodeId) :
    ManagerEvent → Option Manager.ManagerProtocol
  | .removePartitionFromReplica replicaId partitionId =>
    (uuid.fromString replicaId).map fun replicaId =>
      .removePartitionFromReplica id replicaId (narrow partitionId)
  | .heartbeat nodeId ts => (uuid.fromString nodeId).map fun nodeId => .heartbeat id nodeId ts
  | .getClusterState => some (.getClusterState id)
  | .clusterState state => inputFromManager uuid order me state
  | .voteRequest epoch ts => some (.voteRequest id epoch ts)
  | .voteResponse leaderId ts =>
    (uuid.fromString leaderId).map fun leaderId => .voteResponse id leaderId ts
  | .leader leaderId epoch ts => (uuid.fromString leaderId).map fun id => .leader id epoch ts
  | .connect _ | .connectResponse _ => none

/-- The arms of the manager's `input_from_worker`. -/
def Manager.fromWorker (id : NodeId) : WorkerEvent → Option Manager.ManagerProtocol
  | .removePartitionFromReplica replicaId partitionId =>
    (uuid.fromString replicaId).map fun replicaId =>
      .removePartitionFromReplica id replicaId (narrow partitionId)
  | .heartbeat nodeId ts => (uuid.fromString nodeId).map fun nodeId => .heartbeat id nodeId ts
  | .getClusterState => some (.getClusterState id)
  | .clusterState _ | .managerLeader _ _ _ | .connect _ | .connectResponse _ => none

/-! ## The worker's output task and what it reads of managers -/

namespace WorkerSessions

variable (s : WorkerSessions)

def toManager (id : NodeId) (event : WorkerEvent) : WorkerSessions × List Effect :=
  let (managers, effects) := handleCommon s.managers id (.workerEvent id event)
  ({ s with managers }, effects)

def toPeer (id : NodeId) (event : GrpcWorkerEvent) : WorkerSessions × List Effect :=
  let (workers, effects) := handleCommon s.workers id (.peerEvent id event)
  ({ s with workers }, effects)

end WorkerSessions

/-- The arms of `output`; a cluster state or a leader is logged as an
error. -/
def Worker.output (order : Iteration) (me : Me) (s : WorkerSessions) :
    Worker.WorkerProtocol → Option (WorkerSessions × List Effect)
  | .syncBatchResponse recipientId keys =>
    some (s.toPeer recipientId (.syncBatchResponse (tableToGrpc order (fun _ key => key.val) keys)))
  | .syncBatch recipientId request =>
    some (s.toPeer recipientId (.syncBatchRequest (request.records.map recordToGrpc)))
  | .removePartitionFromReplica id replicaId partitionId =>
    some (s.toManager id (.removePartitionFromReplica (uuid.toString replicaId) partitionId.id))
  | .heartbeat id nodeId ts => some (s.toManager id (.heartbeat (uuid.toString nodeId) ts))
  | .getClusterState id => some (s.toManager id .getClusterState)
  | .newConnection _ host port manager =>
    some (s, [if manager then .dialManager host port (greeting uuid me none)
      else .dialWorker host port])
  | .clusterState _ | .leader _ _ _ => some (s, [])
  | .nodeDisconnected _ => none

/-- The arms of the worker's `input_from_manager`. -/
def Worker.fromManager (order : ReadOrder) (id : NodeId) :
    WorkerEvent → Option Worker.WorkerProtocol
  | .removePartitionFromReplica replicaId partitionId =>
    (uuid.fromString replicaId).map fun replicaId =>
      .removePartitionFromReplica id replicaId (narrow partitionId)
  | .heartbeat nodeId ts => (uuid.fromString nodeId).map fun nodeId => .heartbeat id nodeId ts
  | .clusterState state => inputFromManager uuid order id state
  | .managerLeader leaderId epoch ts => (uuid.fromString leaderId).map fun id => .leader id epoch ts
  | .getClusterState | .connect _ | .connectResponse _ => none

end Wire

end NoSqlStore
