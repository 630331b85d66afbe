import NoSqlStore.Model.System
/-!
# What reaches a worker's service over gRPC

`worker/grpc/input.rs` and the connection tasks around it. A stream of a
manager or of another worker first announces its node to the service and
then turns each payload into a message; a payload it does not expect ends
it, and every stream that ends reports its node disconnected. A turn of
the service is the handler of one message, if there is one, and the tick.
-/

namespace NoSqlStore

namespace Worker

/-- What a manager's stream carries. -/
inductive ManagerPayload
  | removePartitionFromReplica (replicaId : NodeId) (partitionId : PartitionId)
  | heartbeat (id : NodeId) (ts : ℕ)
  | getClusterState
  | clusterState (epoch : ℕ) (leaderId : NodeId) (nodes : List ClusterNode)
      (partitions : Option Partitions)
  | managerLeader (id : NodeId) (epoch ts : ℕ)
  | connect (id : NodeId)
  | connectResponse (id : NodeId)

/-- What another worker's stream carries. -/
inductive WorkerPayload
  | syncBatchRequest (records : List SyncRecord)
  | syncBatchResponse (keys : Map PartitionId Key)
  | connect (id : NodeId)
  | connectResponse (id : NodeId)

/-- The first message of `input_from_manager`. -/
def inputFromManager (id : NodeId) (host : String) (port : ℕ) : WorkerProtocol :=
  .newConnection (some id) host port false

/-- The first message of `input_from_worker`. -/
def inputFromWorker (id : NodeId) (host : String) (port : ℕ) : WorkerProtocol :=
  .newConnection (some id) host port false

/-- The message a manager's payload becomes; none if it ends the stream. -/
def managerMessage (id : NodeId) : ManagerPayload → Option WorkerProtocol
  | .removePartitionFromReplica replicaId partitionId =>
    some (.removePartitionFromReplica id replicaId partitionId)
  | .heartbeat nodeId ts => some (.heartbeat id nodeId ts)
  | .clusterState epoch leaderId nodes (some partitions) =>
    some (.clusterState ⟨epoch, leaderId, nodes, partitions⟩)
  | .managerLeader leaderId epoch ts => some (.leader leaderId epoch ts)
  | .getClusterState | .clusterState _ _ _ none | .connect _ | .connectResponse _ => none

/-- The message a worker's payload becomes; none if it ends the stream. -/
def workerMessage (me : Me) (id : NodeId) : WorkerPayload → Option WorkerProtocol
  | .syncBatchRequest records => some (.syncBatch me.id ⟨id, records⟩)
  | .syncBatchResponse keys => some (.syncBatchResponse id keys)
  | .connect _ | .connectResponse _ => none

/-- What happens to a worker. -/
inductive Event
  /-- The handshake of a dialled manager is complete. -/
  | managerConnected (id : NodeId) (host : String) (port : ℕ)
  | managerPayload (id : NodeId) (payload : ManagerPayload)
  /-- The handshake with another worker, dialled or not, is complete. -/
  | workerConnected (id : NodeId) (host : String) (port : ℕ)
  | workerPayload (id : NodeId) (payload : WorkerPayload)
  /-- A stream has ended. -/
  | streamEnded (id : NodeId)
  /-- The ticker fires. -/
  | ticker
  /-- A client, or the expiry task, uses the store. -/
  | store (event : StoreEvent)

/-- The message an event brings to the service. -/
def Event.message (me : Me) : Event → Option WorkerProtocol
  | .managerConnected id host port => some (inputFromManager id host port)
  | .managerPayload id payload => managerMessage id payload
  | .workerConnected id host port => some (inputFromWorker id host port)
  | .workerPayload id payload => workerMessage me id payload
  | .streamEnded id => some (.nodeDisconnected id)
  | .ticker | .store _ => none

/-- `WorkerService::process` on a message, and `WorkerService::tick`
without one. -/
def turn (me : Me) (state : State) (store : RuntimeStore) (msg : Option WorkerProtocol)
    (env : Env) : State × RuntimeStore × List WorkerProtocol :=
  let (state, store, output) := match msg with
    | some msg => handle me state store env.handleNow msg
    | none => (state, store, [])
  let t := tick me env state store []
  (t.state, t.store, output ++ t.output)

end Worker

end NoSqlStore
