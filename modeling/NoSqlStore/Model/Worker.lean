import NoSqlStore.Model.Domain
/-!
# The worker service

The state of `worker/service` and the handlers that do not move records:
connections, heartbeats, leaders, cluster states and acknowledgements, and
the choice of the workers a partition is sent to. The synchronisation
itself is in `Model/Sync.lean`.
-/

namespace NoSqlStore

namespace Worker

/-- A record on the wire; a deletion is a record without a value. -/
structure SyncRecord where
  key : Key
  value : List UInt8
  ttl : ℕ
  creationTimeMs : ℕ
  deleted : Bool
  deriving DecidableEq

structure SyncBatchRequest where
  senderId : NodeId
  records : List SyncRecord
  deriving DecidableEq

/-- The messages of the worker's service loop. -/
inductive WorkerProtocol
  | newConnection (id : Option NodeId) (host : String) (port : ℕ) (manager : Bool)
  | heartbeat (id heartbeatId : NodeId) (ts : ℕ)
  | getClusterState (id : NodeId)
  | clusterState (state : ClusterState)
  | nodeDisconnected (id : NodeId)
  | leader (id : NodeId) (epoch ts : ℕ)
  | removePartitionFromReplica (id replicaId : NodeId) (partitionId : PartitionId)
  | syncBatch (recipientId : NodeId) (request : SyncBatchRequest)
  | syncBatchResponse (recipientId : NodeId) (maxAppliedKey : Map PartitionId Key)

/-- Where the synchronisation with one recipient stands: reading the
records in key order, or reading the journal. -/
inductive SyncPhase
  | snapshot (revision : ℕ)
  | changes (confirmedRevision pendingRevision : ℕ)
  deriving DecidableEq

structure SyncState where
  prevMaxKey : Option Key
  currMaxKey : Key
  phase : SyncPhase
  confirmed : Bool
  lastStartTime : ℕ
  deriving DecidableEq

structure State where
  epoch : Option ℕ
  electedLeaderId : Option NodeId
  nodes : Map NodeId Node
  partitions : Partitions
  partitionsLastUpdateTime : ℕ
  sync : Map PartitionId (Map NodeId SyncState)
  actualNodesSyncCompletion : Map PartitionId (Map NodeId ℕ)

namespace State

/-- `State::new`. -/
def new (nodes : Map NodeId Node) : State :=
  { epoch := none, electedLeaderId := none, nodes, partitions := default,
    partitionsLastUpdateTime := 0, sync := ∅, actualNodesSyncCompletion := ∅ }

/-- The recipients whose synchronisation is recorded under the present
table; a partition without one has no entry. -/
def getCurrentlySyncedActualNodes (state : State) : Map PartitionId (Finset NodeId) :=
  state.actualNodesSyncCompletion.filterMap fun _ times =>
    let synced := (times.toList.filter (·.2 = state.partitionsLastUpdateTime)).map Prod.fst
    if synced = [] then none else some synced.toFinset

/-- The managers of the node table other than this node. -/
def otherManagers (state : State) (me : Me) : List NodeId :=
  (state.nodes.toList.filter fun e => e.1 ≠ me.id ∧ e.2.isManager).map Prod.fst

end State

/-- Asking every manager for the cluster state. -/
def askManagers (state : State) (me : Me) : List WorkerProtocol :=
  (state.otherManagers me).map .getClusterState

def handleNodeDisconnected (state : State) (id : NodeId) : State :=
  { state with nodes := state.nodes.erase id }

def handleNewConnection (state : State) (id : Option NodeId) (host : String) (port : ℕ)
    (manager : Bool) (now : ℕ) : State × List WorkerProtocol :=
  match id with
  | none => (state, [])
  | some id =>
    let nodeType := if manager then .manager else .worker
    ({ state with nodes := state.nodes.insert id ⟨host, port, now, nodeType⟩ },
      if manager then [.getClusterState id] else [])

def heartbeatIntervalMs : ℕ := 200

def heartbeats (state : State) (me : Me) (now : ℕ) : State × List WorkerProtocol :=
  match state.nodes[me.id]? with
  | some node =>
    if node.isWorker ∧ addU64 node.lastHeartbeat heartbeatIntervalMs ≤ now then
      ({ state with nodes := state.nodes.insert me.id { node with lastHeartbeat := now } },
        (state.nodes.keys.filter (· ≠ me.id)).map fun key => .heartbeat key me.id now)
    else (state, [])
  | none => (state, [])

def handleHeartbeat (state : State) (me : Me) (id : NodeId) (ts : ℕ) :
    State × List WorkerProtocol :=
  match state.nodes[id]? with
  | none => (state, askManagers state me)
  | some node =>
    ({ state with
        nodes := state.nodes.insert id
          { node with lastHeartbeat := max node.lastHeartbeat ts } }, [])

def handleLeader (state : State) (me : Me) (id : NodeId) (epoch ts : ℕ) :
    State × List WorkerProtocol :=
  if epochBelow state.epoch epoch then
    match state.nodes[id]? with
    | some node =>
      if node.isManager then
        ({ state with
            nodes := state.nodes.insert id { node with lastHeartbeat := ts }
            electedLeaderId := some id
            epoch := some epoch }, [])
      else (state, askManagers state me)
    | none => (state, askManagers state me)
  else (state, [])

/-- Whether a snapshot of this epoch and leader is taken over. -/
def accepts (state : State) (epoch : ℕ) (leaderId : NodeId) : Bool :=
  epochBelow state.epoch epoch ||
    (state.epoch = some epoch && state.electedLeaderId = some leaderId)

/-- Merging one listed node: a known node's heartbeat is raised, an
unknown one is dialled. -/
def mergeNode (acc : Map NodeId Node × List WorkerProtocol) (item : ClusterNode) :
    Map NodeId Node × List WorkerProtocol :=
  match acc.1[item.id]? with
  | some node =>
    if node.lastHeartbeat < item.lastHeartbeat then
      (acc.1.insert item.id { node with lastHeartbeat := item.lastHeartbeat }, acc.2)
    else acc
  | none =>
    (acc.1, acc.2 ++ [.newConnection none item.host item.port (item.nodeType = .manager)])

/-- The table after pruning: a non-empty list is a complete membership
snapshot, an empty one leaves the membership alone. -/
def retainListed (nodes : Map NodeId Node) (items : List ClusterNode) (me : Me) :
    Map NodeId Node :=
  if items = [] then nodes
  else nodes.filter fun id _ => id = me.id ∨ id ∈ items.map ClusterNode.id

/-- `saturating_add(1)` of a `u64`. -/
def saturatingSucc (time : ℕ) : ℕ := min (time + 1) (2 ^ 64 - 1)

def handleClusterState (state : State) (me : Me) (epoch : ℕ) (leaderId : NodeId)
    (items : List ClusterNode) (partitions : Partitions) (now : ℕ) :
    State × List WorkerProtocol :=
  if accepts state epoch leaderId then
    let state := if epochBelow state.epoch epoch then
        { state with epoch := some epoch, electedLeaderId := some leaderId }
      else state
    -- a table that differs from the present one forgets the completions
    let partitionsLastUpdateTime := if state.partitions ≠ partitions
      then max now (saturatingSucc state.partitionsLastUpdateTime)
      else state.partitionsLastUpdateTime
    let merged := items.foldl mergeNode (retainListed state.nodes items me, [])
    ({ state with partitions, partitionsLastUpdateTime, nodes := merged.1 }, merged.2)
  else (state, [])

def handleRemoveOldPartition (state : State) (me : Me) (replicaId : NodeId) :
    List WorkerProtocol :=
  if replicaId ∈ state.nodes then askManagers state me else []

/-! ## Whom a partition is sent to -/

def nodeOwnsPartition (partitions : Partitions) (partitionId : PartitionId) (nodeId : NodeId) :
    Bool :=
  partitions.mapping[partitionId]?.any fun mapping =>
    mapping.master = nodeId ∨ nodeId ∈ mapping.replicas

/-- The workers `me` has to send a partition to. An old replica sends it
to every holder. Once no old replica is left, a holder that is not new
itself sends it to the new ones it has not yet completed. -/
def getNodeIdsCurrNodeHasToSyncThePartitionTo (partition : PartitionId) (me : NodeId)
    (partitions : Partitions) (clusterNodes : Map NodeId Node)
    (currentlySyncedActualNodes : Option (Finset NodeId)) : Finset NodeId :=
  let nodeIds : Finset NodeId :=
    if partitions.oldReplicas[partition]?.any fun old => me ∈ old then
      match partitions.mapping[partition]? with
      | some mapping =>
        (if mapping.master ≠ me then {mapping.master} else ∅) ∪ mapping.replicas.filter (· ≠ me)
      | none => ∅
    else if partitions.oldReplicas[partition]?.all fun old => old = ∅ then
      match partitions.mapping[partition]?, partitions.newReplicas[partition]? with
      | some mapping, some newReplicas =>
        if (mapping.master = me ∨ me ∈ mapping.replicas) ∧ me ∉ newReplicas then
          match currentlySyncedActualNodes with
          | some synced => newReplicas.filter (· ∉ synced)
          | none => newReplicas
        else ∅
      | _, _ => ∅
    else ∅
  nodeIds.filter (· ∈ clusterNodes)

end Worker

end NoSqlStore
