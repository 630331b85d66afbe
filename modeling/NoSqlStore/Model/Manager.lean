import NoSqlStore.Model.Domain
/-!
# The manager service

The in-memory state machine of `manager/service`: its state, the messages
it exchanges, one function for each handler and for each part of a tick,
and `Service.process`, which handles one message and then ticks. A handler
returns the state it leaves and the messages it pushes, in the order it
pushes them. What the code reads from outside (`now_millis`, the random
election timeout, the configured replication factor) is an argument, so a
run may give every reading any value.
-/

namespace NoSqlStore

namespace Manager

/-- The cluster as one manager sees it. -/
structure State where
  epoch : Option ℕ
  electedLeaderId : Option NodeId
  nodes : Map NodeId Node
  partitions : Partitions
  /-- The workers the last recomputation was made for. -/
  workersWithCalculatedPartitions : Finset NodeId

/-- An election a manager takes part in: its own, or one it voted in. -/
inductive Election
  | mine (ts : ℕ) (approvers : Finset NodeId)
  | other (ts : ℕ) (candidateId : NodeId)
  deriving DecidableEq

def Election.ts : Election → ℕ
  | .mine ts _ => ts
  | .other ts _ => ts

/-- The elections by epoch. -/
abbrev Elections := Map ℕ Election

/-- `BTreeMap::last_key_value`. -/
def lastKeyValue (elections : Elections) : Option (ℕ × Election) := elections.toList.getLast?

/-- The messages of the manager's service loop. In an outgoing message the
`id` is the recipient, in an incoming one the sender. -/
inductive ManagerProtocol
  | newConnection (id : Option NodeId) (host : String) (port : ℕ) (manager : Bool)
  | heartbeat (id heartbeatId : NodeId) (ts : ℕ)
  | getClusterState (id : NodeId)
  | clusterState (recipientId : NodeId) (state : ClusterState)
  | voteRequest (id : NodeId) (epoch ts : ℕ)
  | voteResponse (id leaderId : NodeId) (ts : ℕ)
  | leader (id : NodeId) (epoch ts : ℕ)
  | nodeDisconnected (id : NodeId)
  | removePartitionFromReplica (id replicaId : NodeId) (partitionId : PartitionId)
  deriving DecidableEq

namespace State

/-- `State::new`. -/
def new (nodes : Map NodeId Node) (epoch : Option ℕ) : State :=
  { epoch, electedLeaderId := none, nodes, partitions := default,
    workersWithCalculatedPartitions := ∅ }

/-- The managers of the node table other than this one. -/
def otherManagers (state : State) (me : Me) : List NodeId :=
  (state.nodes.toList.filter fun e => e.1 ≠ me.id ∧ e.2.isManager).map Prod.fst

/-- The nodes of the table other than this one. -/
def otherNodes (state : State) (me : Me) : List NodeId :=
  state.nodes.keys.filter (· ≠ me.id)

/-- The workers of the node table, in the order of their ids. -/
def workers (state : State) : List NodeId :=
  (state.nodes.toList.filter fun e => e.2.isWorker).map Prod.fst

end State

/-! ## Elections -/

/-- Asking every other manager for the cluster state. -/
def askManagers (state : State) (me : Me) : List ManagerProtocol :=
  (state.otherManagers me).map .getClusterState

/-- Whether a manager without a leader calls an election: it takes part in
none, or the last one is older than the random timeout. -/
def startNew (elections : Elections) (currTs random : ℕ) : Bool :=
  (lastKeyValue elections).all fun e => addU64 e.2.ts random < currTs

def startElectionIfNeeded (state : State) (elections : Elections) (me : Me)
    (currTs random : ℕ) : Elections × List ManagerProtocol :=
  match state.electedLeaderId, state.epoch with
  | none, some epoch =>
    if state.nodes.size > 1 ∧ startNew elections currTs random then
      let nextEpoch := match lastKeyValue elections with
        | some (lastEpoch, _) => max (addU64 lastEpoch 1) (addU64 epoch 1)
        | none => addU64 epoch 1
      ((∅ : Elections).insert nextEpoch (.mine currTs ∅),
        (state.otherManagers me).map fun id => .voteRequest id nextEpoch currTs)
    else (elections, [])
  | _, _ => (elections, [])

def handleLeader (state : State) (elections : Elections) (me : Me) (id : NodeId)
    (epoch ts : ℕ) : State × Elections × List ManagerProtocol :=
  if epochBelow state.epoch epoch then
    match state.nodes[id]? with
    | some node =>
      if node.isManager then
        ({ state with
            nodes := state.nodes.insert id { node with lastHeartbeat := ts }
            electedLeaderId := some id
            epoch := some epoch }, ∅, [])
      else (state, ∅, askManagers state me)
    | none => (state, ∅, askManagers state me)
  else (state, elections, [])

/-- The election a vote response counts for: the manager's own, when the
response approves this manager with the timestamp of its request. -/
def approvedElection (elections : Elections) (me : Me) (leaderId : NodeId) (ts : ℕ) :
    Option (ℕ × Finset NodeId) :=
  match lastKeyValue elections with
  | some (epoch, .mine electionTs approvers) =>
    if electionTs = ts ∧ leaderId = me.id then some (epoch, approvers) else none
  | _ => none

/-- Every other manager of the table, and no one else, has approved. -/
def unanimous (state : State) (me : Me) (approvers : Finset NodeId) : Bool :=
  approvers.card = (state.otherManagers me).length ∧
    (state.otherManagers me).all (· ∈ approvers)

def handleVoteResponse (state : State) (elections : Elections) (me : Me) (id leaderId : NodeId)
    (ts : ℕ) : State × Elections × List ManagerProtocol :=
  match approvedElection elections me leaderId ts with
  | some (epoch, approvers) =>
    let approvers := insert id approvers
    if unanimous state me approvers then
      ({ state with electedLeaderId := some me.id, epoch := some epoch }, ∅,
        (state.otherNodes me).map fun key => .leader key epoch ts)
    else (state, elections.insert epoch (.mine ts approvers), [])
  | none =>
    if leaderId ∈ state.nodes then (state, elections, [])
    else (state, elections, askManagers state me)

/-- Whether a request replaces the election the voter takes part in. -/
def addNew (elections : Elections) (epoch ts : ℕ) : Bool :=
  (lastKeyValue elections).all fun e => epoch > e.1 ∨ ts < e.2.ts

def handleVoteRequest (state : State) (elections : Elections) (id : NodeId) (epoch ts : ℕ) :
    Elections × List ManagerProtocol :=
  if epochBelow state.epoch epoch then
    if addNew elections epoch ts then
      ((∅ : Elections).insert epoch (.other ts id), [.voteResponse id id ts])
    else
      match elections[epoch]? with
      | some (.other ts candidateId) => (elections, [.voteResponse id candidateId ts])
      | _ => (elections, [])
  else (elections, [])

/-! ## Heartbeats -/

def heartbeatIntervalMs : ℕ := 200

def heartbeats (state : State) (me : Me) (now random : ℕ) : State × List ManagerProtocol :=
  match state.nodes[me.id]? with
  | some node =>
    if node.isManager then
      let due : Bool := addU64 node.lastHeartbeat heartbeatIntervalMs ≤ now
      let nodes := if due then state.nodes.insert me.id { node with lastHeartbeat := now }
        else state.nodes
      let output := if due then (state.otherNodes me).map fun key => .heartbeat key me.id now
        else []
      -- a follower forgets a leader it has not heard of for the random timeout
      let expired : Bool := state.electedLeaderId.any fun leader => leader ≠ me.id ∧
        nodes[leader]?.any fun n => n.isManager ∧ addU64 n.lastHeartbeat random < now
      ({ state with
          nodes
          electedLeaderId := if expired then none else state.electedLeaderId }, output)
    else (state, [])
  | none => (state, [])

def handleHeartbeat (state : State) (me : Me) (id : NodeId) (ts : ℕ) :
    State × List ManagerProtocol :=
  match state.nodes[id]? with
  | none => (state, askManagers state me)
  | some node =>
    ({ state with
        nodes := state.nodes.insert id { node with lastHeartbeat := max node.lastHeartbeat ts } },
      if state.electedLeaderId = some me.id then
        ((state.otherNodes me).filter (· ≠ id)).map fun key => .heartbeat key id ts
      else [])

/-! ## Connections -/

def handleNodeDisconnected (state : State) (id : NodeId) : State :=
  if id ∈ state.nodes then
    let nodes := state.nodes.erase id
    { state with
      nodes
      electedLeaderId := if some id = state.electedLeaderId ∨ nodes.size = 1 then none
        else state.electedLeaderId }
  else state

def handleNewConnection (state : State) (me : Me) (id : Option NodeId) (host : String)
    (port : ℕ) (manager : Bool) (now : ℕ) : State × List ManagerProtocol :=
  match id with
  | none => (state, [])
  | some id =>
    let nodeType := if manager then .manager else .worker
    ({ state with nodes := state.nodes.insert id ⟨host, port, now, nodeType⟩ },
      if manager ∧ state.electedLeaderId ≠ some me.id then [.getClusterState id] else [])

/-! ## Cluster state -/

/-- Whether a snapshot of this epoch and leader is taken over. -/
def accepts (state : State) (epoch : ℕ) (leaderId : NodeId) : Bool :=
  epochBelow state.epoch epoch ||
    (state.epoch = some epoch && state.electedLeaderId = some leaderId)

/-- Merging one listed node: a known node's heartbeat is raised, an
unknown worker is added, an unknown manager is dialled. -/
def mergeNode (acc : Map NodeId Node × List ManagerProtocol) (item : ClusterNode) :
    Map NodeId Node × List ManagerProtocol :=
  match acc.1[item.id]? with
  | some node =>
    if node.lastHeartbeat < item.lastHeartbeat then
      (acc.1.insert item.id { node with lastHeartbeat := item.lastHeartbeat }, acc.2)
    else acc
  | none =>
    match item.nodeType with
    | .manager => (acc.1, acc.2 ++ [.newConnection none item.host item.port true])
    | .worker =>
      (acc.1.insert item.id ⟨item.host, item.port, item.lastHeartbeat, item.nodeType⟩, acc.2)

/-- The table after pruning: a non-empty list is a complete membership
snapshot, an empty one leaves the membership alone. -/
def retainListed (nodes : Map NodeId Node) (items : List ClusterNode) (me : Me) :
    Map NodeId Node :=
  if items = [] then nodes
  else nodes.filter fun id _ => id = me.id ∨ id ∈ items.map ClusterNode.id

def handleClusterState (state : State) (me : Me) (epoch : ℕ) (leaderId : NodeId)
    (items : List ClusterNode) (partitions : Partitions) : State × List ManagerProtocol :=
  if accepts state epoch leaderId then
    let state := if epochBelow state.epoch epoch then
        { state with epoch := some epoch, electedLeaderId := some leaderId }
      else state
    let merged := items.foldl mergeNode (retainListed state.nodes items me, [])
    ({ state with partitions, nodes := merged.1 }, merged.2)
  else (state, [])

/-- A node table as a cluster state lists it. -/
def listNodes (nodes : Map NodeId Node) : List ClusterNode :=
  nodes.toList.map fun e => ⟨e.1, e.2.host, e.2.port, e.2.lastHeartbeat, e.2.nodeType⟩

def handleGetClusterState (state : State) (id : NodeId) : List ManagerProtocol :=
  match state.epoch, state.electedLeaderId with
  | some epoch, some leaderId =>
    [.clusterState id ⟨epoch, leaderId, listNodes state.nodes, state.partitions⟩]
  | _, _ => []

/-- Striking a replica off a partition's old replicas. -/
def removeOldReplica (partitions : Partitions) (replicaId : NodeId) (partitionId : PartitionId) :
    Partitions :=
  match partitions.oldReplicas[partitionId]? with
  | some oldReplicas =>
    if replicaId ∈ oldReplicas then
      let left := oldReplicas.erase replicaId
      { partitions with
        oldReplicas := if left = ∅ then partitions.oldReplicas.erase partitionId
          else partitions.oldReplicas.insert partitionId left }
    else partitions
  | none => partitions

def handleRemoveOldPartition (state : State) (me : Me) (id replicaId : NodeId)
    (partitionId : PartitionId) : State × List ManagerProtocol :=
  let state := { state with
    partitions := removeOldReplica state.partitions replicaId partitionId }
  (state,
    if state.electedLeaderId = some me.id then
      ((state.otherNodes me).filter fun key => key ≠ replicaId ∧ key ≠ id).map fun key =>
        .removePartitionFromReplica key replicaId partitionId
    else [])

/-! ## The partition table -/

/-- A holder entry joins the old replicas of its partition. -/
def joinOldReplicas (partition : Partition) : Option (Finset NodeId) → Option (Finset NodeId)
  | some oldReplicas => some (insert partition.master (oldReplicas ∪ partition.replicas))
  | none => some (insert partition.master partition.replicas)

/-- Every holder of the present mapping joins the old replicas, of which
only workers still connected stay. -/
def copyCurrentMappingToOld (partitions : Partitions) (currentKeys : List NodeId) : Partitions :=
  let merged := partitions.mapping.toList.foldl
    (fun old e => old.alter e.1 (joinOldReplicas e.2)) partitions.oldReplicas
  { partitions with
    oldReplicas := merged.filterMap fun _ oldReplicas =>
      let kept := oldReplicas.filter (· ∈ currentKeys)
      if kept = ∅ then none else some kept }

/-- The subtraction loop of `calc_replica_index`. -/
def wrapReplica (totalAmount replica : ℕ) : ℕ :=
  if _h : totalAmount ≤ replica ∧ 0 < totalAmount then
    wrapReplica totalAmount (replica - totalAmount)
  else replica
termination_by replica

def calcReplicaIndex (totalAmount masterPartitionIndex replica : ℕ) : ℕ :=
  let replica := wrapReplica totalAmount replica
  if replica > masterPartitionIndex then totalAmount - (replica - masterPartitionIndex)
  else masterPartitionIndex - replica

/-- The worker replica number `replica` of a partition is placed on. The
index is below the length (`calcReplicaIndex_lt`), so the `expect` of the
loop never fails. -/
def replicaOf (vec : List NodeId) (partition replica : ℕ) : Option NodeId :=
  vec[calcReplicaIndex vec.length (partition % vec.length) replica]?

/-- One round of the inner loop of `calculate_new_mapping`, on the entry
of its partition. -/
def addReplica (vec : List NodeId) (partition replica : ℕ) (entry : Option Partition) :
    Option Partition :=
  match replicaOf vec partition replica with
  | some id =>
    if replica = 0 then some ⟨id, ∅⟩
    else entry.map fun e => { e with replicas := insert id e.replicas }
  | none => entry

/-- The mapping over a worker list. -/
def newMapping (partitionsAmount replicationFactor : ℕ) (vec : List NodeId) :
    Map PartitionId Partition :=
  (List.range partitionsAmount).foldl (fun m partition =>
    (List.range replicationFactor).foldl
      (fun m replica => m.alter ⟨partition⟩ (addReplica vec partition replica)) m) ∅

/-- The holders of the new entry that the old one does not name. -/
def addedHolders (new old : Partition) : Finset NodeId :=
  (if new.master ≠ old.master ∧ new.master ∉ old.replicas then {new.master} else ∅) ∪
    new.replicas.filter fun r => r ≠ old.master ∧ r ∉ old.replicas

/-- What a recomputation records as new of a partition it had before. -/
def recordAdded (mapping : Map PartitionId Partition) (p : PartitionId) (old : Partition)
    (entry : Option (Finset NodeId)) : Option (Finset NodeId) :=
  match mapping[p]? with
  | some new => some (addedHolders new old)
  | none => entry

def calculateNewMapping (partitions : Partitions) (partitionsAmount replicationFactor : ℕ)
    (vec : List NodeId) : Partitions :=
  let mapping := newMapping partitionsAmount replicationFactor vec
  { partitions with
    mapping
    newReplicas := partitions.mapping.toList.foldl
      (fun newReplicas e => newReplicas.alter e.1 (recordAdded mapping e.1 e.2))
      partitions.newReplicas }

/-- The partitions-only update a recomputation broadcasts. The leader has
an epoch, so neither `expect` fails. -/
def createNewWorkersState (state : State) : ClusterState :=
  ⟨state.epoch.getD 0, state.electedLeaderId.getD ⟨0⟩, [], state.partitions⟩

def workerPartitions (state : State) (me : Me) (replicationFactor : ℕ) :
    State × List ManagerProtocol :=
  if state.electedLeaderId = some me.id then
    let vec := state.workers
    if state.workersWithCalculatedPartitions.card ≠ vec.length ∨
        vec.toFinset ≠ state.workersWithCalculatedPartitions then
      let partitions := copyCurrentMappingToOld state.partitions vec
      if vec ≠ [] then
        let state := { state with
          partitions := calculateNewMapping partitions partitionsAmount replicationFactor vec
          workersWithCalculatedPartitions := vec.toFinset }
        (state, (state.otherNodes me).map fun id =>
          .clusterState id (createNewWorkersState state))
      else ({ state with partitions, workersWithCalculatedPartitions := ∅ }, [])
    else (state, [])
  else (state, [])

/-! ## The service loop -/

/-- A manager: its identity, its state and the elections it takes part in. -/
structure Service where
  me : Me
  state : State
  elections : Elections

/-- What one turn of the service loop reads from outside. -/
structure Readings where
  /-- `now_millis` of the connection handler. -/
  connectionNow : ℕ
  /-- `now_millis` and the random timeout of `heartbeats`. -/
  heartbeatNow : ℕ
  heartbeatRandom : ℕ
  /-- `now_millis` and the random timeout of `start_election_if_needed`. -/
  electionNow : ℕ
  electionRandom : ℕ
  replicationFactor : ℕ

namespace Service

/-- `get_init_messages`: a manager told of another one starts without an
epoch and dials it, the bootstrap manager starts at epoch zero. -/
def init (me : Me) (managerHostPort : Option (String × ℕ)) (now : ℕ) :
    Service × List ManagerProtocol :=
  let nodes := (∅ : Map NodeId Node).insert me.id ⟨me.host, me.port, now, .manager⟩
  match managerHostPort with
  | some (host, port) =>
    (⟨me, State.new nodes none, ∅⟩, [.newConnection none host port true])
  | none => (⟨me, State.new nodes (some 0), ∅⟩, [])

def tick (s : Service) (r : Readings) : Service × List ManagerProtocol :=
  let beat := heartbeats s.state s.me r.heartbeatNow r.heartbeatRandom
  let vote := startElectionIfNeeded beat.1 s.elections s.me r.electionNow r.electionRandom
  let table := workerPartitions beat.1 s.me r.replicationFactor
  (⟨s.me, table.1, vote.1⟩, beat.2 ++ vote.2 ++ table.2)

/-- The handler of one message, before the tick that follows it. -/
def handle (s : Service) (msg : ManagerProtocol) (r : Readings) :
    Service × List ManagerProtocol :=
  match msg with
  | .removePartitionFromReplica id replicaId partitionId =>
    let h := handleRemoveOldPartition s.state s.me id replicaId partitionId
    ({ s with state := h.1 }, h.2)
  | .newConnection id host port manager =>
    let h := handleNewConnection s.state s.me id host port manager r.connectionNow
    ({ s with state := h.1 }, h.2)
  | .heartbeat _ id ts =>
    let h := handleHeartbeat s.state s.me id ts
    ({ s with state := h.1 }, h.2)
  | .getClusterState id => (s, handleGetClusterState s.state id)
  | .clusterState _ state =>
    let h := handleClusterState s.state s.me state.epoch state.leaderId state.nodes
      state.partitions
    ({ s with state := h.1 }, h.2)
  | .voteRequest id epoch ts =>
    let h := handleVoteRequest s.state s.elections id epoch ts
    ({ s with elections := h.1 }, h.2)
  | .voteResponse id leaderId ts =>
    let h := handleVoteResponse s.state s.elections s.me id leaderId ts
    ({ s with state := h.1, elections := h.2.1 }, h.2.2)
  | .leader id epoch ts =>
    let h := handleLeader s.state s.elections s.me id epoch ts
    ({ s with state := h.1, elections := h.2.1 }, h.2.2)
  | .nodeDisconnected id => ({ s with state := handleNodeDisconnected s.state id }, [])

def process (s : Service) (msg : ManagerProtocol) (r : Readings) :
    Service × List ManagerProtocol :=
  let h := s.handle msg r
  let t := h.1.tick r
  (t.1, h.2 ++ t.2)

/-- One turn of the service loop: a message, or the ticker alone. -/
def turn (s : Service) (input : Option ManagerProtocol × Readings) : Service :=
  match input.1 with
  | some msg => (s.process msg input.2).1
  | none => (s.tick input.2).1

end Service

end Manager

end NoSqlStore
