import NoSqlStore.Model.Client
import NoSqlStore.Model.Wire
/-!
# The client as it reads the wire

`Inner` of `no-sql-store-client` on the messages of the `.proto` files.
The client parses nothing: it keeps the texts of the node ids, the lists
of replicas and the numbers of the partitions as it received them, and
compares texts. The hash sets its routing decisions return are iterated in
any order, so they are sets here.
-/

namespace NoSqlStore

namespace Wire

namespace Inner

structure Node where
  endpoint : String
  nodeType : ℤ
  deriving DecidableEq

structure Topology where
  epoch : ℕ
  leaderId : String
  nodes : Map String Node
  mapping : Map ℕ GrpcPartition
  oldReplicas : Map ℕ (List String)
  newReplicas : Map ℕ (List String)

/-- `Topology::default`. -/
instance : Inhabited Topology := ⟨⟨0, "", ∅, ∅, ∅, ∅⟩⟩

inductive Error
  | partitionUnavailable (partitionId : ℕ)
  | unknownWorker (nodeId : String)
  | workerRequest (nodeId reason : String)
  deriving DecidableEq

/-- A listed node; one without an address is skipped. -/
def nodeOf (node : GrpcNode) : Option (String × Node) :=
  node.addr.map fun address =>
    (node.id, ⟨Client.endpoint address.host address.port, node.nodeType⟩)

/-- The lists of a map of replicas, taken out in an order of the map's. -/
def replicasOf (order : Iteration) (table : Map ℕ GrpcReplicas) : Map ℕ (List String) :=
  collect ((order.run table.toList).map fun e => (e.1, e.2.replicas))

/-- The orders in which the two maps of replicas are iterated. -/
structure ReplicaOrders where
  oldReplicas : Iteration
  newReplicas : Iteration

def applyState (orders : ReplicaOrders) (topology : Topology) (state : GrpcClusterState) :
    Topology :=
  if state.epoch < topology.epoch ∨
      (state.epoch = topology.epoch ∧ topology.leaderId ≠ "" ∧
        state.leaderId ≠ topology.leaderId) then topology
  else
    let topology := { topology with epoch := state.epoch, leaderId := state.leaderId }
    let topology := if state.nodes = [] then topology
      else { topology with nodes := collect (state.nodes.filterMap nodeOf) }
    match state.partitions with
    | none => topology
    | some partitions =>
      { topology with
        mapping := partitions.mapping
        oldReplicas := replicasOf orders.oldReplicas partitions.oldReplicas
        newReplicas := replicasOf orders.newReplicas partitions.newReplicas }

def partition (key : Key) : ℕ := key.val % partitionsAmount

def readTargets (topology : Topology) (key : Key) : Except Error (String × Finset String) :=
  match topology.mapping[partition key]? with
  | none => .error (.partitionUnavailable (partition key))
  | some current =>
    let old := (topology.oldReplicas[partition key]?.getD []).toFinset
    let new := (topology.newReplicas[partition key]?.getD []).toFinset
    .ok (current.master, (current.replicas.toFinset ∪ old ∪ new).erase current.master)

/-- The texts `write_all` sends its request to. -/
def writeTargets (topology : Topology) (key : Key) : Except Error (Finset String) :=
  match topology.mapping[partition key]? with
  | none => .error (.partitionUnavailable (partition key))
  | some mapping => .ok (insert mapping.master mapping.replicas.toFinset)

def worker {Connection : Type} (workers : Map String Connection) (topology : Topology)
    (dial : String → Except String Connection) (nodeId : String) : Except Error Connection :=
  match workers[nodeId]? with
  | some connection => .ok connection
  | none =>
    match topology.nodes[nodeId]? with
    | none => .error (.unknownWorker nodeId)
    | some node => (dial node.endpoint).mapError (.workerRequest nodeId)

end Inner

end Wire

end NoSqlStore
