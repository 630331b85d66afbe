import NoSqlStore.Model.Domain
/-!
# The client's topology

The part of `no-sql-store-client` that decides where a request goes: the
topology a client keeps, `apply_state`, which takes over the cluster
states its manager streams push, `read_targets`, and `worker`, which finds
the connection to a worker. On the wire the replica sets are lists written
from hash sets and read back into hash sets, so they are sets here; a
manager always sends the addresses of its nodes and its table.
-/

namespace NoSqlStore

namespace Client

/-- A node as the client keeps it. -/
structure Node where
  endpoint : String
  nodeType : NodeType
  deriving DecidableEq

/-- The topology. The empty `leader_id` a client starts with is `none`. -/
structure Topology where
  epoch : ℕ
  leaderId : Option NodeId
  nodes : Map NodeId Node
  partitions : Partitions

instance : Inhabited Topology := ⟨⟨0, none, ∅, default⟩⟩

/-- The errors a routing decision returns. -/
inductive Error
  | partitionUnavailable (partitionId : PartitionId)
  | unknownWorker (nodeId : NodeId)
  | workerRequest (nodeId : NodeId) (reason : String)
  deriving DecidableEq

def normalizeEndpoint (endpoint : String) : String :=
  if endpoint.startsWith "http://" || endpoint.startsWith "https://" then endpoint
  else "http://" ++ endpoint

def endpoint (host : String) (port : ℕ) : String := normalizeEndpoint (host ++ ":" ++ toString port)

/-- Whether a cluster state is older than the topology, or of the same
epoch and another leader. -/
def outdated (topology : Topology) (state : ClusterState) : Bool :=
  state.epoch < topology.epoch ||
    (state.epoch = topology.epoch && topology.leaderId.any (state.leaderId ≠ ·))

def applyState (topology : Topology) (state : ClusterState) : Topology :=
  if outdated topology state then topology
  else
    { epoch := state.epoch
      leaderId := some state.leaderId
      nodes := if state.nodes = [] then topology.nodes
        else state.nodes.foldl
          (fun nodes n => nodes.insert n.id ⟨endpoint n.host n.port, n.nodeType⟩) ∅
      partitions := state.partitions }

def partition (key : Key) : PartitionId := ⟨key.val % partitionsAmount⟩

/-- The worker a read goes to first, and those it falls back to. -/
def readTargets (topology : Topology) (key : Key) : Except Error (NodeId × Finset NodeId) :=
  match topology.partitions.mapping[partition key]? with
  | none => .error (.partitionUnavailable (partition key))
  | some current =>
    let old := topology.partitions.oldReplicas[partition key]?.getD ∅
    let new := topology.partitions.newReplicas[partition key]?.getD ∅
    .ok (current.master, (current.replicas ∪ old ∪ new).erase current.master)

/-- The workers a write goes to. -/
def writeTargets (topology : Topology) (key : Key) : Except Error (Finset NodeId) :=
  match topology.partitions.mapping[partition key]? with
  | none => .error (.partitionUnavailable (partition key))
  | some mapping => .ok (insert mapping.master mapping.replicas)

/-- The connection to a worker: the one there is, or a new one to the
endpoint of the topology. Dialling is the network's, and gives the
connection or the reason it failed. -/
def worker {Connection : Type} (workers : Map NodeId Connection) (topology : Topology)
    (dial : String → Except String Connection) (nodeId : NodeId) : Except Error Connection :=
  match workers[nodeId]? with
  | some connection => .ok connection
  | none =>
    match topology.nodes[nodeId]? with
    | none => .error (.unknownWorker nodeId)
    | some node => (dial node.endpoint).mapError (.workerRequest nodeId)

/-- **A worker of the topology is never unknown.** -/
theorem worker_ne_unknown {Connection : Type} {topology : Topology} {nodeId : NodeId}
    (h : nodeId ∈ topology.nodes) (workers : Map NodeId Connection)
    (dial : String → Except String Connection) :
    worker workers topology dial nodeId ≠ .error (.unknownWorker nodeId) := by
  rw [Std.ExtTreeMap.mem_iff_isSome_getElem?] at h
  obtain ⟨node, hnode⟩ := Option.isSome_iff_exists.mp h
  unfold worker
  split
  · simp
  · rw [hnode]
    dsimp only
    cases dial node.endpoint <;> simp [Except.mapError]

/-- The client asks the partition the workers store the key in. -/
theorem partition_eq (key : Key) : partition key = key.partition := rfl

/-- The workers a read reaches. -/
def reached (targets : NodeId × Finset NodeId) : Finset NodeId := insert targets.1 targets.2

/-- **A read reaches every holder and every old replica** of the key's
partition, as the primary or in the fallback. -/
theorem exists_readTargets {topology : Topology} {key : Key} {e : Partition}
    (h : topology.partitions.mapping[key.partition]? = some e) :
    ∃ targets, readTargets topology key = .ok targets ∧
      ∀ n, n ∈ topology.partitions.holders key.partition ∨
        n ∈ topology.partitions.olds key.partition → n ∈ reached targets := by
  refine ⟨_, by rw [readTargets, partition_eq, h], fun n hn => ?_⟩
  simp only [reached, Finset.mem_insert, Finset.mem_erase, Finset.mem_union]
  by_cases hm : n = e.master
  · exact Or.inl hm
  · refine Or.inr ⟨hm, Or.inl ?_⟩
    rcases hn with hn | hn
    · simp only [Partitions.holders, h, Option.map_some, Option.getD_some,
        Partition.mem_holders, hm, false_or] at hn
      exact Or.inl hn
    · exact Or.inr hn

end Client

end NoSqlStore
