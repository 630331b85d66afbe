import NoSqlStore.Common.OrderedMap
/-!
# The vocabulary the node kinds share

The types of `common.rs`: node ids, partition ids, nodes, the partition
table and the cluster state a manager sends. A node id is the canonical
text of a UUID, which the UUID's value determines and which orders as the
value does, so it is modelled by that value. Hash maps and ordered maps
are `Map`s and hash sets `Finset`s; what a hash map's unspecified
iteration order decides is never read. Integers are `ℕ`; where a width
decides something, the operation that has it says so.
-/

namespace NoSqlStore

/-- The sum of two `u64`s. It wraps where overflow is not checked, and a
build that checks it ends instead. -/
def addU64 (a b : ℕ) : ℕ := (a + b) % 2 ^ 64

theorem addU64_of_lt {a b : ℕ} (h : a + b < 2 ^ 64) : addU64 a b = a + b := Nat.mod_eq_of_lt h

theorem addU64_lt (a b : ℕ) : addU64 a b < 2 ^ 64 := Nat.mod_lt _ (by decide)

/-- The number of partitions the key space is cut into. Irreducible, so
that no proof unrolls a loop over the partitions. -/
@[irreducible] def partitionsAmount : ℕ := 4096

theorem partitionsAmount_pos : 0 < partitionsAmount := by simp [partitionsAmount]

/-- A node's identity, the value of its UUID. -/
structure NodeId where
  /-- The UUID as a number. -/
  uuid : ℕ
  deriving DecidableEq

instance : LinearOrder NodeId :=
  LinearOrder.lift' NodeId.uuid fun a b h => by cases a; cases b; simpa using h

/-- A partition's number. -/
structure PartitionId where
  /-- The number. -/
  id : ℕ
  deriving DecidableEq

instance : LinearOrder PartitionId :=
  LinearOrder.lift' PartitionId.id fun a b h => by cases a; cases b; simpa using h

/-- A storage key. -/
structure Key where
  /-- The key's value. -/
  val : ℕ
  deriving DecidableEq

instance : LinearOrder Key :=
  LinearOrder.lift' Key.val fun a b h => by cases a; cases b; simpa using h

/-- The partition a key belongs to. -/
def Key.partition (k : Key) : PartitionId := ⟨k.val % partitionsAmount⟩

theorem Key.partition_lt (k : Key) : k.partition.id < partitionsAmount :=
  Nat.mod_lt _ partitionsAmount_pos

/-- The two kinds of node. -/
inductive NodeType
  | manager
  | worker
  deriving DecidableEq

/-- What a node knows of another. -/
structure Node where
  host : String
  port : ℕ
  lastHeartbeat : ℕ
  nodeType : NodeType
  deriving DecidableEq

def Node.isManager (n : Node) : Bool := n.nodeType = .manager

def Node.isWorker (n : Node) : Bool := n.nodeType = .worker

/-- A partition's master and its replicas. -/
structure Partition where
  master : NodeId
  replicas : Finset NodeId
  deriving DecidableEq

/-- The workers a partition entry names. -/
def Partition.holders (p : Partition) : Finset NodeId := insert p.master p.replicas

@[simp] theorem Partition.mem_holders {p : Partition} {n : NodeId} :
    n ∈ p.holders ↔ n = p.master ∨ n ∈ p.replicas := by simp [Partition.holders]

/-- The partition table: who holds each partition, who held it before the
migration under way, and who is new to it. -/
structure Partitions where
  mapping : Map PartitionId Partition
  oldReplicas : Map PartitionId (Finset NodeId)
  newReplicas : Map PartitionId (Finset NodeId)
  deriving DecidableEq

instance : Inhabited Partitions := ⟨⟨∅, ∅, ∅⟩⟩

namespace Partitions

/-- The workers the mapping names for a partition; none where it has no
entry. -/
def holders (t : Partitions) (p : PartitionId) : Finset NodeId :=
  (t.mapping[p]?.map Partition.holders).getD ∅

/-- The old replicas of a partition; none where there is no entry. -/
def olds (t : Partitions) (p : PartitionId) : Finset NodeId := t.oldReplicas[p]?.getD ∅

theorem mem_holders {t : Partitions} {p : PartitionId} {n : NodeId} :
    n ∈ t.holders p ↔ ∃ e, t.mapping[p]? = some e ∧ n ∈ e.holders := by
  cases h : t.mapping[p]? <;> simp [holders, h]

theorem mem_olds {t : Partitions} {p : PartitionId} {n : NodeId} :
    n ∈ t.olds p ↔ ∃ s, t.oldReplicas[p]? = some s ∧ n ∈ s := by
  cases h : t.oldReplicas[p]? <;> simp [olds, h]

end Partitions

/-- A node as a cluster state lists it. -/
structure ClusterNode where
  id : NodeId
  host : String
  port : ℕ
  lastHeartbeat : ℕ
  nodeType : NodeType
  deriving DecidableEq

/-- The snapshot a manager sends. An empty node list makes it a
partitions-only update. -/
structure ClusterState where
  epoch : ℕ
  leaderId : NodeId
  nodes : List ClusterNode
  partitions : Partitions
  deriving DecidableEq

/-- A node's own identity and address. -/
structure Me where
  id : NodeId
  host : String
  port : ℕ
  deriving DecidableEq

/-- Rust's order on `Option<u64>` against `Some(epoch)`: `None` is lowest. -/
def epochBelow (e : Option ℕ) (epoch : ℕ) : Bool := e.all (· < epoch)

@[simp] theorem epochBelow_none (epoch : ℕ) : epochBelow none epoch = true := rfl

@[simp] theorem epochBelow_some {e epoch : ℕ} : epochBelow (some e) epoch = true ↔ e < epoch := by
  simp [epochBelow]

end NoSqlStore
