import NoSqlStore.Election.Tables
import NoSqlStore.Model.GrpcClient
/-!
# The client on the wire is the client

A client compares texts and keeps lists, the model of it in `Client` ids
and sets. `Shows` relates the two topologies; a cluster state that is read
from the wire by the one and applied by the other keeps them related,
where the ids are UUIDs (`Shows.applyState`). So the client routes every
key as `Client` does, text by text, whatever states it was told of in a
run of the managers and however these were written
(`client_reads_the_wire`).
-/

namespace NoSqlStore

open Runs

namespace Wire

variable {uuid : Uuid}

/-! ## Texts of ids -/

theorem toString_inj (huuid : uuid.Lawful) {m n : NodeId} (hm : IsUuid m) (hn : IsUuid n) :
    uuid.toString m = uuid.toString n ↔ m = n := by
  refine ⟨fun heq => ?_, fun heq => heq ▸ rfl⟩
  have hread := fromString_toString huuid hm
  rw [heq, fromString_toString huuid hn] at hread
  exact (Option.some.inj hread).symm

/-- No UUID has the empty text, which is parsed as none. -/
theorem toString_ne_empty (huuid : uuid.Lawful) (hempty : uuid.parseStr "" = none) {n : NodeId}
    (hn : IsUuid n) : uuid.toString n ≠ "" := by
  intro heq
  have hread := fromString_toString huuid hn
  rw [heq, Uuid.fromString, hempty] at hread
  cases hread

/-- Taking a node out of a set takes its text out of the texts. -/
theorem image_erase (huuid : uuid.Lawful) {nodes : Finset NodeId} (hnodes : ∀ n ∈ nodes, IsUuid n)
    {m : NodeId} (hm : IsUuid m) :
    (nodes.erase m).image uuid.toString = (nodes.image uuid.toString).erase (uuid.toString m) := by
  ext text
  simp only [Finset.mem_image, Finset.mem_erase]
  constructor
  · rintro ⟨n, ⟨hne, hn⟩, rfl⟩
    exact ⟨fun heq => hne ((toString_inj huuid (hnodes n hn) hm).1 heq), n, hn, rfl⟩
  · rintro ⟨hne, n, hn, rfl⟩
    exact ⟨n, ⟨fun heq => hne (heq ▸ rfl), hn⟩, rfl⟩

theorem toFinset_nodesToGrpc (order : Iteration) (nodes : Finset NodeId) :
    (nodesToGrpc uuid order nodes).toFinset = nodes.image uuid.toString := by
  ext text
  simp only [nodesToGrpc, List.mem_toFinset, List.mem_map, Finset.mem_image,
    (order.perm _).mem_iff, Finset.mem_sort]

theorem id_injective : Function.Injective PartitionId.id := by
  rintro ⟨m⟩ ⟨n⟩ h
  exact congrArg PartitionId.mk h

theorem getElem?_tableToGrpc {α β : Type} (order : Iteration) (encode : PartitionId → α → β)
    (table : Map PartitionId α) (p : PartitionId) :
    (tableToGrpc order encode table)[p.id]? = table[p]?.map (encode p) :=
  Map.getElem?_rekeyed id_injective encode order table p

/-! ## Two views of one topology -/

/-- A node of the topology as the client keeps it. -/
def shownNode (node : Client.Node) : Inner.Node :=
  ⟨node.endpoint, domainNodeTypeToGrpc node.nodeType⟩

/-- What a client can tell of an entry of the mapping. -/
def holdersOf (partition : GrpcPartition) : String × Finset String :=
  (partition.master, partition.replicas.toFinset)

/-- **The client on the wire shows the topology**, id by text and set by
list. -/
structure Shows (uuid : Uuid) (inner : Inner.Topology) (topology : Client.Topology) : Prop where
  epoch : inner.epoch = topology.epoch
  leader : inner.leaderId = (topology.leaderId.map uuid.toString).getD ""
  isUuid : ∀ leader ∈ topology.leaderId, IsUuid leader
  nodes : ∀ n, IsUuid n → inner.nodes[uuid.toString n]? = topology.nodes[n]?.map shownNode
  mapping : ∀ p : PartitionId, inner.mapping[p.id]?.map holdersOf =
    topology.partitions.mapping[p]?.map fun e =>
      (uuid.toString e.master, e.replicas.image uuid.toString)
  oldReplicas : ∀ p : PartitionId, inner.oldReplicas[p.id]?.map List.toFinset =
    topology.partitions.oldReplicas[p]?.map (Finset.image uuid.toString)
  newReplicas : ∀ p : PartitionId, inner.newReplicas[p.id]?.map List.toFinset =
    topology.partitions.newReplicas[p]?.map (Finset.image uuid.toString)
  canonical : CanonicalTable topology.partitions

variable {inner : Inner.Topology} {topology : Client.Topology}

theorem shows_default : Shows uuid default default where
  epoch := rfl
  leader := rfl
  isUuid := fun _ h => by cases h
  nodes := fun n _ => by simp [default]
  mapping := fun p => by simp [default]
  oldReplicas := fun p => by simp [default]
  newReplicas := fun p => by simp [default]
  canonical := by
    refine ⟨fun p e h => ?_, fun p e h => ?_, fun p e h => ?_⟩
    all_goals simp [default] at h

/-- **The two views refuse the same states.** -/
theorem Shows.outdated (h : Shows uuid inner topology) (huuid : uuid.Lawful)
    (hempty : uuid.parseStr "" = none) {state : ClusterState} (hleader : IsUuid state.leaderId)
    (out : WriteOrder) :
    let message := handleOutputClusterState uuid out state
    (message.epoch < inner.epoch ∨ (message.epoch = inner.epoch ∧ inner.leaderId ≠ "" ∧
      message.leaderId ≠ inner.leaderId)) ↔ Client.outdated topology state = true := by
  intro message
  have hother : (inner.leaderId ≠ "" ∧ uuid.toString state.leaderId ≠ inner.leaderId) ↔
      topology.leaderId.any (state.leaderId ≠ ·) = true := by
    rw [h.leader]
    cases hid : topology.leaderId with
    | none => simp
    | some leader =>
      have hisUuid := h.isUuid leader (by rw [hid]; rfl)
      simp [toString_ne_empty huuid hempty hisUuid, toString_inj huuid hleader hisUuid]
  show (state.epoch < inner.epoch ∨ (state.epoch = inner.epoch ∧ inner.leaderId ≠ "" ∧
    uuid.toString state.leaderId ≠ inner.leaderId)) ↔ _
  rw [h.epoch]
  simp only [Client.outdated, Bool.or_eq_true, Bool.and_eq_true, decide_eq_true_eq, hother]

/-- Keeping a listed node, as `Client.applyState` does and on the wire. -/
def keepNode (nodes : Map NodeId Client.Node) (m : ClusterNode) : Map NodeId Client.Node :=
  nodes.insert m.id ⟨Client.endpoint m.host m.port, m.nodeType⟩

def keepText (uuid : Uuid) (nodes : Map String Inner.Node) (m : ClusterNode) :
    Map String Inner.Node :=
  nodes.insert (uuid.toString m.id)
    ⟨Client.endpoint m.host m.port, domainNodeTypeToGrpc m.nodeType⟩

theorem collect_nodes (out : WriteOrder) (state : ClusterState) :
    collect ((handleOutputClusterState uuid out state).nodes.filterMap Inner.nodeOf) =
      state.nodes.foldl (keepText uuid) ∅ := by
  have hlisted : (handleOutputClusterState uuid out state).nodes.filterMap Inner.nodeOf =
      state.nodes.map fun m => (uuid.toString m.id,
        (⟨Client.endpoint m.host m.port, domainNodeTypeToGrpc m.nodeType⟩ : Inner.Node)) := by
    rw [handleOutputClusterState, List.filterMap_map]
    exact congrFun List.filterMap_eq_map state.nodes
  rw [hlisted, Map.collect_eq_foldl, List.foldl_map]
  rfl

/-- **Nodes listed in one order on both sides** are shown. -/
theorem foldl_keepNode (huuid : uuid.Lawful) {n : NodeId} (hn : IsUuid n)
    (listed : List ClusterNode)
    (hlisted : ∀ m ∈ listed, IsUuid m.id) {nodes : Map NodeId Client.Node}
    {texts : Map String Inner.Node} (h : texts[uuid.toString n]? = nodes[n]?.map shownNode) :
    (listed.foldl (keepText uuid) texts)[uuid.toString n]? =
      (listed.foldl keepNode nodes)[n]?.map shownNode := by
  induction listed generalizing nodes texts with
  | nil => exact h
  | cons m listed ih =>
    have hm : IsUuid m.id := hlisted m List.mem_cons_self
    refine ih (fun node hnode => hlisted node (List.mem_cons_of_mem _ hnode)) ?_
    rw [keepText, keepNode, Std.ExtTreeMap.getElem?_insert, Std.ExtTreeMap.getElem?_insert]
    simp only [compare_eq_iff_eq, toString_inj huuid hm hn]
    split
    · rfl
    · exact h

/-- The replicas taken out of a state on the wire are those of the
state. -/
theorem replicas_written (order : Iteration) (out : TableOrder)
    (table : Map PartitionId (Finset NodeId)) (p : PartitionId) :
    ((Inner.replicasOf order (domainOldReplicasToGrpc uuid out table))[p.id]?).map List.toFinset =
      table[p]?.map (Finset.image uuid.toString) := by
  have htaken : (Inner.replicasOf order (domainOldReplicasToGrpc uuid out table))[p.id]? =
      (domainOldReplicasToGrpc uuid out table)[p.id]?.map GrpcReplicas.replicas :=
    Map.getElem?_rekeyed Function.injective_id (fun _ (r : GrpcReplicas) => r.replicas) order _ p.id
  rw [htaken, domainOldReplicasToGrpc, getElem?_tableToGrpc, Option.map_map, Option.map_map]
  congr 1
  funext nodes
  exact toFinset_nodesToGrpc _ nodes

/-- **A state read from the wire is the state applied.** -/
theorem Shows.applyState (h : Shows uuid inner topology) (huuid : uuid.Lawful)
    (hempty : uuid.parseStr "" = none) {state : ClusterState} (hstate : Canonical state)
    (out : WriteOrder) (orders : Inner.ReplicaOrders) :
    Shows uuid (Inner.applyState orders inner (handleOutputClusterState uuid out state))
      (Client.applyState topology state) := by
  have houtdated := h.outdated huuid hempty hstate.leader out
  unfold Inner.applyState Client.applyState
  by_cases hold : Client.outdated topology state = true
  · rw [if_pos hold, if_pos (houtdated.2 hold)]
    exact h
  rw [if_neg hold, if_neg fun hwire => hold (houtdated.1 hwire)]
  have hmapping : ∀ p : PartitionId,
      ((domainPartitionMappingToGrpc uuid out.mapping state.partitions.mapping)[p.id]?).map
          holdersOf =
        state.partitions.mapping[p]?.map fun e =>
          (uuid.toString e.master, e.replicas.image uuid.toString) := by
    intro p
    rw [domainPartitionMappingToGrpc, getElem?_tableToGrpc, Option.map_map]
    congr 1
    funext e
    exact Prod.ext rfl (toFinset_nodesToGrpc _ e.replicas)
  have hisUuid : ∀ leader ∈ some state.leaderId, IsUuid leader := by
    rintro leader ⟨⟩
    exact hstate.leader
  -- The node list of a state that only updates the table is empty on both sides.
  by_cases hnodes : state.nodes = []
  · have hwire : (handleOutputClusterState uuid out state).nodes = [] := by
      rw [handleOutputClusterState, hnodes]
      rfl
    simp only [if_pos hnodes, if_pos hwire]
    exact ⟨rfl, rfl, hisUuid, h.nodes, hmapping, replicas_written _ _ _, replicas_written _ _ _,
      hstate.partitions⟩
  · have hwire : (handleOutputClusterState uuid out state).nodes ≠ [] := by
      rw [handleOutputClusterState]
      exact fun hnil => hnodes (List.map_eq_nil_iff.1 hnil)
    simp only [if_neg hnodes, if_neg hwire, collect_nodes]
    exact ⟨rfl, rfl, hisUuid,
      fun n hn => foldl_keepNode huuid hn state.nodes hstate.nodes (by simp), hmapping,
      replicas_written _ _ _, replicas_written _ _ _, hstate.partitions⟩

/-! ## Where the client goes -/

/-- What a client on the wire makes of an error. -/
def errorText (uuid : Uuid) : Client.Error → Inner.Error
  | .partitionUnavailable partitionId => .partitionUnavailable partitionId.id
  | .unknownWorker nodeId => .unknownWorker (uuid.toString nodeId)
  | .workerRequest nodeId reason => .workerRequest (uuid.toString nodeId) reason

theorem Shows.writeTargets (h : Shows uuid inner topology) (key : Key) :
    Inner.writeTargets inner key =
      ((Client.writeTargets topology key).map (Finset.image uuid.toString)).mapError
        (errorText uuid) := by
  have hp := h.mapping (Client.partition key)
  unfold Inner.writeTargets Client.writeTargets
  change (inner.mapping[Inner.partition key]?).map holdersOf = _ at hp
  cases he : topology.partitions.mapping[Client.partition key]? with
  | none =>
    rw [he, Option.map_none, Option.map_eq_none_iff] at hp
    rw [hp]
    rfl
  | some e =>
    rw [he, Option.map_some, Option.map_eq_some_iff] at hp
    obtain ⟨g, hg, heq⟩ := hp
    obtain ⟨hmaster, hreplicas⟩ := Prod.mk.inj heq
    rw [hg]
    simp only [hmaster, hreplicas, Except.map, Except.mapError, Finset.image_insert]

theorem toFinset_getD {texts : Option (List String)} {nodes : Option (Finset NodeId)}
    (h : texts.map List.toFinset = nodes.map (Finset.image uuid.toString)) :
    (texts.getD []).toFinset = (nodes.getD ∅).image uuid.toString := by
  cases texts with
  | none =>
    cases nodes with
    | none => simp
    | some nodes => cases h
  | some texts =>
    cases nodes with
    | none => cases h
    | some nodes => exact Option.some.inj h

/-- All a read may ask have UUIDs. -/
theorem isUuid_of_table {table : Partitions} (h : CanonicalTable table) {p : PartitionId}
    {e : Partition} (he : table.mapping[p]? = some e) :
    IsUuid e.master ∧ ∀ n ∈ e.replicas ∪ table.oldReplicas[p]?.getD ∅ ∪
      table.newReplicas[p]?.getD ∅, IsUuid n := by
  have hholders := (h.mapping p e he).2
  refine ⟨hholders _ (Partition.mem_holders.2 (Or.inl rfl)), fun n hn => ?_⟩
  rw [Finset.mem_union, Finset.mem_union] at hn
  rcases hn with (hn | hn) | hn
  · exact hholders n (Partition.mem_holders.2 (Or.inr hn))
  · cases hold : table.oldReplicas[p]? with
    | none => simp [hold] at hn
    | some old =>
      rw [hold] at hn
      exact (h.oldReplicas p old hold).2 n hn
  · cases hnew : table.newReplicas[p]? with
    | none => simp [hnew] at hn
    | some new =>
      rw [hnew] at hn
      exact (h.newReplicas p new hnew).2 n hn

theorem Shows.readTargets (h : Shows uuid inner topology) (huuid : uuid.Lawful) (key : Key) :
    Inner.readTargets inner key =
      ((Client.readTargets topology key).map fun targets =>
        (uuid.toString targets.1, targets.2.image uuid.toString)).mapError (errorText uuid) := by
  have hp := h.mapping (Client.partition key)
  unfold Inner.readTargets Client.readTargets
  change (inner.mapping[Inner.partition key]?).map holdersOf = _ at hp
  cases he : topology.partitions.mapping[Client.partition key]? with
  | none =>
    rw [he, Option.map_none, Option.map_eq_none_iff] at hp
    rw [hp]
    rfl
  | some e =>
    rw [he, Option.map_some, Option.map_eq_some_iff] at hp
    obtain ⟨g, hg, heq⟩ := hp
    obtain ⟨hmaster, hreplicas⟩ := Prod.mk.inj heq
    obtain ⟨hisUuid, hall⟩ := isUuid_of_table h.canonical he
    have hold := toFinset_getD (h.oldReplicas (Client.partition key))
    have hnew := toFinset_getD (h.newReplicas (Client.partition key))
    change (inner.oldReplicas[Inner.partition key]?.getD []).toFinset = _ at hold
    change (inner.newReplicas[Inner.partition key]?.getD []).toFinset = _ at hnew
    rw [hg]
    simp only [hmaster, hreplicas, hold, hnew, Except.map, Except.mapError, ← Finset.image_union,
      image_erase huuid hall hisUuid]

theorem Shows.worker (h : Shows uuid inner topology) {Connection : Type}
    {texts : Map String Connection} {workers : Map NodeId Connection} {n : NodeId} (hn : IsUuid n)
    (hworkers : texts[uuid.toString n]? = workers[n]?)
    (dial : String → Except String Connection) :
    Inner.worker texts inner dial (uuid.toString n) =
      (Client.worker workers topology dial n).mapError (errorText uuid) := by
  have hnode := h.nodes n hn
  unfold Inner.worker Client.worker
  rw [hworkers, hnode]
  cases workers[n]? with
  | some connection => rfl
  | none =>
    cases topology.nodes[n]? with
    | none => rfl
    | some node =>
      show (dial node.endpoint).mapError _ = ((dial node.endpoint).mapError _).mapError _
      cases dial node.endpoint <;> rfl

/-- A state a client is told of, how it was written and how it is read. -/
structure Told where
  state : ClusterState
  write : WriteOrder
  read : Inner.ReplicaOrders

theorem shows_told (huuid : uuid.Lawful) (hempty : uuid.parseStr "" = none) {told : List Told}
    (htold : ∀ e ∈ told, Canonical e.state) (h : Shows uuid inner topology) :
    Shows uuid
      (told.foldl (fun inner e => Inner.applyState e.read inner
        (handleOutputClusterState uuid e.write e.state)) inner)
      (told.foldl (fun topology e => Client.applyState topology e.state) topology) := by
  induction told generalizing inner topology with
  | nil => exact h
  | cons e told ih =>
    refine ih (fun e he => htold e (List.mem_cons_of_mem _ he)) ?_
    exact h.applyState huuid hempty (htold e List.mem_cons_self) e.write e.read

end Wire

namespace Election

/-- **A client on the wire goes where the client goes.** Whatever cluster
states of a run of the managers have reached a client, in whatever order,
and in whatever orders they were written to the wire and read from it, the
texts it reads from, falls back to and writes to are those of the nodes
that `Client` routes the key to, it fails where that fails, and a node's
text leads it to the connection or the endpoint of that node. -/
theorem client_reads_the_wire (uuid : Wire.Uuid) (huuid : uuid.Lawful)
    (hempty : uuid.parseStr "" = none) (c : Cluster) (actions : List Action) (hstart : c.Booted)
    (hok : Along Cluster.act Open c actions)
    (hids : ∀ a ∈ actions, Truthful (fun _ n => Wire.IsUuid n) a) (told : List Wire.Told)
    (htold : ∀ e ∈ told, Sent (run Cluster.act c actions) e.state) :
    let topology := told.foldl (fun topology e => Client.applyState topology e.state) default
    let inner := told.foldl (fun inner e => Wire.Inner.applyState e.read inner
      (Wire.handleOutputClusterState uuid e.write e.state)) default
    (∀ key : Key,
      Wire.Inner.readTargets inner key =
          ((Client.readTargets topology key).map fun targets =>
            (uuid.toString targets.1, targets.2.image uuid.toString)).mapError
              (Wire.errorText uuid) ∧
        Wire.Inner.writeTargets inner key =
          ((Client.writeTargets topology key).map (Finset.image uuid.toString)).mapError
            (Wire.errorText uuid)) ∧
      ∀ (Connection : Type) (texts : Map String Connection) (workers : Map NodeId Connection)
        (dial : String → Except String Connection) (n : NodeId), Wire.IsUuid n →
        texts[uuid.toString n]? = workers[n]? →
        Wire.Inner.worker texts inner dial (uuid.toString n) =
          (Client.worker workers topology dial n).mapError (Wire.errorText uuid) := by
  intro topology inner
  have hcanonical : ∀ e ∈ told, Wire.Canonical e.state :=
    fun e he => canonical_of_sent hstart hok hids (htold e he)
  have hshows : Wire.Shows uuid inner topology :=
    Wire.shows_told huuid hempty hcanonical Wire.shows_default
  exact ⟨fun key => ⟨hshows.readTargets huuid key, hshows.writeTargets key⟩,
    fun _ _ _ dial _ hn hworkers => hshows.worker hn hworkers dial⟩

/-- The states the client of manager 1 is told, written and read
backwards. -/
def toldBackwards : List Wire.Told :=
  told.map fun state => ⟨state,
    ⟨⟨Wire.backwards, fun _ => Wire.backwards⟩, ⟨Wire.backwards, fun _ => Wire.backwards⟩,
      ⟨Wire.backwards, fun _ => Wire.backwards⟩⟩, ⟨Wire.backwards, Wire.backwards⟩⟩

/-- The client writes to worker 3, and finds manager 1 under its text. -/
theorem client_reads_the_wire_told :
    let inner := toldBackwards.foldl (fun inner e => Wire.Inner.applyState e.read inner
      (Wire.handleOutputClusterState Wire.hyphenated e.write e.state)) default
    Wire.Inner.writeTargets inner ⟨0⟩ = .ok {"00000000-0000-0000-0000-000000000003"} ∧
      Wire.Inner.worker ∅ inner Except.ok "00000000-0000-0000-0000-000000000001" =
        .ok "http://m:1" := by
  intro inner
  have hsent : ∀ e ∈ toldBackwards,
      Sent (run Cluster.act bootedCluster workerJoins) e.state := by
    intro e he
    obtain ⟨state, hstate, rfl⟩ := List.mem_map.1 he
    exact sent_told state hstate
  obtain ⟨hroutes, hworker⟩ := client_reads_the_wire Wire.hyphenated Wire.hyphenated_lawful
    (by decide +kernel) bootedCluster workerJoins booted_bootedCluster open_workerJoins
    truthful_workerJoins toldBackwards hsent
  have htopology : toldBackwards.foldl
      (fun topology e => Client.applyState topology e.state) default =
        told.foldl Client.applyState default := rfl
  rw [htopology] at hroutes hworker
  refine ⟨?_, (hworker String ∅ ∅ Except.ok ⟨1⟩ (by decide) rfl).trans (by decide +kernel)⟩
  obtain ⟨e, he, hholders⟩ := mapping_stateOverThree
  have hwrite : Client.writeTargets (told.foldl Client.applyState default) ⟨0⟩ =
      .ok {⟨3⟩} := by
    rw [Client.writeTargets, partitions_told, Client.partition_eq,
      show (⟨0⟩ : Key).partition = ⟨0⟩ from by simp [Key.partition], he, ← hholders]
    rfl
  have htext : Wire.hyphenated.toString ⟨3⟩ = "00000000-0000-0000-0000-000000000003" := by
    decide +kernel
  rw [(hroutes ⟨0⟩).2, hwrite, Except.map, Except.mapError, Finset.image_singleton, htext]

end Election

end NoSqlStore
