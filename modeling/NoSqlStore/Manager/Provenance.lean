import NoSqlStore.Election.Moves
import NoSqlStore.Manager.Followers
import NoSqlStore.Manager.Placement
import NoSqlStore.Worker.Recipients
/-!
# Where the tables come from

Partition tables are computed by leaders and copied from manager to
manager, to the workers and to the clients. Whatever the membership does
and whatever the order of deliveries, every copy is one that a leader can
have computed for workers that had joined: its mapping is empty or covers
every partition, no entry of the old replicas is empty, the new replicas
are holders (`Partitions.WellFormed`). The invariant is one of the cluster
(`Traced`): of every manager's state, and of every message sent, since a
state is listed in a message and merged from one.
-/

namespace NoSqlStore

open Manager Runs

/-- **A table a leader can have computed** for workers that have joined. -/
structure Partitions.WellFormed (joined : NodeId → Prop) (t : Partitions) : Prop where
  mapping : t.mapping = ∅ ∨ ∃ rf vec, 0 < rf ∧ vec ≠ [] ∧ vec.Nodup ∧ (∀ n ∈ vec, joined n) ∧
    t.mapping = newMapping partitionsAmount rf vec
  oldReplicas : ∀ (p : PartitionId) (old : Finset NodeId), t.oldReplicas[p]? = some old →
    p.id < partitionsAmount ∧ old ≠ ∅ ∧ ∀ n ∈ old, joined n
  newReplicas : ∀ (p : PartitionId) (new : Finset NodeId), t.newReplicas[p]? = some new →
    p.id < partitionsAmount ∧ new ⊆ t.holders p

namespace Partitions

variable {joined : NodeId → Prop} {t : Partitions} {p : PartitionId} {n : NodeId}

/-! ## What a leader does to a table -/

theorem wellFormed_default : WellFormed joined default := by
  refine ⟨Or.inl rfl, fun p old h => ?_, fun p new h => ?_⟩
  · simp [default] at h
  · simp [default] at h

theorem WellFormed.of_mem_holders (h : t.WellFormed joined) (hn : n ∈ t.holders p) :
    p.id < partitionsAmount ∧ joined n := by
  obtain ⟨e, he, hmem⟩ := Partitions.mem_holders.1 hn
  rcases h.mapping with hempty | ⟨rf, vec, hrf, hvec, -, hjoined, hmap⟩
  · simp [hempty] at he
  · rw [hmap] at he
    by_cases hp : p.id < partitionsAmount
    · obtain ⟨e', he', hnamed⟩ := exists_newMapping hvec hrf hp
      rw [he', Option.some_inj] at he
      subst he
      exact ⟨hp, hjoined n (hnamed n hmem)⟩
    · rw [newMapping_eq_none hp] at he
      cases he

theorem WellFormed.of_mem_olds (h : t.WellFormed joined) (hn : n ∈ t.olds p) :
    p.id < partitionsAmount ∧ joined n := by
  obtain ⟨old, hold, hmem⟩ := Partitions.mem_olds.1 hn
  obtain ⟨hp, -, hjoined⟩ := h.oldReplicas p old hold
  exact ⟨hp, hjoined n hmem⟩

/-- The holders of the mapping join the old replicas. -/
theorem WellFormed.copy (h : t.WellFormed joined) (vec : List NodeId) :
    (copyCurrentMappingToOld t vec).WellFormed joined := by
  refine ⟨h.mapping, fun p old hold => ?_, h.newReplicas⟩
  rw [oldReplicas_copy] at hold
  split at hold
  · cases hold
  · rename_i hne
    rw [Option.some_inj] at hold
    subst hold
    have hall : ∀ n ∈ (t.olds p ∪ t.holders p).filter (· ∈ vec),
        p.id < partitionsAmount ∧ joined n := by
      intro n hn
      rw [Finset.mem_filter, Finset.mem_union] at hn
      exact hn.1.elim h.of_mem_olds h.of_mem_holders
    obtain ⟨n, hn⟩ := Finset.nonempty_iff_ne_empty.2 hne
    exact ⟨(hall n hn).1, hne, fun n hn => (hall n hn).2⟩

theorem WellFormed.recompute (h : t.WellFormed joined) {rf : ℕ} {vec : List NodeId}
    (hrf : 0 < rf) (hvec : vec ≠ []) (hnodup : vec.Nodup) (hjoined : ∀ n ∈ vec, joined n) :
    (recompute t rf vec).WellFormed joined := by
  refine ⟨Or.inr ⟨rf, vec, hrf, hvec, hnodup, hjoined, mapping_recompute rf⟩,
    (h.copy vec).oldReplicas, fun p new hnew => ?_⟩
  cases hold : t.mapping[p]? with
  | none =>
    -- A partition without holders has no new ones either.
    rw [newReplicas_recompute_of_none hold] at hnew
    obtain ⟨hp, hsub⟩ := h.newReplicas p new hnew
    have hnone : t.holders p = ∅ := by simp [Partitions.holders, hold]
    rw [hnone, Finset.subset_empty] at hsub
    exact ⟨hp, hsub ▸ Finset.empty_subset _⟩
  | some old =>
    have hmem : old.master ∈ t.holders p := Partitions.mem_holders.2 ⟨old, hold, by simp⟩
    have hp : p.id < partitionsAmount := (h.of_mem_holders hmem).1
    rw [newReplicas_recompute hvec hrf hp hold, Option.some_inj] at hnew
    exact ⟨hp, hnew ▸ Finset.sdiff_subset⟩

theorem oldReplicas_removeOldReplica {w : NodeId} {q : PartitionId} {old : Finset NodeId}
    (h : (removeOldReplica t w q).oldReplicas[p]? = some old) :
    t.oldReplicas[p]? = some old ∨
      (old ≠ ∅ ∧ ∃ before, t.oldReplicas[p]? = some before ∧ old = before.erase w) := by
  unfold removeOldReplica at h
  split at h
  · rename_i before hbefore
    split at h
    · dsimp only at h
      split at h
      · rw [Std.ExtTreeMap.getElem?_erase] at h
        split at h
        · cases h
        · exact Or.inl h
      · rename_i hne
        rw [Std.ExtTreeMap.getElem?_insert] at h
        split at h
        · rename_i heq
          rw [compare_eq_iff_eq] at heq
          rw [Option.some_inj] at h
          exact Or.inr ⟨h ▸ hne, before, heq ▸ hbefore, h.symm⟩
        · exact Or.inl h
    · exact Or.inl h
  · exact Or.inl h

theorem WellFormed.removeOldReplica (h : t.WellFormed joined) (w : NodeId) (q : PartitionId) :
    (removeOldReplica t w q).WellFormed joined := by
  refine ⟨by rw [mapping_removeOldReplica]; exact h.mapping, fun p old hold => ?_,
    fun p new hnew => ?_⟩
  · rcases oldReplicas_removeOldReplica hold with hsame | ⟨hne, before, hbefore, rfl⟩
    · exact h.oldReplicas p old hsame
    · obtain ⟨hp, -, hjoined⟩ := h.oldReplicas p before hbefore
      exact ⟨hp, hne, fun n hn => hjoined n (Finset.mem_of_mem_erase hn)⟩
  · rw [newReplicas_removeOldReplica] at hnew
    rw [Partitions.holders, mapping_removeOldReplica]
    exact h.newReplicas p new hnew

/-- **A property of tables that a leader keeps**, whatever it does to one
with the workers that have joined. -/
structure Kept (joined : NodeId → Prop) (P : Partitions → Prop) : Prop where
  start : P default
  recomputed : ∀ t rf vec, 0 < rf → vec ≠ [] → vec.Nodup → (∀ n ∈ vec, joined n) → P t →
    P (Manager.recompute t rf vec)
  emptied : ∀ t, P t → P (copyCurrentMappingToOld t [])
  acknowledged : ∀ t w p, P t → P (Manager.removeOldReplica t w p)

theorem kept_wellFormed (joined : NodeId → Prop) : Kept joined (WellFormed joined) where
  start := wellFormed_default
  recomputed _ _ _ hrf hvec hnodup hjoined h := h.recompute hrf hvec hnodup hjoined
  emptied _ h := h.copy []
  acknowledged _ w p h := h.removeOldReplica w p

/-- The tables a leader reaches are kept by definition. -/
theorem kept_reachable (joined : NodeId → Prop) : Kept joined Reachable where
  start := .empty
  recomputed t rf vec hrf hvec _ _ h := .recomputed t rf vec h hvec hrf
  emptied t h := .noWorkers t h
  acknowledged t w p h := .acknowledged t w p h

theorem Kept.and {P P' : Partitions → Prop} (h : Kept joined P) (h' : Kept joined P') :
    Kept joined fun t => P t ∧ P' t where
  start := ⟨h.start, h'.start⟩
  recomputed t rf vec hrf hvec hnodup hjoined ht :=
    ⟨h.recomputed t rf vec hrf hvec hnodup hjoined ht.1,
      h'.recomputed t rf vec hrf hvec hnodup hjoined ht.2⟩
  emptied t ht := ⟨h.emptied t ht.1, h'.emptied t ht.2⟩
  acknowledged t w p ht := ⟨h.acknowledged t w p ht.1, h'.acknowledged t w p ht.2⟩

end Partitions

/-! ## What a message can list and a turn send -/

namespace Manager

variable {s : Service} {msg : ManagerProtocol} {r : Readings} {n : NodeId} {node : Node}
  {rcpt : NodeId} {st : ClusterState}

/-- The message tells of a node of this type. A cluster state tells of
workers only: a manager it lists is dialled, and tells of itself. -/
def Tells (n : NodeId) (type : NodeType) : ManagerProtocol → Prop
  | .newConnection id _ _ manager => id = some n ∧ type = if manager then .manager else .worker
  | .clusterState _ st => type = .worker ∧ ∃ item ∈ st.nodes, item.id = n ∧ item.nodeType = type
  | _ => False

theorem nodes_mergeNode {acc : Map NodeId Node × List ManagerProtocol} {item : ClusterNode}
    (h : (mergeNode acc item).1[n]? = some node) :
    (∃ before, acc.1[n]? = some before ∧ before.nodeType = node.nodeType) ∨
      (node.nodeType = .worker ∧ item.id = n ∧ item.nodeType = node.nodeType) := by
  unfold mergeNode at h
  split at h
  · rename_i old hold
    split at h
    · rw [Std.ExtTreeMap.getElem?_insert] at h
      split at h
      · rename_i heq
        rw [compare_eq_iff_eq] at heq
        rw [Option.some_inj] at h
        exact Or.inl ⟨old, heq ▸ hold, h ▸ rfl⟩
      · exact Or.inl ⟨node, h, rfl⟩
    · exact Or.inl ⟨node, h, rfl⟩
  · split at h
    · exact Or.inl ⟨node, h, rfl⟩
    · rename_i hworker
      dsimp only at h
      rw [Std.ExtTreeMap.getElem?_insert] at h
      split at h
      · rename_i heq
        rw [compare_eq_iff_eq] at heq
        rw [Option.some_inj] at h
        subst h
        exact Or.inr ⟨hworker, heq, rfl⟩
      · exact Or.inl ⟨node, h, rfl⟩

theorem nodes_foldl_mergeNode (items : List ClusterNode)
    {acc : Map NodeId Node × List ManagerProtocol}
    (h : (items.foldl mergeNode acc).1[n]? = some node) :
    (∃ before, acc.1[n]? = some before ∧ before.nodeType = node.nodeType) ∨
      (node.nodeType = .worker ∧ ∃ item ∈ items, item.id = n ∧ item.nodeType = node.nodeType) := by
  induction items generalizing acc with
  | nil => exact Or.inl ⟨node, h, rfl⟩
  | cons item items ih =>
    rcases ih h with ⟨between, hbetween, htype⟩ | ⟨hworker, other, hmem, htold⟩
    · rcases nodes_mergeNode hbetween with ⟨before, hbefore, hsame⟩ | ⟨hworker, hid, hsame⟩
      · exact Or.inl ⟨before, hbefore, hsame.trans htype⟩
      · exact Or.inr ⟨htype ▸ hworker, item, List.mem_cons_self, hid, hsame.trans htype⟩
    · exact Or.inr ⟨hworker, other, List.mem_cons_of_mem _ hmem, htold⟩

theorem nodes_insert {nodes : Map NodeId Node} {id : NodeId} {new : Node}
    (h : (nodes.insert id new)[n]? = some node) :
    (id = n ∧ new = node) ∨ nodes[n]? = some node := by
  rw [Std.ExtTreeMap.getElem?_insert] at h
  split at h
  · rename_i heq
    rw [compare_eq_iff_eq] at heq
    exact Or.inl ⟨heq, Option.some.inj h⟩
  · exact Or.inr h

/-- A heartbeat, or the acknowledgement of a leader, keeps every type. -/
theorem nodes_beat {nodes : Map NodeId Node} {id : NodeId} {old : Node} {ts : ℕ}
    (hold : nodes[id]? = some old)
    (h : (nodes.insert id { old with lastHeartbeat := ts })[n]? = some node) :
    ∃ before, nodes[n]? = some before ∧ before.nodeType = node.nodeType := by
  rcases nodes_insert h with ⟨rfl, rfl⟩ | hn
  · exact ⟨old, hold, rfl⟩
  · exact ⟨node, hn, rfl⟩

/-- **A node is listed because it was, or because the message tells of
it.** -/
theorem nodes_handle (h : (s.handle msg r).1.state.nodes[n]? = some node) :
    (∃ before, s.state.nodes[n]? = some before ∧ before.nodeType = node.nodeType) ∨
      Tells n node.nodeType msg := by
  have hsame : s.state.nodes[n]? = some node →
      (∃ before, s.state.nodes[n]? = some before ∧ before.nodeType = node.nodeType) ∨
        Tells n node.nodeType msg := fun hn => Or.inl ⟨node, hn, rfl⟩
  cases msg with
  | newConnection id host port manager =>
    cases id with
    | none => exact hsame h
    | some id =>
      rcases nodes_insert h with ⟨rfl, rfl⟩ | hn
      · exact Or.inr ⟨rfl, rfl⟩
      · exact hsame hn
  | heartbeat sender id ts =>
    simp only [Service.handle, handleHeartbeat] at h
    split at h
    · exact hsame h
    · rename_i old hold
      exact Or.inl (nodes_beat hold h)
  | getClusterState id => exact hsame h
  | clusterState rcpt st =>
    simp only [Service.handle, handleClusterState] at h
    split at h
    · have hkept : (st.nodes.foldl mergeNode
          (retainListed s.state.nodes st.nodes s.me, [])).1[n]? = some node := by
        split at h <;> exact h
      rcases nodes_foldl_mergeNode st.nodes hkept with ⟨before, hbefore, htype⟩ | htold
      · unfold retainListed at hbefore
        split at hbefore
        · exact Or.inl ⟨before, hbefore, htype⟩
        · rw [Std.ExtTreeMap.getElem?_filter'] at hbefore
          exact Or.inl ⟨before, (Option.filter_eq_some_iff.1 hbefore).1, htype⟩
      · exact Or.inr htold
    · exact hsame h
  | voteRequest id epoch ts => exact hsame h
  | voteResponse id leaderId ts =>
    simp only [Service.handle, handleVoteResponse] at h
    split at h
    · split at h <;> exact hsame h
    · split at h <;> exact hsame h
  | leader id epoch ts =>
    simp only [Service.handle, handleLeader] at h
    split at h
    · split at h
      · rename_i old hold
        split at h
        · exact Or.inl (nodes_beat hold h)
        · exact hsame h
      · exact hsame h
    · exact hsame h
  | nodeDisconnected id =>
    simp only [Service.handle, handleNodeDisconnected] at h
    split at h
    · rw [Std.ExtTreeMap.getElem?_erase] at h
      split at h
      · cases h
      · exact hsame h
    · exact hsame h
  | removePartitionFromReplica id replicaId partitionId => exact hsame h

theorem nodes_tick (h : (s.tick r).1.state.nodes[n]? = some node) :
    ∃ before, s.state.nodes[n]? = some before ∧ before.nodeType = node.nodeType := by
  simp only [Service.tick, workerPartitions_nodes] at h
  have htype := @heartbeats_nodeType s.state s.me r.heartbeatNow r.heartbeatRandom n
  rw [h, Option.map_some, eq_comm, Option.map_eq_some_iff] at htype
  exact htype

/-- **What a handler sends**, and what of. -/
inductive Sends (s : Service) (msg : ManagerProtocol) (r : Readings) : ManagerProtocol → Prop
  | asks (id : NodeId) : Sends s msg r (.getClusterState id)
  | dials (host : String) (port : ℕ) : Sends s msg r (.newConnection none host port true)
  | beats (id sender beating : NodeId) (ts : ℕ) (told : msg = .heartbeat sender beating ts) :
      Sends s msg r (.heartbeat id beating ts)
  | strikes (id sender replicaId : NodeId) (p : PartitionId)
      (told : msg = .removePartitionFromReplica sender replicaId p) :
      Sends s msg r (.removePartitionFromReplica id replicaId p)
  /-- It answers with the state it has. -/
  | answers (id : NodeId) (st : ClusterState) (epoch : s.state.epoch = some st.epoch)
      (leader : s.state.electedLeaderId = some st.leaderId)
      (nodes : st.nodes = listNodes s.state.nodes) (table : st.partitions = s.state.partitions) :
      Sends s msg r (.clusterState id st)
  /-- It votes for the one who asks, or names the one it has voted for. -/
  | votes (id candidate : NodeId) (e ts ts' : ℕ) (request : msg = .voteRequest id e ts)
      (voted : candidate = id ∧ ts' = ts ∧ Election.Willing s e ts ∨
        s.elections[e]? = some (.other ts' candidate)) :
      Sends s msg r (.voteResponse id candidate ts')
  /-- It has counted the last vote. -/
  | announces (id voter : NodeId) (e ts : ℕ) (approvers : Finset NodeId)
      (vote : msg = .voteResponse voter s.me.id ts)
      (election : approvedElection s.elections s.me s.me.id ts = some (e, approvers))
      (last : unanimous s.state s.me (insert voter approvers) = true)
      (epoch : (s.handle msg r).1.state.epoch = some e)
      (leader : (s.handle msg r).1.state.electedLeaderId = some s.me.id) :
      Sends s msg r (.leader id e ts)

theorem sends_of_handle {o : ManagerProtocol} (ho : o ∈ (s.handle msg r).2) : Sends s msg r o := by
  have hasked : o ∈ askManagers s.state s.me → Sends s msg r o := by
    intro h
    obtain ⟨id, -, rfl⟩ := List.mem_map.1 h
    exact .asks id
  cases msg with
  | newConnection id host port manager =>
    cases id with
    | none => simp [Service.handle, handleNewConnection] at ho
    | some id =>
      simp only [Service.handle, handleNewConnection] at ho
      split at ho
      · rw [List.mem_singleton] at ho
        exact ho ▸ .asks id
      · cases ho
  | heartbeat sender id ts =>
    simp only [Service.handle, handleHeartbeat] at ho
    split at ho
    · exact hasked ho
    · dsimp only at ho
      split at ho
      · obtain ⟨key, -, rfl⟩ := List.mem_map.1 ho
        exact .beats key sender id ts rfl
      · cases ho
  | getClusterState id =>
    simp only [Service.handle, handleGetClusterState] at ho
    split at ho
    · rename_i epoch leaderId hepoch hleader
      rw [List.mem_singleton] at ho
      exact ho ▸ .answers id _ hepoch hleader rfl rfl
    · cases ho
  | clusterState rcpt st =>
    simp only [Service.handle, handleClusterState] at ho
    split at ho
    · obtain ⟨host, port, rfl⟩ := Election.foldl_mergeNode_output st.nodes
        (fun o ho => absurd ho List.not_mem_nil) _ ho
      exact .dials host port
    · cases ho
  | voteRequest id e ts =>
    simp only [Service.handle, handleVoteRequest] at ho
    split at ho
    · rename_i hnewer
      split at ho
      · rename_i hreplaces
        rw [List.mem_singleton] at ho
        exact ho ▸ .votes id id e ts ts rfl (Or.inl ⟨rfl, rfl, hnewer, hreplaces⟩)
      · split at ho
        · rw [List.mem_singleton] at ho
          rename_i hvoted
          exact ho ▸ .votes id _ e ts _ rfl (Or.inr hvoted)
        · cases ho
    · cases ho
  | voteResponse voter leaderId ts =>
    simp only [Service.handle, handleVoteResponse] at ho
    split at ho
    · rename_i e approvers happ
      obtain rfl := approvedElection_leader happ
      split at ho
      · rename_i hall
        obtain ⟨key, -, rfl⟩ := List.mem_map.1 ho
        refine .announces key voter e ts approvers rfl happ hall ?_ ?_
        · simp [Service.handle, handleVoteResponse, happ, hall]
        · simp [Service.handle, handleVoteResponse, happ, hall]
      · cases ho
    · split at ho
      · cases ho
      · exact hasked ho
  | leader id epoch ts =>
    simp only [Service.handle, handleLeader] at ho
    split at ho
    · split at ho
      · split at ho
        · cases ho
        · exact hasked ho
      · exact hasked ho
    · cases ho
  | nodeDisconnected id => cases ho
  | removePartitionFromReplica id replicaId partitionId =>
    simp only [Service.handle, handleRemoveOldPartition] at ho
    split at ho
    · obtain ⟨key, -, rfl⟩ := List.mem_map.1 ho
      exact .strikes key id replicaId partitionId rfl
    · cases ho

/-- **What a tick sends**, and what of. -/
inductive TickSends (s : Service) (r : Readings) : ManagerProtocol → Prop
  | beats (id : NodeId) (ts : ℕ) : TickSends s r (.heartbeat id s.me.id ts)
  | requests (id : NodeId) (e ts : ℕ) (other : id ∈ s.state.otherManagers s.me) :
      TickSends s r (.voteRequest id e ts)
  /-- It tells of the table it has computed. -/
  | tells (id : NodeId) (st : ClusterState) (leads : s.state.electedLeaderId = some s.me.id)
      (epoch : st.epoch = s.state.epoch.getD 0) (leader : st.leaderId = s.me.id)
      (nodes : st.nodes = []) (table : st.partitions = (s.tick r).1.state.partitions) :
      TickSends s r (.clusterState id st)

theorem sends_of_tick {o : ManagerProtocol} (ho : o ∈ (s.tick r).2) : TickSends s r o := by
  simp only [Service.tick] at ho
  rw [List.mem_append, List.mem_append] at ho
  rcases ho with (ho | ho) | ho
  · unfold heartbeats at ho
    split at ho
    · split at ho
      · dsimp only at ho
        split at ho
        · obtain ⟨key, -, rfl⟩ := List.mem_map.1 ho
          exact .beats key _
        · cases ho
      · cases ho
    · cases ho
  · unfold startElectionIfNeeded at ho
    split at ho
    · split at ho
      · obtain ⟨id, hid, rfl⟩ := List.mem_map.1 ho
        rw [mem_otherManagers, heartbeats_nodeType] at hid
        exact .requests id _ _ (mem_otherManagers.2 hid)
      · cases ho
    · cases ho
  · have hleader := @heartbeats_leader s.state s.me r.heartbeatNow r.heartbeatRandom
    have hepoch := @heartbeats_epoch s.state s.me r.heartbeatNow r.heartbeatRandom
    generalize hbeat : (heartbeats s.state s.me r.heartbeatNow r.heartbeatRandom).1 = beat
      at ho hleader hepoch
    rcases workerPartitions_outcome beat s.me r.replicationFactor with
      ⟨hout, -⟩ | ⟨hlead, -, state', hstate, hout⟩ | ⟨-, -, -, hout⟩
    · rw [hout] at ho
      cases ho
    · rw [hout] at ho
      obtain ⟨id, -, rfl⟩ := List.mem_map.1 ho
      have hticked : (s.tick r).1.state = state' := by simp only [Service.tick, hbeat, hout]
      refine .tells id _ ?_ ?_ ?_ rfl ?_
      · rcases hleader with hsame | hnone
        · exact hsame ▸ hlead
        · rw [hnone] at hlead
          cases hlead
      · rw [← hepoch, hstate]
        rfl
      · rw [hstate]
        show beat.electedLeaderId.getD ⟨0⟩ = s.me.id
        rw [hlead]
        rfl
      · rw [hticked]
        rfl
    · rw [hout] at ho
      cases ho

end Manager

end NoSqlStore
