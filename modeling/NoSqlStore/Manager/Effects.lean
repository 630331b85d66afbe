import NoSqlStore.Manager.Table
/-!
# What a message and a tick can do

One inversion for each half of a manager's state, so that no later
argument opens a handler again: `handle_decision` for the epoch and the
leader, `handle_table` for the partition table and the worker set it was
computed for, and their counterparts for the tick.
-/

namespace NoSqlStore

namespace Manager

variable {state : State} {me : Me} {s : Service} {msg : ManagerProtocol} {r : Readings}

/-! ## The parts of a tick -/

@[simp] theorem heartbeats_epoch (now random : ℕ) :
    (heartbeats state me now random).1.epoch = state.epoch := by
  unfold heartbeats
  split
  · split <;> rfl
  · rfl

@[simp] theorem heartbeats_partitions (now random : ℕ) :
    (heartbeats state me now random).1.partitions = state.partitions := by
  unfold heartbeats
  split
  · split <;> rfl
  · rfl

@[simp] theorem heartbeats_calculated (now random : ℕ) :
    (heartbeats state me now random).1.workersWithCalculatedPartitions =
      state.workersWithCalculatedPartitions := by
  unfold heartbeats
  split
  · split <;> rfl
  · rfl

/-- The heartbeat check keeps the leader or forgets it. -/
theorem heartbeats_leader (now random : ℕ) :
    (heartbeats state me now random).1.electedLeaderId = state.electedLeaderId ∨
      (heartbeats state me now random).1.electedLeaderId = none := by
  unfold heartbeats
  split
  · split
    · exact (ite_eq_or_eq _ _ _).symm
    · exact Or.inl rfl
  · exact Or.inl rfl

/-- A manager does not time itself out. -/
theorem heartbeats_leader_of_me (now random : ℕ) (h : state.electedLeaderId = some me.id) :
    (heartbeats state me now random).1.electedLeaderId = some me.id := by
  unfold heartbeats
  split
  · split
    · simp [h]
    · exact h
  · exact h

/-- The heartbeat check adds and removes no node and changes no type. -/
theorem heartbeats_nodeType (now random : ℕ) (id : NodeId) :
    (heartbeats state me now random).1.nodes[id]?.map Node.nodeType =
      state.nodes[id]?.map Node.nodeType := by
  unfold heartbeats
  split
  · rename_i node hnode
    split
    · dsimp only
      split
      · rw [Std.ExtTreeMap.getElem?_insert]
        split
        · rename_i heq
          rw [compare_eq_iff_eq] at heq
          subst heq
          simp [hnode]
        · rfl
      · rfl
    · rfl
  · rfl

@[simp] theorem workerPartitions_epoch (rf : ℕ) :
    (workerPartitions state me rf).1.epoch = state.epoch := by
  unfold workerPartitions
  split
  · dsimp only
    split
    · split <;> rfl
    · rfl
  · rfl

@[simp] theorem workerPartitions_leader (rf : ℕ) :
    (workerPartitions state me rf).1.electedLeaderId = state.electedLeaderId := by
  unfold workerPartitions
  split
  · dsimp only
    split
    · split <;> rfl
    · rfl
  · rfl

@[simp] theorem workerPartitions_nodes (rf : ℕ) :
    (workerPartitions state me rf).1.nodes = state.nodes := by
  unfold workerPartitions
  split
  · dsimp only
    split
    · split <;> rfl
    · rfl
  · rfl

@[simp] theorem workerPartitions_workers (rf : ℕ) :
    (workerPartitions state me rf).1.workers = state.workers := by
  rw [State.workers, workerPartitions_nodes, State.workers]

/-- The workers the node table lists, by membership. -/
theorem mem_workers {id : NodeId} :
    id ∈ state.workers ↔ state.nodes[id]?.map Node.nodeType = some .worker := by
  simp only [State.workers, List.mem_map, List.mem_filter, Prod.exists, exists_and_right,
    exists_eq_right, Map.mem_toList, Node.isWorker, decide_eq_true_eq, Option.map_eq_some_iff]

/-- The other managers of the node table, by membership. -/
theorem mem_otherManagers {id : NodeId} :
    id ∈ state.otherManagers me ↔
      id ≠ me.id ∧ state.nodes[id]?.map Node.nodeType = some .manager := by
  simp only [State.otherManagers, List.mem_map, List.mem_filter, Prod.exists, exists_and_right,
    exists_eq_right, Map.mem_toList, Node.isManager, decide_eq_true_eq, Option.map_eq_some_iff]
  constructor
  · rintro ⟨n, hn, hne, hm⟩
    exact ⟨hne, n, hn, hm⟩
  · rintro ⟨hne, n, hn, hm⟩
    exact ⟨n, hn, hne, hm⟩

theorem otherManagers_nodup : (state.otherManagers me).Nodup :=
  (Map.nodup_keys_toList state.nodes).sublist (List.filter_sublist.map Prod.fst)

/-- **An election is unanimous** if its approvers are the other managers of
the table. -/
theorem unanimous_iff {approvers : Finset NodeId} : unanimous state me approvers = true ↔
    ∀ id, id ∈ approvers ↔ id ≠ me.id ∧ state.nodes[id]?.map Node.nodeType = some .manager := by
  have hcard : (state.otherManagers me).toFinset.card = (state.otherManagers me).length :=
    List.toFinset_card_of_nodup otherManagers_nodup
  have hmem : ∀ id, id ∈ (state.otherManagers me).toFinset ↔
      id ≠ me.id ∧ state.nodes[id]?.map Node.nodeType = some .manager := by
    intro id
    rw [List.mem_toFinset, mem_otherManagers]
  rw [unanimous, decide_eq_true_eq, List.all_eq_true]
  constructor
  · rintro ⟨hsize, hall⟩ id
    have hsub : (state.otherManagers me).toFinset ⊆ approvers := fun n hn =>
      of_decide_eq_true (hall n (List.mem_toFinset.mp hn))
    rw [← hmem, Finset.eq_of_subset_of_card_le hsub (by omega)]
  · intro h
    have heq : approvers = (state.otherManagers me).toFinset := by
      ext id
      rw [h, hmem]
    refine ⟨by rw [heq, hcard], fun n hn => ?_⟩
    rw [decide_eq_true_eq, heq]
    exact List.mem_toFinset.mpr hn

/-- The nodes listed after the heartbeat check are those listed before. -/
theorem mem_nodes_heartbeats {now random : ℕ} {id : NodeId} :
    id ∈ (heartbeats state me now random).1.nodes ↔ id ∈ state.nodes := by
  rw [Std.ExtTreeMap.mem_iff_isSome_getElem?, Std.ExtTreeMap.mem_iff_isSome_getElem?,
    ← Option.isSome_map, heartbeats_nodeType, Option.isSome_map]

/-- The workers listed after the heartbeat check are those listed
before. -/
theorem workers_heartbeats (now random : ℕ) (id : NodeId) :
    id ∈ (heartbeats state me now random).1.workers ↔ id ∈ state.workers := by
  rw [mem_workers, mem_workers, heartbeats_nodeType]

/-- Two nodes in a table make it larger than one. -/
theorem size_ne_one {nodes : Map NodeId Node} {a b : NodeId} (ha : a ∈ nodes) (hb : b ∈ nodes)
    (hne : a ≠ b) : nodes.size ≠ 1 := by
  intro hsize
  obtain ⟨c, hc⟩ := List.length_eq_one_iff.mp
    ((Std.ExtTreeMap.length_keys (t := nodes)).trans hsize)
  have ha := Std.ExtTreeMap.mem_keys.mpr ha
  have hb := Std.ExtTreeMap.mem_keys.mpr hb
  rw [hc, List.mem_singleton] at ha hb
  exact hne (ha.trans hb.symm)

/-! ## The epoch and the leader -/

@[simp] theorem tick_me (r : Readings) : (s.tick r).1.me = s.me := rfl

@[simp] theorem tick_epoch (r : Readings) : (s.tick r).1.state.epoch = s.state.epoch := by
  simp [Service.tick]

/-- A tick adds and removes no node. -/
theorem mem_nodes_tick {r : Readings} {id : NodeId} :
    id ∈ (s.tick r).1.state.nodes ↔ id ∈ s.state.nodes := by
  simp only [Service.tick, workerPartitions_nodes]
  exact mem_nodes_heartbeats

/-- A tick keeps the leader or forgets it. -/
theorem tick_leader (r : Readings) :
    (s.tick r).1.state.electedLeaderId = s.state.electedLeaderId ∨
      (s.tick r).1.state.electedLeaderId = none := by
  have hbeat : (heartbeats s.state s.me r.heartbeatNow r.heartbeatRandom).1.electedLeaderId =
      s.state.electedLeaderId ∨
      (heartbeats s.state s.me r.heartbeatNow r.heartbeatRandom).1.electedLeaderId = none :=
    heartbeats_leader _ _
  simpa [Service.tick] using hbeat

@[simp] theorem handle_me : (s.handle msg r).1.me = s.me := by
  cases msg <;> rfl

@[simp] theorem turn_me (input : Option ManagerProtocol × Readings) :
    (s.turn input).me = s.me := by
  unfold Service.turn Service.process
  split <;> simp

/-- A response counts only if it approves this manager. -/
theorem approvedElection_leader {elections : Elections} {me : Me} {leaderId : NodeId} {ts : ℕ}
    {ea : ℕ × Finset NodeId} (h : approvedElection elections me leaderId ts = some ea) :
    leaderId = me.id := by
  unfold approvedElection at h
  split at h
  · split at h
    · rename_i hts
      exact hts.2
    · cases h
  · cases h

/-- **What one message can do to the epoch and the leader**: keep the
epoch, and the leader or no leader; take over a newer pair from a `Leader`
or `ClusterState` message; or complete the manager's own election, whose
epoch nothing compares with the present one. -/
theorem handle_decision (s : Service) (msg : ManagerProtocol) (r : Readings) :
    ((s.handle msg r).1.state.epoch = s.state.epoch ∧
      ((s.handle msg r).1.state.electedLeaderId = s.state.electedLeaderId ∨
        (s.handle msg r).1.state.electedLeaderId = none)) ∨
    (∃ e l, epochBelow s.state.epoch e ∧
      ((∃ ts, msg = .leader l e ts) ∨
        ∃ rcpt st, msg = .clusterState rcpt st ∧ e = st.epoch ∧ l = st.leaderId) ∧
      (s.handle msg r).1.state.epoch = some e ∧
      (s.handle msg r).1.state.electedLeaderId = some l) ∨
    (∃ id ts e approvers, msg = .voteResponse id s.me.id ts ∧
      approvedElection s.elections s.me s.me.id ts = some (e, approvers) ∧
      unanimous s.state s.me (insert id approvers) ∧
      (s.handle msg r).1.state.epoch = some e ∧
      (s.handle msg r).1.state.electedLeaderId = some s.me.id) := by
  cases msg with
  | newConnection id host port manager =>
    refine Or.inl ?_
    cases id <;> exact ⟨rfl, Or.inl rfl⟩
  | heartbeat id hid ts =>
    refine Or.inl ?_
    simp only [Service.handle, handleHeartbeat]
    split <;> exact ⟨rfl, Or.inl rfl⟩
  | getClusterState id => exact Or.inl ⟨rfl, Or.inl rfl⟩
  | clusterState rcpt st =>
    simp only [Service.handle, handleClusterState]
    split
    · by_cases hb : epochBelow s.state.epoch st.epoch = true
      · simp only [hb, if_true]
        exact Or.inr (Or.inl ⟨_, _, hb, Or.inr ⟨rcpt, st, rfl, rfl, rfl⟩, rfl, rfl⟩)
      · simp only [hb]
        exact Or.inl ⟨rfl, Or.inl rfl⟩
    · exact Or.inl ⟨rfl, Or.inl rfl⟩
  | voteRequest id epoch ts => exact Or.inl ⟨rfl, Or.inl rfl⟩
  | voteResponse id leaderId ts =>
    simp only [Service.handle, handleVoteResponse]
    cases ha : approvedElection s.elections s.me leaderId ts with
    | none =>
      refine Or.inl ?_
      dsimp only
      split <;> exact ⟨rfl, Or.inl rfl⟩
    | some ea =>
      obtain ⟨e, approvers⟩ := ea
      -- only votes for the manager itself are counted
      obtain rfl := approvedElection_leader ha
      dsimp only
      split
      · rename_i hu
        exact Or.inr (Or.inr ⟨id, ts, e, approvers, rfl, ha, hu, rfl, rfl⟩)
      · exact Or.inl ⟨rfl, Or.inl rfl⟩
  | leader id epoch ts =>
    simp only [Service.handle, handleLeader]
    split
    · rename_i hb
      split
      · split
        · exact Or.inr (Or.inl ⟨epoch, id, hb, Or.inl ⟨ts, rfl⟩, rfl, rfl⟩)
        · exact Or.inl ⟨rfl, Or.inl rfl⟩
      · exact Or.inl ⟨rfl, Or.inl rfl⟩
    · exact Or.inl ⟨rfl, Or.inl rfl⟩
  | nodeDisconnected id =>
    refine Or.inl ?_
    simp only [Service.handle, handleNodeDisconnected]
    split
    · refine ⟨rfl, ?_⟩
      dsimp only
      split
      · exact Or.inr rfl
      · exact Or.inl rfl
    · exact ⟨rfl, Or.inl rfl⟩
  | removePartitionFromReplica id replicaId partitionId => exact Or.inl ⟨rfl, Or.inl rfl⟩

/-! ## The partition table -/

/-- No message touches the worker set of the last recomputation. -/
theorem handle_calculated :
    (s.handle msg r).1.state.workersWithCalculatedPartitions =
      s.state.workersWithCalculatedPartitions := by
  cases msg with
  | newConnection id host port manager => cases id <;> rfl
  | heartbeat id hid ts => simp only [Service.handle, handleHeartbeat]; split <;> rfl
  | getClusterState id => rfl
  | clusterState rcpt st =>
    simp only [Service.handle, handleClusterState]
    split
    · by_cases hb : epochBelow s.state.epoch st.epoch = true <;> simp [hb]
    · rfl
  | voteRequest id epoch ts => rfl
  | voteResponse id leaderId ts =>
    simp only [Service.handle, handleVoteResponse]
    split
    · split <;> rfl
    · split <;> rfl
  | leader id epoch ts =>
    simp only [Service.handle, handleLeader]
    split
    · split
      · split <;> rfl
      · rfl
    · rfl
  | nodeDisconnected id => simp only [Service.handle, handleNodeDisconnected]; split <;> rfl
  | removePartitionFromReplica id replicaId partitionId => rfl

/-- **What one message can do to the partition table**: strike an old
replica off, or replace it by the table of an accepted snapshot. -/
theorem handle_table (s : Service) (msg : ManagerProtocol) (r : Readings) :
    (s.handle msg r).1.state.partitions = s.state.partitions ∨
    (∃ id w p, msg = .removePartitionFromReplica id w p ∧
      (s.handle msg r).1.state.partitions = removeOldReplica s.state.partitions w p) ∨
    (∃ rcpt st, msg = .clusterState rcpt st ∧ accepts s.state st.epoch st.leaderId ∧
      (s.handle msg r).1.state.partitions = st.partitions) := by
  cases msg with
  | newConnection id host port manager => refine Or.inl ?_; cases id <;> rfl
  | heartbeat id hid ts =>
    refine Or.inl ?_
    simp only [Service.handle, handleHeartbeat]
    split <;> rfl
  | getClusterState id => exact Or.inl rfl
  | clusterState rcpt st =>
    simp only [Service.handle, handleClusterState]
    split
    · rename_i hacc
      exact Or.inr (Or.inr ⟨rcpt, st, rfl, hacc, rfl⟩)
    · exact Or.inl rfl
  | voteRequest id epoch ts => exact Or.inl rfl
  | voteResponse id leaderId ts =>
    refine Or.inl ?_
    simp only [Service.handle, handleVoteResponse]
    split
    · split <;> rfl
    · split <;> rfl
  | leader id epoch ts =>
    refine Or.inl ?_
    simp only [Service.handle, handleLeader]
    split
    · split
      · split <;> rfl
      · rfl
    · rfl
  | nodeDisconnected id =>
    refine Or.inl ?_
    simp only [Service.handle, handleNodeDisconnected]
    split <;> rfl
  | removePartitionFromReplica id replicaId partitionId =>
    exact Or.inr (Or.inl ⟨id, replicaId, partitionId, rfl, rfl⟩)

/-- The leader's worker set is the one the table was computed for. -/
def Calculated (state : State) : Prop :=
  state.workers.toFinset = state.workersWithCalculatedPartitions

theorem workers_nodup : state.workers.Nodup :=
  (Map.nodup_keys_toList state.nodes).sublist (List.filter_sublist.map Prod.fst)

/-- **What the tick does to the partition table and puts out**: nothing
unless this manager leads and its worker set is not the one the table was
computed for; then it recomputes and tells every other node, or, with no
worker left, strikes off every old replica and tells nobody. -/
theorem workerPartitions_outcome (state : State) (me : Me) (rf : ℕ) :
    (workerPartitions state me rf = (state, []) ∧
      (state.electedLeaderId = some me.id → Calculated state)) ∨
    (state.electedLeaderId = some me.id ∧ state.workers ≠ [] ∧
      ∃ state', state' = { state with
          partitions := recompute state.partitions rf state.workers
          workersWithCalculatedPartitions := state.workers.toFinset } ∧
        workerPartitions state me rf = (state', (state.otherNodes me).map fun id =>
          .clusterState id (createNewWorkersState state'))) ∨
    (state.electedLeaderId = some me.id ∧ state.workers = [] ∧ ¬ Calculated state ∧
      workerPartitions state me rf = ({ state with
        partitions := copyCurrentMappingToOld state.partitions []
        workersWithCalculatedPartitions := ∅ }, [])) := by
  unfold workerPartitions
  by_cases hl : state.electedLeaderId = some me.id
  · rw [if_pos hl]
    dsimp only
    split
    · rename_i hstale
      by_cases hv : state.workers = []
      · rw [if_neg (by simpa using hv)]
        refine Or.inr (Or.inr ⟨hl, hv, fun hcalc => ?_, by rw [hv]⟩)
        -- with no worker listed the two tests agree
        have hempty : state.workersWithCalculatedPartitions = ∅ := by
          rw [← hcalc, hv, List.toFinset_nil]
        simp [hv, hempty] at hstale
      · rw [if_pos hv]
        exact Or.inr (Or.inl ⟨hl, hv, _, rfl, rfl⟩)
    · rename_i h
      push Not at h
      exact Or.inl ⟨rfl, fun _ => h.2⟩
  · rw [if_neg hl]
    exact Or.inl ⟨rfl, fun h => absurd h hl⟩

/-- A leader whose workers are not those of its table recomputes it. -/
theorem workerPartitions_of_stale (rf : ℕ) (hl : state.electedLeaderId = some me.id)
    (hv : state.workers ≠ []) (hcalc : ¬ Calculated state) :
    ∃ state', state' = { state with
        partitions := recompute state.partitions rf state.workers
        workersWithCalculatedPartitions := state.workers.toFinset } ∧
      workerPartitions state me rf = (state', (state.otherNodes me).map fun id =>
        .clusterState id (createNewWorkersState state')) := by
  rcases workerPartitions_outcome state me rf with ⟨-, h⟩ | ⟨-, -, h⟩ | ⟨-, h, -, -⟩
  · exact absurd (h hl) hcalc
  · exact h
  · exact absurd h hv

/-- A table computed for the workers there are is left alone. -/
theorem workerPartitions_of_calculated (rf : ℕ) (hcalc : Calculated state) :
    workerPartitions state me rf = (state, []) := by
  have hcard : state.workersWithCalculatedPartitions.card = state.workers.length := by
    rw [← hcalc]
    exact List.toFinset_card_of_nodup workers_nodup
  unfold workerPartitions
  split
  · dsimp only
    rw [if_neg]
    rintro (hne | hne)
    · exact hne hcard
    · exact hne hcalc
  · rfl

/-- **What the tick can do to the partition table.** -/
theorem workerPartitions_cases (state : State) (me : Me) (rf : ℕ) :
    ((workerPartitions state me rf).1 = state ∧
      (state.electedLeaderId = some me.id → Calculated state)) ∨
    (state.electedLeaderId = some me.id ∧ state.workers ≠ [] ∧
      (workerPartitions state me rf).1 = { state with
        partitions := recompute state.partitions rf state.workers
        workersWithCalculatedPartitions := state.workers.toFinset }) ∨
    (state.electedLeaderId = some me.id ∧ state.workers = [] ∧
      (workerPartitions state me rf).1 = { state with
        partitions := copyCurrentMappingToOld state.partitions []
        workersWithCalculatedPartitions := ∅ }) := by
  rcases workerPartitions_outcome state me rf with
    ⟨h, hcalc⟩ | ⟨hl, hv, state', hstate, h⟩ | ⟨hl, hv, -, h⟩
  · exact Or.inl ⟨by rw [h], hcalc⟩
  · exact Or.inr (Or.inl ⟨hl, hv, by rw [h, hstate]⟩)
  · exact Or.inr (Or.inr ⟨hl, hv, by rw [h]⟩)

end Manager

end NoSqlStore
