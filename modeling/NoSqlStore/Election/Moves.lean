import NoSqlStore.Election.Cluster
/-!
# What a turn does to an election

A manager calls an election, or its part in the elections changes in one
of six other ways: `Starts` and `Change` list them with what each one
needs and puts out. The handler of a message is one move, and the tick
after it two, the heartbeats and the partition table, with the call of an
election between them.
-/

namespace NoSqlStore

namespace Election

open Manager

variable {M : Finset NodeId} {sent : List Packet} {s : Service} {state : State} {me : Me}
  {n : NodeId}

/-- The node table lists `n` as a manager. -/
def Knows (state : State) (n : NodeId) : Prop :=
  state.nodes[n]?.map Node.nodeType = some .manager

/-- A voter that is behind the epoch, and takes part in no election that
the request does not replace. -/
def Willing (s : Service) (e ts : ℕ) : Prop :=
  epochBelow s.state.epoch e = true ∧ addNew s.elections e ts = true

instance (s : Service) (e ts : ℕ) : Decidable (Willing s e ts) :=
  inferInstanceAs (Decidable (_ ∧ _))

theorem mem_of_knows (h : Knows state n) : n ∈ state.nodes := by
  obtain ⟨node, hnode, -⟩ := Option.map_eq_some_iff.mp h
  rw [Std.ExtTreeMap.mem_iff_isSome_getElem?, hnode]
  rfl

/-- **The leader is cleared**, which a manager that leads lets happen only
when it loses itself or knows nobody else. -/
def Cleared (s s' : Service) : Prop :=
  s'.state.electedLeaderId = none ∧ (s.state.electedLeaderId = some s.me.id →
    Knows s'.state s.me.id → ∀ n, Knows s'.state n → n = s.me.id)

/-- **Output without a vote**: no request, response or notification, and
of snapshots only those of the decision the manager has recorded. -/
def Quiet (state : State) (outs : List ManagerProtocol) : Prop :=
  ∀ o ∈ outs, match o with
    | .voteRequest _ _ _ | .voteResponse _ _ _ | .leader _ _ _ => False
    | .clusterState _ st =>
      state.electedLeaderId = some st.leaderId ∧ (∀ e, state.epoch = some e → st.epoch = e) ∧
        (st.nodes = [] ∨ ∀ n, n ∈ state.nodes → n ∈ st.nodes.map ClusterNode.id)
    | _ => True

/-- The ways a part of a turn changes the election, the epoch and the
leader of a manager, and what it puts out. -/
inductive Change (sent : List Packet) (s s' : Service) (outs : List ManagerProtocol) : Prop
  /-- Nothing is decided; the leader or the election may be dropped. -/
  | quiet (elections : s'.elections = s.elections ∨ s'.elections = ∅)
      (epoch : s'.state.epoch = s.state.epoch)
      (leader : s'.state.electedLeaderId = s.state.electedLeaderId ∨ Cleared s s')
      (outs : Quiet s'.state outs)
  /-- A newer decision is taken over. -/
  | adopts (e : ℕ) (l : NodeId) (won : ∃ ts, Won sent l e ts)
      (newer : epochBelow s.state.epoch e = true)
      (elections : s'.elections = s.elections ∨ s'.elections = ∅)
      (epoch : s'.state.epoch = some e) (leader : s'.state.electedLeaderId = some l)
      (outs : Quiet s'.state outs)
  /-- A vote given before is repeated to whoever asks. -/
  | repeats (id cand : NodeId) (e ts : ℕ) (same : s' = s)
      (vote : s.elections[e]? = some (.other ts cand))
      (outs : outs = [.voteResponse id cand ts])
  /-- A vote is given. -/
  | approves (id : NodeId) (e ts : ℕ) (requested : Requested sent id e ts)
      (newer : epochBelow s.state.epoch e = true)
      (elections : s'.elections = (∅ : Elections).insert e (.other ts id))
      (same : s'.state = s.state) (outs : outs = [.voteResponse id id ts])
  /-- A vote is counted and more are missing. -/
  | counts (id : NodeId) (e ts : ℕ) (approvers : Finset NodeId)
      (approved : Approved sent id s.me.id ts)
      (last : lastKeyValue s.elections = some (e, .mine ts approvers))
      (elections : s'.elections = s.elections.insert e (.mine ts (insert id approvers)))
      (same : s'.state = s.state) (outs : outs = [])
  /-- The last vote is counted. -/
  | wins (id : NodeId) (e ts : ℕ) (approvers : Finset NodeId)
      (approved : Approved sent id s.me.id ts)
      (last : lastKeyValue s.elections = some (e, .mine ts approvers))
      (unanimous : ∀ n, n ≠ s.me.id → Knows s.state n → n ∈ insert id approvers)
      (elections : s'.elections = ∅) (epoch : s'.state.epoch = some e)
      (leader : s'.state.electedLeaderId = some s.me.id)
      (nodes : s'.state.nodes = s.state.nodes)
      (outs : outs = (s.state.otherNodes s.me).map fun key => .leader key e ts)

/-- **A move of a manager** among the managers `M`. -/
structure Move (M : Finset NodeId) (sent : List Packet) (s s' : Service)
    (outs : List ManagerProtocol) : Prop where
  me : s'.me = s.me
  known : ∀ n ∈ M, Knows s.state n → Knows s'.state n
  change : Change sent s s' outs

/-- **The call of an election** for epoch `e` at time `ts`, which is newer
unless there is no newer one. -/
structure Starts (s s' : Service) (outs : List ManagerProtocol) (e ts : ℕ) : Prop where
  me : s'.me = s.me
  same : s'.state = s.state
  leaderless : s.state.electedLeaderId = none
  newer : ∃ e₀, s.state.epoch = some e₀ ∧ (e₀ < e ∨ 2 ^ 64 - 1 ≤ e₀)
  bounded : e < 2 ^ 64
  elections : s'.elections = (∅ : Elections).insert e (.mine ts ∅)
  outs : outs = (s.state.otherManagers s.me).map fun id => .voteRequest id e ts

/-- Only the call of an election asks for votes. -/
theorem Change.no_request {s' : Service} {outs : List ManagerProtocol}
    (h : Change sent s s' outs) (id : NodeId) (e ts : ℕ) : .voteRequest id e ts ∉ outs := by
  intro hin
  cases h with
  | quiet _ _ _ hq => exact hq _ hin
  | adopts _ _ _ _ _ _ _ hq => exact hq _ hin
  | repeats _ _ _ _ _ _ houts => simp [houts] at hin
  | approves _ _ _ _ _ _ _ houts => simp [houts] at hin
  | counts _ _ _ _ _ _ _ _ houts => simp [houts] at hin
  | wins _ _ _ _ _ _ _ _ _ _ _ houts => simp [houts] at hin

/-! ## The node table -/

/-- Touching a node's heartbeat changes no type. -/
theorem nodeType_insert {nodes : Map NodeId Node} {id : NodeId} {node : Node}
    (h : nodes[id]? = some node) (beat : ℕ) (n : NodeId) :
    (nodes.insert id { node with lastHeartbeat := beat })[n]?.map Node.nodeType =
      nodes[n]?.map Node.nodeType := by
  rw [Std.ExtTreeMap.getElem?_insert]
  split
  · rename_i heq
    rw [compare_eq_iff_eq] at heq
    subst heq
    simp [h]
  · rfl

theorem mergeNode_manager {acc : Map NodeId Node × List ManagerProtocol} {item : ClusterNode}
    (h : acc.1[n]?.map Node.nodeType = some .manager) :
    (mergeNode acc item).1[n]?.map Node.nodeType = some .manager := by
  unfold mergeNode
  split
  · rename_i node hnode
    split
    · exact (nodeType_insert hnode _ n).trans h
    · exact h
  · rename_i hnone
    split
    · exact h
    · dsimp only
      rw [Std.ExtTreeMap.getElem?_insert, if_neg]
      · exact h
      · rw [compare_eq_iff_eq]
        rintro rfl
        rw [hnone] at h
        cases h

theorem foldl_mergeNode_manager (items : List ClusterNode)
    {acc : Map NodeId Node × List ManagerProtocol}
    (h : acc.1[n]?.map Node.nodeType = some .manager) :
    (items.foldl mergeNode acc).1[n]?.map Node.nodeType = some .manager := by
  induction items generalizing acc with
  | nil => exact h
  | cons item items ih => exact ih (mergeNode_manager h)

/-- Pruning keeps a listed node. -/
theorem retainListed_manager {nodes : Map NodeId Node} {items : List ClusterNode}
    (h : nodes[n]?.map Node.nodeType = some .manager)
    (hlisted : items = [] ∨ n ∈ items.map ClusterNode.id) :
    (retainListed nodes items me)[n]?.map Node.nodeType = some .manager := by
  unfold retainListed
  split
  · exact h
  · rename_i hne
    have hn := hlisted.resolve_left hne
    rw [Std.ExtTreeMap.getElem?_filter']
    cases hnode : nodes[n]? with
    | none =>
      rw [hnode] at h
      cases h
    | some node =>
      rw [hnode] at h
      simp only [Option.filter, hn, or_true, decide_true, if_true]
      exact h

/-- Merging dials, and puts out nothing else. -/
theorem foldl_mergeNode_output (items : List ClusterNode)
    {acc : Map NodeId Node × List ManagerProtocol}
    (h : ∀ o ∈ acc.2, ∃ host port, o = .newConnection none host port true) :
    ∀ o ∈ (items.foldl mergeNode acc).2, ∃ host port, o = .newConnection none host port true := by
  induction items generalizing acc with
  | nil => exact h
  | cons item items ih =>
    refine ih ?_
    unfold mergeNode
    split
    · split <;> exact h
    · split
      · intro o ho
        rcases List.mem_append.mp ho with ho | ho
        · exact h o ho
        · exact ⟨_, _, List.mem_singleton.mp ho⟩
      · exact h

/-! ## Quiet output -/

theorem quiet_nil : Quiet state [] := fun _ h => by cases h

theorem quiet_askManagers (st : State) : Quiet state (askManagers st me) := by
  intro o ho
  obtain ⟨id, -, rfl⟩ := List.mem_map.mp ho
  trivial

theorem quiet_handleGetClusterState (id : NodeId) :
    Quiet state (handleGetClusterState state id) := by
  unfold handleGetClusterState
  split
  · rename_i e l he hl
    intro o ho
    rw [List.mem_singleton.mp ho]
    refine ⟨hl, fun e' he' => ?_, Or.inr fun n hn => ?_⟩
    · rw [he] at he'
      exact Option.some.inj he'
    · rw [Std.ExtTreeMap.mem_iff_isSome_getElem?] at hn
      obtain ⟨node, hnode⟩ := Option.isSome_iff_exists.mp hn
      simp only [listNodes, List.map_map, List.mem_map]
      exact ⟨(n, node), Map.mem_toList.mpr hnode, rfl⟩
  · exact quiet_nil

/-! ## The moves of a turn -/

/-- What the network and the outside guarantee of a message that reaches a
manager: votes, requests and notifications were sent, and a snapshot is of
a decision that was won and lists all the managers or nobody. -/
def Legit (M : Finset NodeId) (sent : List Packet) : ManagerProtocol → Prop
  | .newConnection id _ _ _ => ∀ n ∈ id, n ∉ M
  | .nodeDisconnected id => id ∉ M
  | .voteRequest id epoch ts => Requested sent id epoch ts
  | .voteResponse id leaderId ts => Approved sent id leaderId ts
  | .leader id epoch ts => Won sent id epoch ts
  | .clusterState _ st => (∃ ts, Won sent st.leaderId st.epoch ts) ∧
      (st.nodes = [] ∨ ∀ n ∈ M, n ∈ st.nodes.map ClusterNode.id)
  | .heartbeat _ _ _ | .getClusterState _ | .removePartitionFromReplica _ _ _ => True

theorem move_handleClusterState {rcpt : NodeId} {st : ClusterState} {r : Readings}
    (h : Legit M sent (.clusterState rcpt st)) :
    Move M sent s (s.handle (.clusterState rcpt st) r).1
      (s.handle (.clusterState rcpt st) r).2 := by
  refine ⟨rfl, fun n hn hknows => ?_, ?_⟩
  · simp only [Service.handle, handleClusterState]
    split
    · refine foldl_mergeNode_manager st.nodes (retainListed_manager ?_ ?_)
      · split <;> exact hknows
      · exact h.2.imp_right fun hall => hall n hn
    · exact hknows
  · have hquiet : ∀ state, Quiet state (st.nodes.foldl mergeNode
        (retainListed s.state.nodes st.nodes s.me, [])).2 := by
      intro state o ho
      obtain ⟨host, port, rfl⟩ := foldl_mergeNode_output st.nodes (fun _ h => by cases h) o ho
      trivial
    simp only [Service.handle, handleClusterState]
    split
    · by_cases hb : epochBelow s.state.epoch st.epoch = true
      · simp only [hb, if_true]
        exact .adopts st.epoch st.leaderId h.1 hb (Or.inl rfl) rfl rfl (hquiet _)
      · simp only [hb]
        exact .quiet (Or.inl rfl) rfl (Or.inl rfl) (hquiet _)
    · exact .quiet (Or.inl rfl) rfl (Or.inl rfl) quiet_nil

theorem move_handleVoteRequest {id : NodeId} {epoch ts : ℕ} {r : Readings}
    (h : Legit M sent (.voteRequest id epoch ts)) :
    Move M sent s (s.handle (.voteRequest id epoch ts) r).1
      (s.handle (.voteRequest id epoch ts) r).2 := by
  refine ⟨rfl, fun n _ hknows => hknows, ?_⟩
  simp only [Service.handle, handleVoteRequest]
  split
  · rename_i hb
    split
    · exact .approves id epoch ts h hb rfl rfl rfl
    · split
      · rename_i ts' cand hvote
        exact .repeats id cand epoch ts' rfl hvote rfl
      · exact .quiet (Or.inl rfl) rfl (Or.inl rfl) quiet_nil
  · exact .quiet (Or.inl rfl) rfl (Or.inl rfl) quiet_nil

theorem lastKeyValue_of_approved {elections : Elections} {leaderId : NodeId} {ts e : ℕ}
    {approvers : Finset NodeId}
    (h : approvedElection elections me leaderId ts = some (e, approvers)) :
    lastKeyValue elections = some (e, .mine ts approvers) := by
  unfold approvedElection at h
  split at h
  · rename_i hlast
    split at h
    · rename_i hts
      cases h
      rw [hlast, hts.1]
    · cases h
  · cases h

theorem move_handleVoteResponse {id leaderId : NodeId} {ts : ℕ} {r : Readings}
    (h : Legit M sent (.voteResponse id leaderId ts)) :
    Move M sent s (s.handle (.voteResponse id leaderId ts) r).1
      (s.handle (.voteResponse id leaderId ts) r).2 := by
  simp only [Service.handle, handleVoteResponse]
  cases ha : approvedElection s.elections s.me leaderId ts with
  | none =>
    dsimp only
    split
    · exact ⟨rfl, fun n _ hk => hk, .quiet (Or.inl rfl) rfl (Or.inl rfl) quiet_nil⟩
    · exact ⟨rfl, fun n _ hk => hk,
        .quiet (Or.inl rfl) rfl (Or.inl rfl) (quiet_askManagers s.state)⟩
  | some ea =>
    obtain ⟨e, approvers⟩ := ea
    obtain rfl := approvedElection_leader ha
    have hlast := lastKeyValue_of_approved ha
    dsimp only
    split
    · rename_i hu
      refine ⟨rfl, fun n _ hk => hk, .wins id e ts approvers h hlast ?_ rfl rfl rfl rfl rfl⟩
      intro n hne hk
      simp only [unanimous, Bool.decide_and, Bool.and_eq_true, List.all_eq_true,
        decide_eq_true_eq] at hu
      exact hu.2 n (mem_otherManagers.mpr ⟨hne, hk⟩)
    · exact ⟨rfl, fun n _ hk => hk, .counts id e ts approvers h hlast rfl rfl rfl⟩

theorem move_handleLeader {id : NodeId} {epoch ts : ℕ} {r : Readings}
    (h : Legit M sent (.leader id epoch ts)) :
    Move M sent s (s.handle (.leader id epoch ts) r).1 (s.handle (.leader id epoch ts) r).2 := by
  simp only [Service.handle, handleLeader]
  split
  · rename_i hb
    split
    · rename_i node hnode
      split
      · refine ⟨rfl, fun n _ hk => ?_, .adopts epoch id ⟨ts, h⟩ hb (Or.inr rfl) rfl rfl quiet_nil⟩
        exact (nodeType_insert hnode _ n).trans hk
      · exact ⟨rfl, fun n _ hk => hk,
          .quiet (Or.inr rfl) rfl (Or.inl rfl) (quiet_askManagers s.state)⟩
    · exact ⟨rfl, fun n _ hk => hk,
        .quiet (Or.inr rfl) rfl (Or.inl rfl) (quiet_askManagers s.state)⟩
  · exact ⟨rfl, fun n _ hk => hk, .quiet (Or.inl rfl) rfl (Or.inl rfl) quiet_nil⟩

/-- **Handling a message is a move.** -/
theorem move_handle (msg : ManagerProtocol) (r : Readings) (h : Legit M sent msg) :
    Move M sent s (s.handle msg r).1 (s.handle msg r).2 := by
  cases msg with
  | newConnection id host port manager =>
    cases id with
    | none => exact ⟨rfl, fun n _ hk => hk, .quiet (Or.inl rfl) rfl (Or.inl rfl) quiet_nil⟩
    | some id =>
      refine ⟨rfl, fun n hn hk => ?_, .quiet (Or.inl rfl) rfl (Or.inl rfl) fun o ho => ?_⟩
      · have hne : id ≠ n := fun he => h id rfl (he ▸ hn)
        simp only [Knows, Service.handle, handleNewConnection]
        rw [Std.ExtTreeMap.getElem?_insert, if_neg (by rwa [compare_eq_iff_eq])]
        exact hk
      · simp only [Service.handle, handleNewConnection] at ho
        split at ho
        · rw [List.mem_singleton.mp ho]
          trivial
        · cases ho
  | heartbeat id hid ts =>
    simp only [Service.handle, handleHeartbeat]
    split
    · exact ⟨rfl, fun n _ hk => hk,
        .quiet (Or.inl rfl) rfl (Or.inl rfl) (quiet_askManagers s.state)⟩
    · rename_i node hnode
      refine ⟨rfl, fun n _ hk => (nodeType_insert hnode _ n).trans hk,
        .quiet (Or.inl rfl) rfl (Or.inl rfl) fun o ho => ?_⟩
      split at ho
      · obtain ⟨key, -, rfl⟩ := List.mem_map.mp ho
        trivial
      · cases ho
  | getClusterState id =>
    exact ⟨rfl, fun n _ hk => hk,
      .quiet (Or.inl rfl) rfl (Or.inl rfl) (quiet_handleGetClusterState id)⟩
  | clusterState rcpt st => exact move_handleClusterState h
  | voteRequest id epoch ts => exact move_handleVoteRequest h
  | voteResponse id leaderId ts => exact move_handleVoteResponse h
  | leader id epoch ts => exact move_handleLeader h
  | nodeDisconnected id =>
    simp only [Service.handle, handleNodeDisconnected]
    split
    · refine ⟨rfl, fun n hn hk => ?_, .quiet (Or.inl rfl) rfl ?_ quiet_nil⟩
      · have hne : id ≠ n := fun he => h (he ▸ hn)
        simp only [Knows]
        rw [Std.ExtTreeMap.getElem?_erase, if_neg (by rwa [compare_eq_iff_eq])]
        exact hk
      · -- a manager in a table with another is not the last one
        by_cases hgone : some id = s.state.electedLeaderId ∨ (s.state.nodes.erase id).size = 1
        · refine Or.inr ⟨if_pos hgone, fun hleads hself n hn => ?_⟩
          by_contra hne
          rcases hgone with hid | hsize
          · rw [hleads] at hid
            cases hid
            simp [Knows] at hself
          · exact size_ne_one (mem_of_knows hn) (mem_of_knows hself) hne hsize
        · exact Or.inl (if_neg hgone)
    · exact ⟨rfl, fun n _ hk => hk, .quiet (Or.inl rfl) rfl (Or.inl rfl) quiet_nil⟩
  | removePartitionFromReplica id replicaId partitionId =>
    refine ⟨rfl, fun n _ hk => hk, .quiet (Or.inl rfl) rfl (Or.inl rfl) fun o ho => ?_⟩
    simp only [Service.handle, handleRemoveOldPartition] at ho
    split at ho
    · obtain ⟨key, -, rfl⟩ := List.mem_map.mp ho
      trivial
    · cases ho

/-- The heartbeats of a tick. -/
theorem move_heartbeats (now random : ℕ) :
    Move M sent s { s with state := (heartbeats s.state s.me now random).1 }
      (heartbeats s.state s.me now random).2 := by
  refine ⟨rfl, fun n _ hk => (heartbeats_nodeType now random n).trans hk,
    .quiet (Or.inl rfl) (heartbeats_epoch now random) ?_ ?_⟩
  · refine (heartbeats_leader now random).imp_right fun hnone => ⟨hnone, fun hleads => ?_⟩
    dsimp only at hnone
    rw [heartbeats_leader_of_me now random hleads] at hnone
    cases hnone
  unfold heartbeats
  split
  · split
    · intro o ho
      dsimp only at ho
      split at ho
      · obtain ⟨key, -, rfl⟩ := List.mem_map.mp ho
        trivial
      · cases ho
    · exact quiet_nil
  · exact quiet_nil

/-- The call of an election, if there is one. -/
theorem startElection_cases (s : Service) (now random : ℕ) :
    startElectionIfNeeded s.state s.elections s.me now random = (s.elections, []) ∨
      ∃ e, Starts s { s with elections := (startElectionIfNeeded s.state s.elections s.me now
        random).1 } (startElectionIfNeeded s.state s.elections s.me now random).2 e now := by
  unfold startElectionIfNeeded
  split
  · rename_i epoch hl he
    split
    · refine Or.inr ?_
      have hnext : epoch < addU64 epoch 1 ∨ 2 ^ 64 - 1 ≤ epoch := by
        unfold addU64
        omega
      have hbound := addU64_lt epoch 1
      cases hlast : lastKeyValue s.elections with
      | none => exact ⟨addU64 epoch 1, rfl, rfl, hl, ⟨epoch, he, hnext⟩, hbound, rfl, rfl⟩
      | some last =>
        exact ⟨_, rfl, rfl, hl, ⟨epoch, he, hnext.imp_left fun h => h.trans_le (le_max_right _ _)⟩,
          max_lt (addU64_lt last.1 1) hbound, rfl, rfl⟩
    · exact Or.inl rfl
  · exact Or.inl rfl

/-- The partition table of a tick. -/
theorem move_workerPartitions (rf : ℕ) :
    Move M sent s { s with state := (workerPartitions s.state s.me rf).1 }
      (workerPartitions s.state s.me rf).2 := by
  refine ⟨rfl, fun n _ hk => ?_, .quiet (Or.inl rfl) (workerPartitions_epoch rf)
    (Or.inl (workerPartitions_leader rf)) ?_⟩
  · simp only [Knows, workerPartitions_nodes]
    exact hk
  · intro o ho
    have hleader : (workerPartitions s.state s.me rf).1.electedLeaderId =
        s.state.electedLeaderId := workerPartitions_leader rf
    have hepoch : (workerPartitions s.state s.me rf).1.epoch = s.state.epoch :=
      workerPartitions_epoch rf
    unfold workerPartitions at ho
    split at ho
    · rename_i hl
      dsimp only at ho
      split at ho
      · split at ho
        · obtain ⟨id, -, rfl⟩ := List.mem_map.mp ho
          refine ⟨?_, fun e he => ?_, Or.inl rfl⟩
          · rw [hleader, hl]
            simp [createNewWorkersState]
          · rw [hepoch] at he
            simp [createNewWorkersState, he]
        · cases ho
      · cases ho
    · cases ho

/-! ## A whole tick -/

/-- The two moves of a tick and the call between them leave the types of
the nodes alone. -/
def SameTable (s s' : Service) : Prop := ∀ n, Knows s'.state n ↔ Knows s.state n

/-- **The rule of a tick.** What every move of a manager keeps, and the
call of an election, its tick keeps. Before the call nobody has asked for
votes but those who had before the tick. -/
theorem tick_rule {I : Cluster → Prop} {c : Cluster} {m : NodeId} (r : Readings) (hI : I c)
    (hmove : ∀ (c' : Cluster) (s' : Service) (outs : List ManagerProtocol),
      SameTable (c.managers m) (c'.managers m) → I c' →
      Move M c'.sent (c'.managers m) s' outs → I (c'.apply m s' outs))
    (hcall : ∀ (c' : Cluster) (s' : Service) (outs : List ManagerProtocol) (e ts : ℕ),
      SameTable (c.managers m) (c'.managers m) →
      (∀ X e ts, Requested c'.sent X e ts → Requested c.sent X e ts) → I c' →
      Starts (c'.managers m) s' outs e ts → outs ⊆ ((c.managers m).tick r).2 →
      I (c'.apply m s' outs)) :
    I (c.apply m ((c.managers m).tick r).1 ((c.managers m).tick r).2) := by
  have hbeat : Move M c.sent (c.managers m) _ _ :=
    move_heartbeats r.heartbeatNow r.heartbeatRandom
  have htypes : SameTable (c.managers m) { c.managers m with state := (heartbeats
      (c.managers m).state (c.managers m).me r.heartbeatNow r.heartbeatRandom).1 } := by
    intro n
    unfold Knows
    rw [heartbeats_nodeType]
  generalize hs₁ : ({ c.managers m with state := (heartbeats (c.managers m).state
    (c.managers m).me r.heartbeatNow r.heartbeatRandom).1 } : Service) = s₁ at hbeat htypes
  generalize houts₁ : (heartbeats (c.managers m).state (c.managers m).me r.heartbeatNow
    r.heartbeatRandom).2 = outs₁ at hbeat
  -- the three parts of a tick are three moves: the beat, the election and the table
  have hI₁ : I (c.apply m s₁ outs₁) := hmove c s₁ outs₁ (fun _ => Iff.rfl) hI hbeat
  generalize hvote : startElectionIfNeeded s₁.state s₁.elections s₁.me r.electionNow
    r.electionRandom = vote
  have htick : (c.managers m).tick r =
      ({ s₁ with elections := vote.1, state := (workerPartitions s₁.state s₁.me
        r.replicationFactor).1 },
        outs₁ ++ vote.2 ++ (workerPartitions s₁.state s₁.me r.replicationFactor).2) := by
    rw [← hvote, ← houts₁, ← hs₁]
    rfl
  have hself : SameTable (c.managers m) ((c.apply m s₁ outs₁).managers m) := by
    rw [managers_apply_self]
    exact htypes
  have hI₂ : I ((c.apply m s₁ outs₁).apply m { s₁ with elections := vote.1 } vote.2) := by
    rcases startElection_cases s₁ r.electionNow r.electionRandom with hnone | ⟨e, hstarts⟩
    · rw [← hvote, hnone, apply_apply, List.append_nil]
      exact hI₁
    · rw [hvote] at hstarts
      refine hcall _ _ _ e r.electionNow hself (fun X e' ts hreq => ?_) hI₁
        (by rw [managers_apply_self]; exact hstarts) ?_
      · -- the beat has asked for no vote
        refine (requested_apply.mp hreq).resolve_right ?_
        rintro ⟨-, dst, hin⟩
        exact hbeat.change.no_request dst e' ts hin
      · rw [htick]
        exact fun o ho => List.mem_append_left _ (List.mem_append_right _ ho)
  have htable : Move M ((c.apply m s₁ outs₁).apply m { s₁ with elections := vote.1 } vote.2).sent
      { s₁ with elections := vote.1 } _ _ := move_workerPartitions r.replicationFactor
  have hself₂ : SameTable (c.managers m)
      (((c.apply m s₁ outs₁).apply m { s₁ with elections := vote.1 } vote.2).managers m) := by
    rw [managers_apply_self]
    exact htypes
  have hI₃ := hmove _ _ _ hself₂ hI₂ (by rw [managers_apply_self]; exact htable)
  rw [apply_apply, apply_apply] at hI₃
  rw [htick, List.append_assoc]
  exact hI₃

end Election

end NoSqlStore
