import NoSqlStore.Model.Grpc
import NoSqlStore.Sync.Visits
import NoSqlStore.Sync.Idle
/-!
# What a worker knows of its managers

The node type of a peer is decided in the gRPC layer, kept by the
connection handler and read by three other handlers. `Member` follows a
worker through every event of its streams, its ticker and its clients,
with the managers whose handshake is complete and the nodes it has asked
for the cluster state. `input_from_manager` announces a manager with
`manager: false`, so every node of the table is a worker
(`workersOnly_step`), and no manager is ever recognised.
-/

namespace NoSqlStore

namespace Worker

open Runs

variable {me : Me} {state : State} {now : ℕ}

/-- A worker and its managers: those whose handshake is complete and that
have neither disconnected nor been dropped by a snapshot since, and the
nodes it has asked for the cluster state. -/
structure Member where
  state : State
  store : RuntimeStore
  connected : Finset NodeId
  asked : List NodeId

/-- The nodes a list of messages asks for the cluster state. -/
def asks (output : List WorkerProtocol) : List NodeId :=
  output.filterMap fun
    | .getClusterState id => some id
    | _ => none

namespace Member

/-- `get_init_messages`: this node alone, and an empty store. -/
def start (me : Me) (now : ℕ) : Member :=
  ⟨(World.start me now).state, (World.start me now).store, ∅, []⟩

/-- The managers connected after an event. A snapshot that is taken over
and lists nodes drops those it does not list. -/
def connectedAfter (me : Me) (w : Member) : Event → Finset NodeId
  | .managerConnected id _ _ => insert id w.connected
  | .streamEnded id => w.connected.erase id
  | .managerPayload _ (.clusterState epoch leaderId nodes (some _)) =>
    if accepts w.state epoch leaderId ∧ nodes ≠ [] then
      w.connected.filter fun id => id = me.id ∨ id ∈ nodes.map ClusterNode.id
    else w.connected
  | _ => w.connected

/-- A turn of the service. -/
def turned (me : Me) (w : Member) (connected : Finset NodeId) (msg : Option WorkerProtocol)
    (env : Env) : Member :=
  let result := Worker.turn me w.state w.store msg env
  ⟨result.1, result.2.1, connected, w.asked ++ asks result.2.2⟩

/-- One event. A payload that ends its stream brings the service nothing:
the end of the stream is an event of its own. -/
def step (me : Me) (w : Member) (input : Event × Env) : Member :=
  match input.1 with
  | .store event => { w with store := w.store.apply event }
  | .ticker => w.turned me w.connected none input.2
  | event =>
    match event.message me with
    | some msg => w.turned me (w.connectedAfter me event) (some msg) input.2
    | none => w

/-- **The worker recognises a manager**: it has it in its table as one and
has asked it for the cluster state; it follows it as leader of a higher
epoch; and it asks it again whenever it hears of an unknown node or of the
acknowledgement of a known replica. -/
structure Recognises (me : Me) (w : Member) (m : NodeId) : Prop where
  listed : ∃ node : Node, w.state.nodes[m]? = some node ∧ node.isManager = true
  asked : m ∈ w.asked
  leader : ∀ epoch ts, epochBelow w.state.epoch epoch = true →
    (handleLeader w.state me m epoch ts).1.epoch = some epoch ∧
      (handleLeader w.state me m epoch ts).1.electedLeaderId = some m
  heartbeat : ∀ id ts, id ∉ w.state.nodes → m ∈ asks (handleHeartbeat w.state me id ts).2
  acknowledgement : ∀ replicaId, replicaId ∈ w.state.nodes →
    m ∈ asks (handleRemoveOldPartition w.state me replicaId)

end Member

/-! ## Every node of the table is a worker -/

/-- **No node is a manager.** -/
def WorkersOnly (nodes : Map NodeId Node) : Prop :=
  ∀ (id : NodeId) (node : Node), nodes[id]? = some node → node.isManager = false

namespace WorkersOnly

variable {nodes : Map NodeId Node}

theorem insert {id : NodeId} {node : Node} (hw : WorkersOnly nodes)
    (hnode : node.isManager = false) : WorkersOnly (nodes.insert id node) := by
  intro i n hi
  rw [Std.ExtTreeMap.getElem?_insert] at hi
  split at hi
  · cases hi
    exact hnode
  · exact hw i n hi

/-- A newer heartbeat of a listed node changes no type. -/
theorem beat {id : NodeId} {node : Node} {ts : ℕ} (hw : WorkersOnly nodes)
    (hnode : nodes[id]? = some node) :
    WorkersOnly (nodes.insert id { node with lastHeartbeat := ts }) :=
  hw.insert (hw id node hnode)

theorem erase (id : NodeId) (hw : WorkersOnly nodes) : WorkersOnly (nodes.erase id) := by
  intro i n hi
  rw [Std.ExtTreeMap.getElem?_erase] at hi
  split at hi
  · cases hi
  · exact hw i n hi

theorem retain (items : List ClusterNode) (hw : WorkersOnly nodes) :
    WorkersOnly (retainListed nodes items me) := by
  unfold retainListed
  split
  · exact hw
  · intro i n hi
    rw [Std.ExtTreeMap.getElem?_filter', Option.filter_eq_some_iff] at hi
    exact hw i n hi.1

/-- Merging a snapshot into the table dials unknown nodes and adds none. -/
theorem merge (items : List ClusterNode) (output : List WorkerProtocol) (hw : WorkersOnly nodes) :
    WorkersOnly (items.foldl mergeNode (nodes, output)).1 := by
  induction items generalizing nodes output with
  | nil => exact hw
  | cons item items ih =>
    rw [List.foldl_cons, mergeNode]
    split
    · rename_i node hnode
      split
      · exact ih _ (hw.beat hnode)
      · exact ih _ hw
    · exact ih _ hw

/-- No manager to ask. -/
theorem otherManagers (hw : WorkersOnly state.nodes) : state.otherManagers me = [] := by
  rw [State.otherManagers, List.map_eq_nil_iff, List.filter_eq_nil_iff]
  intro e he
  have hnode := hw e.1 e.2 (Map.mem_toList.mp he)
  simp [hnode]

theorem askManagers (hw : WorkersOnly state.nodes) : askManagers state me = [] := by
  rw [Worker.askManagers, hw.otherManagers, List.map_nil]

/-- A leader that is no manager of the table is not followed. -/
theorem leader_ignored (hw : WorkersOnly state.nodes) (id : NodeId) (epoch ts : ℕ) :
    handleLeader state me id epoch ts = (state, []) := by
  unfold handleLeader
  split
  · split
    · rename_i node hnode
      rw [if_neg (by simp [hw id node hnode]), hw.askManagers]
    · rw [hw.askManagers]
  · rfl

/-- The heartbeat of an unknown node makes the worker ask nobody. -/
theorem heartbeat_asks (hw : WorkersOnly state.nodes) (id : NodeId) (ts : ℕ) :
    asks (handleHeartbeat state me id ts).2 = [] := by
  unfold handleHeartbeat
  split
  · rw [hw.askManagers]
    rfl
  · rfl

/-- Neither does the acknowledgement of a known replica. -/
theorem acknowledgement_asks (hw : WorkersOnly state.nodes) (replicaId : NodeId) :
    asks (handleRemoveOldPartition state me replicaId) = [] := by
  unfold handleRemoveOldPartition
  split
  · rw [hw.askManagers]
    rfl
  · rfl

end WorkersOnly

/-! ## One turn -/

@[simp] theorem asks_append (l l' : List WorkerProtocol) : asks (l ++ l') = asks l ++ asks l' :=
  List.filterMap_append

/-- A merge only dials. -/
theorem asks_merge (items : List ClusterNode) (nodes : Map NodeId Node)
    (output : List WorkerProtocol) (hout : asks output = []) :
    asks (items.foldl mergeNode (nodes, output)).2 = [] := by
  induction items generalizing nodes output with
  | nil => exact hout
  | cons item items ih =>
    rw [List.foldl_cons, mergeNode]
    split
    · split
      · exact ih _ _ hout
      · exact ih _ _ hout
    · refine ih _ _ ?_
      rw [asks_append, hout]
      rfl

/-- What may reach the service: no connection is announced as a manager's. -/
def Announcing (msg : WorkerProtocol) : Prop :=
  ∀ id host port, msg ≠ .newConnection id host port true

/-- **Every message of a stream announces a worker**, or nobody. -/
theorem announcing_of_event {event : Event} {msg : WorkerProtocol}
    (hmsg : event.message me = some msg) : Announcing msg := by
  intro id host port heq
  subst heq
  cases event with
  | managerPayload i payload =>
    cases payload with
    | clusterState epoch leaderId items partitions => cases partitions <;> cases hmsg
    | _ => cases hmsg
  | workerPayload i payload => cases payload <;> cases hmsg
  | _ => cases hmsg

/-- **A message keeps the table without managers and asks nobody.** -/
theorem workersOnly_handle (me : Me) (store : RuntimeStore) (now : ℕ) {msg : WorkerProtocol}
    (hmsg : Announcing msg) (hw : WorkersOnly state.nodes) :
    WorkersOnly (handle me state store now msg).1.nodes ∧
      asks (handle me state store now msg).2.2 = [] := by
  cases msg with
  | newConnection id host port manager =>
    cases manager with
    | true => exact absurd rfl (hmsg id host port)
    | false =>
      cases id with
      | none => exact ⟨hw, rfl⟩
      | some id => exact ⟨hw.insert rfl, rfl⟩
  | heartbeat _ id ts =>
    refine ⟨?_, hw.heartbeat_asks id ts⟩
    show WorkersOnly (handleHeartbeat state me id ts).1.nodes
    unfold handleHeartbeat
    split
    · exact hw
    · rename_i node hnode
      exact hw.beat hnode
  | getClusterState _ => exact ⟨hw, rfl⟩
  | clusterState st =>
    show WorkersOnly
        (handleClusterState state me st.epoch st.leaderId st.nodes st.partitions now).1.nodes ∧
      asks (handleClusterState state me st.epoch st.leaderId st.nodes st.partitions now).2 = []
    unfold handleClusterState
    split
    · have hnodes : ∀ st' : State, st'.nodes = state.nodes →
          WorkersOnly (retainListed st'.nodes st.nodes me) := fun st' hst' => by
        rw [hst']
        exact hw.retain st.nodes
      refine ⟨WorkersOnly.merge _ _ (hnodes _ ?_), asks_merge _ _ _ rfl⟩
      split <;> rfl
    · exact ⟨hw, rfl⟩
  | nodeDisconnected id => exact ⟨hw.erase id, rfl⟩
  | leader id epoch ts =>
    show WorkersOnly (handleLeader state me id epoch ts).1.nodes ∧
      asks (handleLeader state me id epoch ts).2 = []
    rw [hw.leader_ignored]
    exact ⟨hw, rfl⟩
  | removePartitionFromReplica _ replicaId _ =>
    exact ⟨hw, hw.acknowledgement_asks replicaId⟩
  | syncBatch _ request => exact ⟨hw, rfl⟩
  | syncBatchResponse sender keys => exact ⟨hw, rfl⟩

theorem asks_of_ofTick {output : List WorkerProtocol} (hkinds : ∀ o ∈ output, o.ofTick = true) :
    asks output = [] := by
  refine List.filterMap_eq_nil_iff.mpr fun o ho => ?_
  have hkind := hkinds o ho
  cases o with
  | getClusterState id => cases hkind
  | _ => rfl

/-- **A tick keeps the table without managers and asks nobody.** -/
theorem workersOnly_tick (me : Me) (env : Env) (store : RuntimeStore)
    (hw : WorkersOnly state.nodes) :
    WorkersOnly (tick me env state store []).state.nodes ∧
      asks (tick me env state store []).output = [] := by
  have hann := announced_tick me env state store []
  refine ⟨?_, asks_of_ofTick hann.kinds⟩
  rw [hann.fixed.nodes]
  show WorkersOnly (heartbeats state me env.heartbeatNow).1.nodes
  unfold heartbeats
  split
  · rename_i node hnode
    split
    · exact hw.beat hnode
    · exact hw
  · exact hw

/-! ## A whole run -/

/-- **What every event keeps**: no manager in the table, nobody asked. -/
structure Unaware (w : Member) : Prop where
  workersOnly : WorkersOnly w.state.nodes
  asked : w.asked = []

theorem unaware_start (me : Me) (now : ℕ) : Unaware (Member.start me now) := by
  refine ⟨?_, rfl⟩
  have hnone : WorkersOnly ∅ := by
    intro id node hnode
    rw [Std.ExtTreeMap.getElem?_empty] at hnode
    cases hnode
  exact hnone.insert rfl

/-- The turn of a message that announces no manager, and the tick alone. -/
theorem Unaware.turned {w : Member} {msg : Option WorkerProtocol} (hu : Unaware w)
    (hmsg : ∀ m, msg = some m → Announcing m) (connected : Finset NodeId) (env : Env) :
    Unaware (w.turned me connected msg env) := by
  obtain ⟨hnodes, hasks⟩ : WorkersOnly (turn me w.state w.store msg env).1.nodes ∧
      asks (turn me w.state w.store msg env).2.2 = [] := by
    cases msg with
    | none =>
      obtain ⟨hnodes, hasks⟩ := workersOnly_tick me env w.store hu.workersOnly
      exact ⟨hnodes, hasks⟩
    | some m =>
      obtain ⟨hhandle, hanswer⟩ := workersOnly_handle me w.store env.handleNow (hmsg m rfl)
        hu.workersOnly
      obtain ⟨hnodes, hasks⟩ := workersOnly_tick me env
        (handle me w.state w.store env.handleNow m).2.1 hhandle
      refine ⟨hnodes, ?_⟩
      show asks ((handle me w.state w.store env.handleNow m).2.2 ++ _) = []
      rw [asks_append, hanswer, List.nil_append]
      exact hasks
  refine ⟨hnodes, ?_⟩
  show w.asked ++ asks (turn me w.state w.store msg env).2.2 = []
  rw [hu.asked, hasks, List.nil_append]

theorem Unaware.step {w : Member} (hu : Unaware w) (input : Event × Env) :
    Unaware (w.step me input) := by
  obtain ⟨event, env⟩ := input
  have hmessage : Unaware (match event.message me with
      | some msg => w.turned me (w.connectedAfter me event) (some msg) env
      | none => w) := by
    cases hmsg : event.message me with
    | none => exact hu
    | some msg => exact hu.turned (fun m hm => by cases hm; exact announcing_of_event hmsg) _ _
  cases event with
  | store event => exact ⟨hu.workersOnly, hu.asked⟩
  | ticker => exact hu.turned (fun m hm => by cases hm) _ _
  | _ => exact hmessage

theorem unaware_run (me : Me) (now : ℕ) (inputs : List (Event × Env)) :
    Unaware (run (Member.step me) (Member.start me now) inputs) :=
  run_keeps (fun _ input hu => hu.step input) (unaware_start me now) inputs

/-- **No part of recognising a manager is there**: not the entry, not the
question on connection, not the leader, not the later questions. -/
theorem Unaware.misses {w : Member} (hu : Unaware w) (me : Me) (m : NodeId) :
    (∀ node : Node, w.state.nodes[m]? = some node → node.isManager = false) ∧ m ∉ w.asked ∧
      (∀ epoch ts, (handleLeader w.state me m epoch ts).1 = w.state) ∧
      (∀ id ts, m ∉ asks (handleHeartbeat w.state me id ts).2) ∧
      ∀ replicaId, m ∉ asks (handleRemoveOldPartition w.state me replicaId) := by
  refine ⟨hu.workersOnly m, ?_, fun epoch ts => ?_, fun id ts => ?_, fun replicaId => ?_⟩
  · rw [hu.asked]
    exact List.not_mem_nil
  · rw [hu.workersOnly.leader_ignored]
  · rw [hu.workersOnly.heartbeat_asks]
    exact List.not_mem_nil
  · rw [hu.workersOnly.acknowledgement_asks]
    exact List.not_mem_nil

/-- **A worker recognises no manager.** At the end of every run, the
managers connected are all recognised just when there are none, and of
those there are no part of the recognition has happened. -/
theorem managers_recognised_iff (me : Me) (now : ℕ) (inputs : List (Event × Env)) :
    let w := run (Member.step me) (Member.start me now) inputs
    ((∀ m ∈ w.connected, w.Recognises me m) ↔ w.connected = ∅) ∧
      ∀ m ∈ w.connected,
        (∀ node : Node, w.state.nodes[m]? = some node → node.isManager = false) ∧ m ∉ w.asked ∧
        (∀ epoch ts, (handleLeader w.state me m epoch ts).1 = w.state) ∧
        (∀ id ts, m ∉ asks (handleHeartbeat w.state me id ts).2) ∧
        ∀ replicaId, m ∉ asks (handleRemoveOldPartition w.state me replicaId) := by
  have hu := unaware_run me now inputs
  intro w
  refine ⟨⟨fun hall => ?_, fun hempty m hm => ?_⟩, fun m _ => hu.misses me m⟩
  · rw [Finset.eq_empty_iff_forall_notMem]
    intro m hm
    obtain ⟨node, hnode, hmanager⟩ := (hall m hm).listed
    rw [hu.workersOnly m node hnode] at hmanager
    cases hmanager
  · rw [hempty] at hm
    cases hm

/-- Manager 1 completes its handshake with worker 3. -/
def managerOneConnects : List (Event × Env) :=
  [(.managerConnected ⟨1⟩ "a" 1, ⟨.ascending, [], [], 10, 10⟩)]

/-- **A connected manager is not recognised.** -/
theorem connected_manager_unrecognised :
    ¬ ∀ (me : Me) (now : ℕ) (inputs : List (Event × Env)),
      ∀ m ∈ (run (Member.step me) (Member.start me now) inputs).connected,
        (run (Member.step me) (Member.start me now) inputs).Recognises me m := by
  intro hall
  have hrecognised := hall ⟨⟨3⟩, "c", 3⟩ 0 managerOneConnects ⟨1⟩ (Finset.mem_insert_self _ _)
  have hasked := hrecognised.asked
  rw [(unaware_run ⟨⟨3⟩, "c", 3⟩ 0 managerOneConnects).asked] at hasked
  cases hasked

end Worker

end NoSqlStore
