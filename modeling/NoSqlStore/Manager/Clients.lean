import NoSqlStore.Manager.Adoption
import NoSqlStore.Manager.Followers
import NoSqlStore.Manager.Mapping
import NoSqlStore.Worker.Recipients
/-!
# Clients of one leader

A client that has applied a full snapshot of the leader, and then every
table the leader broadcasts while workers join and leave. These updates
carry no nodes by intention, and the client keeps its node list then: it
can address every node the leader knew when it took the snapshot, and none
that joined later (`client_addresses_holders`).
-/

namespace NoSqlStore

namespace Manager

open Runs

/-- A leader, a client that watches it, and the nodes that have joined
since the client's snapshot. -/
structure Watched where
  leader : Service
  client : Client.Topology
  joined : Finset NodeId

/-- The cluster states in a list of messages. Each goes to every client,
once for each recipient. -/
def updates (output : List ManagerProtocol) : List ClusterState :=
  output.filterMap fun
    | .clusterState _ state => some state
    | _ => none

/-- The nodes an event connects. -/
def LeaderEvent.joining : LeaderEvent → Finset NodeId
  | .join worker _ _ => {worker}
  | _ => ∅

namespace Watched

/-- One turn of the leader; the client applies what it broadcasts. -/
def step (w : Watched) (input : LeaderEvent × Readings) : Watched where
  leader := w.leader.turn (input.1.message, input.2)
  client := (updates (Election.output w.leader (input.1.message, input.2))).foldl
    Client.applyState w.client
  joined := w.joined ∪ input.1.joining

/-- The leader goes on leading. -/
structure GoesOn (w : Watched) (input : LeaderEvent × Readings) : Prop where
  factor : 1 ≤ input.2.replicationFactor
  leader : (w.leader.turn (input.1.message, input.2)).state.electedLeaderId = some w.leader.me.id

/-- **A watch at its start**: the client has applied a full snapshot of
the leader's, whose mapping names nodes it lists. -/
structure Starts (w : Watched) (topology : Client.Topology) : Prop where
  leads : w.leader.state.electedLeaderId = some w.leader.me.id
  self : w.leader.me.id ∈ w.leader.state.nodes
  named : ∀ p, ∀ n ∈ w.leader.state.partitions.holders p, n ∈ w.leader.state.nodes
  snapshot : ∃ id state, handleGetClusterState w.leader.state id = [.clusterState id state] ∧
    Client.outdated topology state = false ∧ w.client = Client.applyState topology state
  joined : w.joined = ∅

end Watched

/-- **What every state of a watch keeps**, from a snapshot that listed the
nodes `listed`. -/
structure Watching (listed : NodeId → Prop) (w : Watched) : Prop where
  leads : w.leader.state.electedLeaderId = some w.leader.me.id
  epoch : w.leader.state.epoch = some w.client.epoch
  leader : w.client.leaderId = some w.leader.me.id
  known : ∀ n ∈ w.leader.state.nodes, listed n ∨ n ∈ w.joined
  addressed : ∀ n, n ∈ w.client.nodes ↔ listed n
  holders : ∀ p, ∀ n ∈ w.client.partitions.holders p, listed n ∨ n ∈ w.joined

/-! ## The snapshot -/

theorem mem_foldl_insert (items : List ClusterNode) (nodes : Map NodeId Client.Node) (n : NodeId) :
    n ∈ items.foldl (fun nodes item =>
        nodes.insert item.id ⟨Client.endpoint item.host item.port, item.nodeType⟩) nodes ↔
      n ∈ nodes ∨ n ∈ items.map ClusterNode.id := by
  induction items generalizing nodes with
  | nil => simp
  | cons item items ih =>
    rw [List.foldl_cons, ih, Std.ExtTreeMap.mem_insert, List.map_cons, List.mem_cons]
    simp only [compare_eq_iff_eq]
    tauto

theorem Watched.Starts.watching {w : Watched} {topology : Client.Topology}
    (h : w.Starts topology) : Watching (· ∈ w.leader.state.nodes) w := by
  obtain ⟨id, state, hsnap, hfresh, hclient⟩ := h.snapshot
  obtain ⟨epoch, hepoch⟩ : ∃ epoch, w.leader.state.epoch = some epoch := by
    cases he : w.leader.state.epoch with
    | none => simp [handleGetClusterState, he] at hsnap
    | some epoch => exact ⟨epoch, rfl⟩
  obtain rfl : state =
      ⟨epoch, w.leader.me.id, listNodes w.leader.state.nodes, w.leader.state.partitions⟩ := by
    simp only [handleGetClusterState, hepoch, h.leads, List.cons.injEq,
      ManagerProtocol.clusterState.injEq, true_and, and_true] at hsnap
    exact hsnap.symm
  have hlisted : listNodes w.leader.state.nodes ≠ [] := by
    intro hnil
    have hself := mem_listNodes.mpr h.self
    rw [hnil] at hself
    cases hself
  have hnodes : w.client = ⟨epoch, some w.leader.me.id, (listNodes w.leader.state.nodes).foldl
      (fun nodes item => nodes.insert item.id ⟨Client.endpoint item.host item.port, item.nodeType⟩)
      ∅, w.leader.state.partitions⟩ := by
    rw [hclient, Client.applyState, if_neg (by simp [hfresh]), if_neg hlisted]
  refine ⟨h.leads, ?_, ?_, fun n hn => Or.inl hn, fun n => ?_, fun p n hn => Or.inl ?_⟩
  · rw [hnodes, hepoch]
  · rw [hnodes]
  · rw [hnodes, mem_foldl_insert, mem_listNodes]
    simp
  · rw [hnodes] at hn
    exact h.named p n hn

/-! ## One turn -/

variable {s : Service} {event : LeaderEvent} {r : Readings}

/-- **A turn adds the nodes its event connects, and no other.** -/
theorem mem_nodes_turn {n : NodeId} (hn : n ∈ (s.turn (event.message, r)).state.nodes) :
    n ∈ s.state.nodes ∨ n ∈ event.joining := by
  cases event with
  | tick => exact Or.inl (mem_nodes_tick.mp hn)
  | join worker host port =>
    have hhandled : n ∈ s.state.nodes.insert worker ⟨host, port, r.connectionNow, .worker⟩ :=
      mem_nodes_tick.mp hn
    rw [Std.ExtTreeMap.mem_insert, compare_eq_iff_eq] at hhandled
    rcases hhandled with rfl | hmem
    · exact Or.inr (Finset.mem_singleton_self _)
    · exact Or.inl hmem
  | leave worker =>
    have hhandled : n ∈ (handleNodeDisconnected s.state worker).nodes := mem_nodes_tick.mp hn
    refine Or.inl ?_
    unfold handleNodeDisconnected at hhandled
    split at hhandled
    · exact (Std.ExtTreeMap.mem_erase.mp hhandled).2
    · exact hhandled
  | acknowledge worker replicaId partitionId =>
    have hhandled : n ∈ (s.handle (.removePartitionFromReplica worker replicaId partitionId)
        r).1.state.nodes := mem_nodes_tick.mp hn
    exact Or.inl hhandled

/-- No event of workers touches the epoch. -/
theorem epoch_turn (s : Service) (event : LeaderEvent) (r : Readings) :
    (s.turn (event.message, r)).state.epoch = s.state.epoch := by
  have hhandle : ∀ msg, event.message = some msg →
      (s.handle msg r).1.state.epoch = s.state.epoch := by
    intro msg hmsg
    rcases handle_decision s msg r with ⟨h, -⟩ | ⟨e, l, -, hkind, -, -⟩ | ⟨id, ts, e, a, rfl, -⟩
    · exact h
    · rcases hkind with ⟨ts, rfl⟩ | ⟨rcpt, st, rfl, -, -⟩
      · cases event <;> cases hmsg
      · cases event <;> cases hmsg
    · cases event <;> cases hmsg
  cases hmsg : event.message with
  | none => exact tick_epoch r
  | some msg => exact (tick_epoch r).trans (hhandle msg hmsg)

theorem updates_eq_nil {output : List ManagerProtocol}
    (h : ∀ o ∈ output, o.replicates = false) : updates output = [] := by
  refine List.filterMap_eq_nil_iff.mpr fun o ho => ?_
  have hkind := h o ho
  cases o with
  | clusterState rcpt st => cases hkind
  | _ => rfl

@[simp] theorem updates_append (l l' : List ManagerProtocol) :
    updates (l ++ l') = updates l ++ updates l' := List.filterMap_append

theorem updates_tick : updates (s.tick r).2 = updates (workerPartitions
    (heartbeats s.state s.me r.heartbeatNow r.heartbeatRandom).1 s.me r.replicationFactor).2 := by
  simp only [Service.tick, updates_append]
  rw [updates_eq_nil (replicates_heartbeats _ _), updates_eq_nil (replicates_startElection _ _),
    List.nil_append, List.nil_append]

/-- **The cluster states of a tick are those of its recomputation**: they
carry no nodes, and a mapping that names nodes of the table. -/
theorem mem_updates_tick {state : ClusterState} (hlead : s.state.electedLeaderId = some s.me.id)
    (hrf : 1 ≤ r.replicationFactor) (hmem : state ∈ updates (s.tick r).2) :
    state.epoch = s.state.epoch.getD 0 ∧ state.leaderId = s.me.id ∧ state.nodes = [] ∧
      ∀ p, ∀ n ∈ state.partitions.holders p, n ∈ (s.tick r).1.state.nodes := by
  obtain ⟨hbeat, hepoch, -, -, -, -⟩ := heartbeats_leading (r := r) hlead
  rw [updates_tick] at hmem
  simp only [Service.tick, workerPartitions_nodes]
  generalize (heartbeats s.state s.me r.heartbeatNow r.heartbeatRandom).1 = beat at *
  rcases workerPartitions_outcome beat s.me r.replicationFactor with
    ⟨h, -⟩ | ⟨-, hv, state', rfl, h⟩ | ⟨-, -, -, h⟩
  · rw [h] at hmem
    cases hmem
  · rw [h] at hmem
    obtain rfl : state = createNewWorkersState { beat with
        partitions := recompute beat.partitions r.replicationFactor beat.workers
        workersWithCalculatedPartitions := beat.workers.toFinset } := by
      simp only [updates, List.mem_filterMap, List.mem_map] at hmem
      obtain ⟨o, ⟨id, -, rfl⟩, ho⟩ := hmem
      exact (Option.some.inj ho).symm
    refine ⟨by rw [← hepoch]; rfl, ?_, rfl, fun p n hn => ?_⟩
    · show beat.electedLeaderId.getD ⟨0⟩ = s.me.id
      rw [hbeat]
      rfl
    · obtain ⟨e, he, hne⟩ := Partitions.mem_holders.mp hn
      have hnamed := (namesWorkers_newMapping hv hrf).named p e he hne
      have hworker := mem_workers.mp (List.mem_toFinset.mp hnamed)
      rw [Std.ExtTreeMap.mem_iff_isSome_getElem?, ← Option.isSome_map, hworker]
      rfl
  · rw [h] at hmem
    cases hmem

/-- **What a turn broadcasts to the clients.** -/
theorem mem_updates_turn {state : ClusterState} (hrf : 1 ≤ r.replicationFactor)
    (hlead : (s.turn (event.message, r)).state.electedLeaderId = some s.me.id)
    (hmem : state ∈ updates (Election.output s (event.message, r))) :
    state.epoch = s.state.epoch.getD 0 ∧ state.leaderId = s.me.id ∧ state.nodes = [] ∧
      ∀ p, ∀ n ∈ state.partitions.holders p, n ∈ (s.turn (event.message, r)).state.nodes := by
  cases hmsg : event.message with
  | none =>
    rw [hmsg] at hlead hmem
    have hbefore : s.state.electedLeaderId = some s.me.id := by
      rcases tick_leader (s := s) r with h | h
      · rw [← h]
        exact hlead
      · exact absurd (hlead.symm.trans h) (by simp)
    exact mem_updates_tick hbefore hrf hmem
  | some msg =>
    rw [hmsg] at hlead hmem
    have hepoch : (s.handle msg r).1.state.epoch = s.state.epoch := by
      have h := epoch_turn s event r
      rw [hmsg] at h
      exact (tick_epoch r).symm.trans h
    have hquiet : updates (s.handle msg r).2 = [] := by
      cases event with
      | tick => cases hmsg
      | join worker host port => cases hmsg; rfl
      | leave worker => cases hmsg; rfl
      | acknowledge worker replicaId partitionId =>
        cases hmsg
        refine List.filterMap_eq_nil_iff.mpr fun o ho => ?_
        simp only [Service.handle, handleRemoveOldPartition] at ho
        split at ho
        · obtain ⟨key, -, rfl⟩ := List.mem_map.mp ho
          rfl
        · cases ho
    have hmem' : state ∈ updates ((s.handle msg r).1.tick r).2 := by
      have hsplit : updates (Election.output s (some msg, r)) =
          updates (s.handle msg r).2 ++ updates ((s.handle msg r).1.tick r).2 :=
        updates_append _ _
      rw [hsplit, hquiet] at hmem
      exact hmem
    have hhandled : (s.handle msg r).1.state.electedLeaderId = some (s.handle msg r).1.me.id := by
      rw [handle_me]
      rcases tick_leader (s := (s.handle msg r).1) r with h | h
      · rw [← h]
        exact hlead
      · exact absurd (hlead.symm.trans h) (by simp)
    have hupdate := mem_updates_tick hhandled hrf hmem'
    rw [handle_me, hepoch] at hupdate
    exact hupdate

/-- **A client that applies partitions-only updates of its leader keeps
its nodes**, and ends with one of their tables, or its own. -/
theorem foldl_applyState (me : NodeId) (named : Partitions → Prop) (states : List ClusterState)
    {c : Client.Topology} (hleader : c.leaderId = some me) (hnamed : named c.partitions)
    (hstates : ∀ state ∈ states, state.epoch = c.epoch ∧ state.leaderId = me ∧
      state.nodes = [] ∧ named state.partitions) :
    (states.foldl Client.applyState c).epoch = c.epoch ∧
      (states.foldl Client.applyState c).leaderId = some me ∧
      (states.foldl Client.applyState c).nodes = c.nodes ∧
      named (states.foldl Client.applyState c).partitions := by
  induction states generalizing c with
  | nil => exact ⟨rfl, hleader, rfl, hnamed⟩
  | cons state states ih =>
    obtain ⟨hepoch, hid, hnone, htable⟩ := hstates state List.mem_cons_self
    have hfresh : Client.outdated c state = false := by
      simp [Client.outdated, hepoch, hleader, hid]
    have happly : Client.applyState c state = ⟨c.epoch, some me, c.nodes, state.partitions⟩ := by
      simp [Client.applyState, hfresh, hepoch, hid, hnone]
    rw [List.foldl_cons, happly]
    exact ih rfl htable fun st hst => hstates st (List.mem_cons_of_mem _ hst)

theorem Watching.step {listed : NodeId → Prop} {w : Watched} {input : LeaderEvent × Readings}
    (hw : Watching listed w) (hon : w.GoesOn input) : Watching listed (w.step input) := by
  obtain ⟨event, r⟩ := input
  have hknown : ∀ n ∈ (w.leader.turn (event.message, r)).state.nodes,
      listed n ∨ n ∈ w.joined ∪ event.joining := by
    intro n hn
    rcases mem_nodes_turn hn with hn | hn
    · exact (hw.known n hn).imp_right fun h => Finset.mem_union_left _ h
    · exact Or.inr (Finset.mem_union_right _ hn)
  obtain ⟨hepoch, hleader, hnodes, hholders⟩ := foldl_applyState w.leader.me.id
    (fun t => ∀ p, ∀ n ∈ t.holders p, listed n ∨ n ∈ w.joined ∪ event.joining)
    (updates (Election.output w.leader (event.message, r))) hw.leader
    (fun p n hn => (hw.holders p n hn).imp_right fun h => Finset.mem_union_left _ h)
    (fun state hstate => by
      obtain ⟨hepoch, hid, hnone, hmapping⟩ := mem_updates_turn hon.factor hon.leader hstate
      rw [hw.epoch] at hepoch
      exact ⟨hepoch, hid, hnone, fun p n hn => hknown n (hmapping p n hn)⟩)
  refine ⟨?_, ?_, ?_, hknown, fun n => ?_, hholders⟩
  · show (w.leader.turn (event.message, r)).state.electedLeaderId =
      some (w.leader.turn (event.message, r)).me.id
    rw [turn_me]
    exact hon.leader
  · show (w.leader.turn (event.message, r)).state.epoch = some (w.step (event, r)).client.epoch
    rw [epoch_turn, hw.epoch]
    exact congrArg some hepoch.symm
  · show (w.step (event, r)).client.leaderId = some (w.leader.turn (event.message, r)).me.id
    rw [turn_me]
    exact hleader
  · show n ∈ (w.step (event, r)).client.nodes ↔ listed n
    rw [← hw.addressed n]
    exact iff_of_eq (congrArg (n ∈ ·) hnodes)

/-! ## A whole run -/

/-- **A client can address the holders its leader listed**: after every
update, each master and replica of the client's mapping has an entry among
its nodes and is never an unknown worker, unless it was not in the
leader's table when the snapshot was taken and has joined since. -/
theorem client_addresses_holders (w₀ : Watched) (topology : Client.Topology)
    (inputs : List (LeaderEvent × Readings)) (hstarts : w₀.Starts topology)
    (hok : Along Watched.step Watched.GoesOn w₀ inputs) (p : PartitionId) (n : NodeId)
    (hn : n ∈ (run Watched.step w₀ inputs).client.partitions.holders p) :
    (n ∈ (run Watched.step w₀ inputs).client.nodes ∧
      ∀ (workers : Map NodeId String) (dial : String → Except String String),
        Client.worker workers (run Watched.step w₀ inputs).client dial n ≠
          .error (.unknownWorker n)) ∨
      n ∉ w₀.leader.state.nodes ∧ n ∈ (run Watched.step w₀ inputs).joined := by
  have hw : Watching (· ∈ w₀.leader.state.nodes) (run Watched.step w₀ inputs) :=
    run_inv (fun w input hw hon => hw.step hon) hstarts.watching hok
  by_cases hlisted : n ∈ w₀.leader.state.nodes
  · have hmem := (hw.addressed n).mpr hlisted
    exact Or.inl ⟨hmem, fun workers dial => Client.worker_ne_unknown hmem workers dial⟩
  · exact Or.inr ⟨hlisted, (hw.holders p n hn).resolve_left hlisted⟩

/-- A client that has applied the snapshot of a leader with one worker. -/
def watchedOne : Watched :=
  ⟨oneWorker,
    (updates (handleGetClusterState oneWorker.state ⟨9⟩)).foldl Client.applyState default, ∅⟩

theorem starts_watchedOne : watchedOne.Starts default := by
  refine ⟨by decide +kernel, by decide +kernel, fun p n hn => ?_,
    ⟨⟨9⟩, _, rfl, by decide +kernel, rfl⟩, rfl⟩
  obtain ⟨e, he, hne⟩ := Partitions.mem_holders.mp hn
  have hnamed : ∀ e ∈ oneWorker.state.partitions.mapping.toList,
      ∀ n ∈ e.2.holders, n ∈ oneWorker.state.nodes := by decide +kernel
  exact hnamed (p, e) (Map.mem_toList.mpr he) n hne

theorem updates_of_stale {state : State} {me : Me} (rf : ℕ)
    (hl : state.electedLeaderId = some me.id) (hv : state.workers ≠ [])
    (hcalc : ¬ Calculated state) :
    updates (workerPartitions state me rf).2 = (state.otherNodes me).map fun _ =>
      createNewWorkersState { state with
        partitions := recompute state.partitions rf state.workers
        workersWithCalculatedPartitions := state.workers.toFinset } := by
  obtain ⟨state', rfl, h⟩ := workerPartitions_of_stale rf hl hv hcalc
  rw [h]
  simp [updates]

/-- The state in which a turn of a leader looks at its workers. -/
def beating (s : Service) (msg : ManagerProtocol) (r : Readings) : State :=
  (heartbeats (s.handle msg r).1.state s.me r.heartbeatNow r.heartbeatRandom).1

/-- A turn that finds other workers than those of the table recomputes it
and puts it out. -/
theorem turn_of_stale (s : Service) (msg : ManagerProtocol) (r : Readings) (vec : List NodeId)
    (hl : (beating s msg r).electedLeaderId = some s.me.id)
    (hworkers : (beating s msg r).workers = vec) (hvec : vec ≠ [])
    (hstale : vec.toFinset ≠ (beating s msg r).workersWithCalculatedPartitions)
    (hothers : (beating s msg r).otherNodes s.me ≠ []) :
    (s.turn (some msg, r)).state.partitions =
      recompute (s.handle msg r).1.state.partitions r.replicationFactor vec ∧
    (updates ((s.handle msg r).1.tick r).2)[0]? =
      some ⟨(beating s msg r).epoch.getD 0, s.me.id, [],
        recompute (s.handle msg r).1.state.partitions r.replicationFactor vec⟩ := by
  subst hworkers
  have hpart : (beating s msg r).partitions = (s.handle msg r).1.state.partitions :=
    heartbeats_partitions _ _
  have hupdates : updates ((s.handle msg r).1.tick r).2 =
      updates (workerPartitions (beating s msg r) s.me r.replicationFactor).2 := by
    rw [updates_tick, handle_me]
    rfl
  obtain ⟨state', hstate', heq⟩ := workerPartitions_of_stale r.replicationFactor hl hvec hstale
  constructor
  · have hturn : (s.turn (some msg, r)).state.partitions =
        (workerPartitions (beating s msg r) s.me r.replicationFactor).1.partitions := by
      simp only [Service.turn, Service.process, Service.tick, handle_me]
      rfl
    rw [hturn, heq, hstate', ← hpart]
  · rw [hupdates, updates_of_stale r.replicationFactor hl hvec hstale, ← hpart, List.getElem?_map,
      List.getElem?_eq_getElem (List.length_pos_iff.mpr hothers), createNewWorkersState, hl]
    rfl

/-- Worker 2 joins. -/
def workerTwo : LeaderEvent × Readings := (.join ⟨2⟩ "b" 2, ⟨20, 20, 500, 20, 500, 1⟩)

/-- The leader with worker 2 in its table, about to recompute. -/
def twoWorkers : State :=
  (heartbeats (oneWorker.handle (.newConnection (some ⟨2⟩) "b" 2 false) workerTwo.2).1.state
    oneWorker.me 20 500).1

/-- And leaves again. -/
def twoLeaves : LeaderEvent × Readings := (.leave ⟨2⟩, ⟨40, 40, 500, 40, 500, 1⟩)

/-- The leader without worker 2, about to recompute. -/
def oneLeft : State :=
  (heartbeats ((watchedOne.step workerTwo).leader.handle (.nodeDisconnected ⟨2⟩)
    twoLeaves.2).1.state oneWorker.me 40 500).1

/-- Worker 3 holds the first partition when worker 2 has come and gone. -/
theorem three_holds_again : (⟨3⟩ : NodeId) ∈
    (run Watched.step watchedOne [workerTwo, twoLeaves]).client.partitions.holders ⟨0⟩ := by
  have hupdates : updates (Election.output (watchedOne.step workerTwo).leader
      (twoLeaves.1.message, twoLeaves.2)) =
        updates (workerPartitions oneLeft oneWorker.me 1).2 := updates_tick
  have hothers : oneLeft.otherNodes oneWorker.me = [⟨3⟩] := by decide +kernel
  have hworkers : oneLeft.workers = [⟨3⟩] := by decide +kernel
  have hstale : ¬ Calculated oneLeft := by
    unfold Calculated
    decide +kernel
  rw [updates_of_stale 1 (by decide +kernel) (by decide +kernel) hstale, hothers] at hupdates
  have hclient : ((watchedOne.step workerTwo).step twoLeaves).client.partitions =
      recompute oneLeft.partitions 1 oneLeft.workers := by
    show ((updates (Election.output (watchedOne.step workerTwo).leader
      (twoLeaves.1.message, twoLeaves.2))).foldl
        Client.applyState (watchedOne.step workerTwo).client).partitions = _
    rw [hupdates, List.map_cons, List.map_nil, List.foldl_cons, List.foldl_nil, Client.applyState,
      if_neg (by decide +kernel)]
    rfl
  rw [run_cons, run_cons, run_nil, hclient, hworkers]
  exact first_holds_zero _ _ _

/-- The client addresses worker 3 when worker 2 has come and gone. -/
theorem client_addresses_holders_left :
    (⟨3⟩ : NodeId) ∈ (run Watched.step watchedOne [workerTwo, twoLeaves]).client.nodes :=
  (client_addresses_holders watchedOne default [workerTwo, twoLeaves] starts_watchedOne
    ⟨⟨by decide, by decide +kernel⟩, ⟨by decide, by decide +kernel⟩, trivial⟩ ⟨0⟩ ⟨3⟩
    three_holds_again).elim (fun h => h.1) fun h => absurd h.1 (by decide +kernel)

/-- **A worker that has joined since the snapshot is a holder the client
cannot address.** -/
theorem joined_worker_unaddressed :
    ¬ ∀ (w₀ : Watched) (topology : Client.Topology) (inputs : List (LeaderEvent × Readings)),
      w₀.Starts topology → Along Watched.step Watched.GoesOn w₀ inputs →
      ∀ p, ∀ n ∈ (run Watched.step w₀ inputs).client.partitions.holders p,
        n ∈ (run Watched.step w₀ inputs).client.nodes := by
  intro hall
  have hmissing := hall watchedOne default [workerTwo] starts_watchedOne
    ⟨⟨by decide, by decide +kernel⟩, trivial⟩ ⟨0⟩ ⟨2⟩ ?_
  · exact absurd hmissing (by decide +kernel)
  -- the turn recomputes the table over workers 2 and 3
  have hupdates : updates (Election.output oneWorker (workerTwo.1.message, workerTwo.2)) =
      updates (workerPartitions twoWorkers oneWorker.me 1).2 := updates_tick
  have hothers : twoWorkers.otherNodes oneWorker.me = [⟨2⟩, ⟨3⟩] := by decide +kernel
  have hworkers : twoWorkers.workers = [⟨2⟩, ⟨3⟩] := by decide +kernel
  have hstale : ¬ Calculated twoWorkers := by
    unfold Calculated
    decide +kernel
  rw [updates_of_stale 1 (by decide +kernel) (by decide +kernel) hstale, hothers] at hupdates
  have hclient : (watchedOne.step workerTwo).client.partitions =
      recompute twoWorkers.partitions 1 twoWorkers.workers := by
    show ((updates (Election.output oneWorker (workerTwo.1.message, workerTwo.2))).foldl
      Client.applyState watchedOne.client).partitions = _
    rw [hupdates, List.map_cons, List.map_cons, List.map_nil, List.foldl_cons, List.foldl_cons,
      List.foldl_nil, Client.applyState, if_neg (by decide +kernel)]
    rfl
  rw [run_cons, run_nil, hclient, hworkers]
  exact first_holds_zero _ _ _

end Manager

end NoSqlStore
