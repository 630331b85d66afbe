import NoSqlStore.Election.Cluster
import NoSqlStore.Manager.Custody
/-!
# Followers of one leader

A leader, a manager that follows it, and the link between them, which
carries the leader's tables and the acknowledgements it passes on, in
order. The invariant is that replaying what is on the link onto the
follower's table gives the leader's (`InStep`). A turn of the leader
keeps it unless the last worker has left a table with old replicas: there
`worker_partitions` empties the old replicas and tells nobody
(`replays_iff`).
-/

namespace NoSqlStore

namespace Manager

open Runs

/-! ## The pair -/

/-- A leader, a follower, and what is on its way between them. -/
structure Pair where
  leader : Service
  follower : Service
  pending : List ManagerProtocol

/-- What happens to a leader besides its followers. -/
inductive LeaderEvent
  | join (worker : NodeId) (host : String) (port : ℕ)
  | leave (worker : NodeId)
  | acknowledge (worker replicaId : NodeId) (partitionId : PartitionId)
  | tick

/-- The message of an event. -/
def LeaderEvent.message : LeaderEvent → Option ManagerProtocol
  | .join worker host port => some (.newConnection (some worker) host port false)
  | .leave worker => some (.nodeDisconnected worker)
  | .acknowledge worker replicaId partitionId =>
    some (.removePartitionFromReplica worker replicaId partitionId)
  | .tick => none

/-- The workers an event names. -/
def LeaderEvent.workers : LeaderEvent → List NodeId
  | .join worker _ _ => [worker]
  | .leave worker => [worker]
  | .acknowledge worker replicaId _ => [worker, replicaId]
  | .tick => []

/-- The messages that carry the table from manager to manager. -/
def ManagerProtocol.replicates : ManagerProtocol → Bool
  | .clusterState _ _ | .removePartitionFromReplica _ _ _ => true
  | _ => false

/-- What the link carries of a message the leader puts out. -/
def carried (leader follower : NodeId) (o : ManagerProtocol) : Option ManagerProtocol :=
  match Election.route leader o with
  | some (id, msg) => if id = follower ∧ msg.replicates then some msg else none
  | none => none

/-- One turn of one of the two. The follower reads its link in order, and
anything else from elsewhere. -/
inductive PairAction
  | leader (event : LeaderEvent) (r : Readings)
  | deliver (r : Readings)
  | follower (msg : Option ManagerProtocol) (r : Readings)

/-- A manager leads in an epoch, and has itself and the follower in its
table. -/
structure Leading (s : Service) (follower : NodeId) : Prop where
  leads : s.state.electedLeaderId = some s.me.id
  epoch : s.state.epoch.isSome
  self : s.me.id ∈ s.state.nodes
  knows : follower ∈ s.state.nodes
  distinct : follower ≠ s.me.id

namespace Pair

def step (p : Pair) : PairAction → Pair
  | .leader event r =>
    { p with
      leader := p.leader.turn (event.message, r)
      pending := p.pending ++ (Election.output p.leader (event.message, r)).filterMap
        (carried p.leader.me.id p.follower.me.id) }
  | .deliver r =>
    match p.pending with
    | [] => p
    | msg :: rest => { p with follower := p.follower.turn (some msg, r), pending := rest }
  | .follower msg r => { p with follower := p.follower.turn (msg, r) }

/-- The follower follows the leader in its epoch. -/
def Follows (p : Pair) : Prop :=
  p.follower.state.electedLeaderId = some p.leader.me.id ∧
    p.follower.state.epoch = p.leader.state.epoch

/-- **The runs considered**: the leader's events are of workers, the
follower goes on following it, and has tables and acknowledgements from
nobody else. -/
structure Admissible (p : Pair) (a : PairAction) : Prop where
  workers : ∀ event r, a = .leader event r →
    ∀ w ∈ event.workers, w ≠ p.leader.me.id ∧ w ≠ p.follower.me.id
  elsewhere : ∀ msg r, a = .follower (some msg) r → msg.replicates = false
  follows : (p.step a).Follows

/-- **A pair at its start**: the leader leads and knows the follower, which
follows it with the same table, and nothing is on its way. -/
structure Starts (p : Pair) : Prop where
  leading : Leading p.leader p.follower.me.id
  follows : p.Follows
  pending : p.pending = []
  table : p.follower.state.partitions = p.leader.state.partitions

/-- The leader between the message of an event and the tick. -/
def handled (p : Pair) (event : LeaderEvent) (r : Readings) : State :=
  match event.message with
  | some msg => (p.leader.handle msg r).1.state
  | none => p.leader.state

/-- **No worker is left with old replicas to strike off**: when the leader
finds itself without workers, the table it holds was computed for none, or
has no old replica. -/
def Announces (p : Pair) (a : PairAction) : Prop :=
  ∀ event r, a = .leader event r → (p.handled event r).workers = [] →
    (p.handled event r).workersWithCalculatedPartitions = ∅ ∨
      (p.handled event r).partitions.oldReplicas = ∅

end Pair

/-! ## Replaying a link -/

/-- The table a message leaves. -/
def replayed (t : Partitions) : ManagerProtocol → Partitions
  | .clusterState _ state => state.partitions
  | .removePartitionFromReplica _ replicaId partitionId => removeOldReplica t replicaId partitionId
  | _ => t

/-- The table a list of messages leaves. -/
def replay (t : Partitions) (msgs : List ManagerProtocol) : Partitions := msgs.foldl replayed t

theorem replay_append (t : Partitions) (l l' : List ManagerProtocol) :
    replay t (l ++ l') = replay (replay t l) l' := List.foldl_append

/-- A message of the leader `leader` in epoch `epoch`. -/
def OfLeader (epoch : Option ℕ) (leader : NodeId) : ManagerProtocol → Prop
  | .clusterState _ state => some state.epoch = epoch ∧ state.leaderId = leader
  | .removePartitionFromReplica _ _ _ => True
  | _ => False

/-- **What every state of a run keeps.** -/
structure InStep (p : Pair) : Prop where
  leading : Leading p.leader p.follower.me.id
  follows : p.Follows
  pending : ∀ msg ∈ p.pending, OfLeader p.leader.state.epoch p.leader.me.id msg
  replays : replay p.follower.state.partitions p.pending = p.leader.state.partitions

theorem Pair.Starts.inStep {p : Pair} (h : p.Starts) : InStep p := by
  refine ⟨h.leading, h.follows, ?_, ?_⟩
  · rw [h.pending]
    simp
  · rw [h.pending]
    exact h.table

/-! ## What the leader puts on the link -/

variable {s : Service} {follower : NodeId} {r : Readings}

/-- Of a message to each node of a list, one is for the follower. -/
theorem carried_broadcast {leader : NodeId} {l : List NodeId} {f : NodeId → ManagerProtocol}
    {msg : ManagerProtocol} (hl : l.Nodup) (hmem : follower ∈ l)
    (hmsg : ∀ id, carried leader follower (f id) = if id = follower then some msg else none) :
    (l.map f).filterMap (carried leader follower) = [msg] := by
  induction l with
  | nil => cases hmem
  | cons id l ih =>
    rw [List.nodup_cons] at hl
    rw [List.map_cons, List.filterMap_cons, hmsg]
    by_cases hid : id = follower
    · have hrest : (l.map f).filterMap (carried leader follower) = [] := by
        refine List.filterMap_eq_nil_iff.mpr fun o ho => ?_
        obtain ⟨i, hi, rfl⟩ := List.mem_map.mp ho
        rw [hmsg, if_neg]
        rintro rfl
        exact hl.1 (hid ▸ hi)
      rw [if_pos hid, hrest]
    · rw [if_neg hid]
      exact ih hl.2 ((List.mem_cons.mp hmem).resolve_left fun h => hid h.symm)

theorem mem_otherNodes {state : State} {me : Me} {id : NodeId} :
    id ∈ state.otherNodes me ↔ id ∈ state.nodes ∧ id ≠ me.id := by
  rw [State.otherNodes, List.mem_filter, Std.ExtTreeMap.mem_keys, decide_eq_true_eq]

theorem nodup_otherNodes (state : State) (me : Me) : (state.otherNodes me).Nodup :=
  Std.ExtTreeMap.nodup_keys.filter _

/-- What is neither a table nor an acknowledgement stays off the link. -/
theorem carried_eq_nil {leader : NodeId} {outs : List ManagerProtocol}
    (h : ∀ o ∈ outs, o.replicates = false) : outs.filterMap (carried leader follower) = [] := by
  refine List.filterMap_eq_nil_iff.mpr fun o ho => ?_
  have hkind := h o ho
  unfold carried
  cases o with
  | clusterState rcpt st => cases hkind
  | removePartitionFromReplica id w q => cases hkind
  | _ => simp [Election.route, ManagerProtocol.replicates]

theorem replicates_heartbeats (now random : ℕ) :
    ∀ o ∈ (heartbeats s.state s.me now random).2, o.replicates = false := by
  intro o ho
  unfold heartbeats at ho
  split at ho
  · split at ho
    · dsimp only at ho
      split at ho
      · obtain ⟨key, -, rfl⟩ := List.mem_map.mp ho
        rfl
      · cases ho
    · cases ho
  · cases ho

theorem replicates_startElection {state : State} (now random : ℕ) :
    ∀ o ∈ (startElectionIfNeeded state s.elections s.me now random).2, o.replicates = false := by
  intro o ho
  unfold startElectionIfNeeded at ho
  split at ho
  · split at ho
    · obtain ⟨id, -, rfl⟩ := List.mem_map.mp ho
      rfl
    · cases ho
  · cases ho

theorem workers_eq_nil_iff {state state' : State}
    (h : ∀ id, id ∈ state.workers ↔ id ∈ state'.workers) :
    state.workers = [] ↔ state'.workers = [] := by
  rw [List.eq_nil_iff_forall_not_mem, List.eq_nil_iff_forall_not_mem]
  exact forall_congr' fun id => not_congr (h id)

/-- With no worker connected every old replica is struck off. -/
theorem oldReplicas_copy_nil (t : Partitions) :
    (copyCurrentMappingToOld t []).oldReplicas = ∅ := by
  ext1 p
  rw [oldReplicas_copy, if_pos (by simp), Std.ExtTreeMap.getElem?_empty]

theorem eq_copy_nil_iff (t : Partitions) :
    t = copyCurrentMappingToOld t [] ↔ t.oldReplicas = ∅ := by
  constructor
  · intro h
    rw [h]
    exact oldReplicas_copy_nil t
  · intro h
    calc t = { t with oldReplicas := ∅ } := by rw [← h]
      _ = copyCurrentMappingToOld t [] := by
        rw [← oldReplicas_copy_nil t]
        rfl

/-- The heartbeats of a leader change only the time of its own entry. -/
theorem heartbeats_leading (hl : s.state.electedLeaderId = some s.me.id) :
    let beat := (heartbeats s.state s.me r.heartbeatNow r.heartbeatRandom).1
    beat.electedLeaderId = some s.me.id ∧ beat.epoch = s.state.epoch ∧
      beat.partitions = s.state.partitions ∧
      beat.workersWithCalculatedPartitions = s.state.workersWithCalculatedPartitions ∧
      (beat.workers = [] ↔ s.state.workers = []) ∧ ∀ id, id ∈ beat.nodes ↔ id ∈ s.state.nodes := by
  refine ⟨heartbeats_leader_of_me _ _ hl, heartbeats_epoch _ _, heartbeats_partitions _ _,
    heartbeats_calculated _ _, workers_eq_nil_iff (workers_heartbeats _ _),
    fun id => mem_nodes_heartbeats⟩

/-- **What a tick of the leader puts on the link**: its new table if it
recomputed one. Replaying it gives the table the tick leaves, unless the
tick has struck off old replicas with no worker left to tell of. -/
theorem Leading.tick_link (hl : Leading s follower) :
    (∀ msg ∈ (s.tick r).2.filterMap (carried s.me.id follower),
      OfLeader s.state.epoch s.me.id msg) ∧
    (replay s.state.partitions ((s.tick r).2.filterMap (carried s.me.id follower)) =
        (s.tick r).1.state.partitions ↔
      (s.state.workers = [] → s.state.workersWithCalculatedPartitions = ∅ ∨
        s.state.partitions.oldReplicas = ∅)) := by
  obtain ⟨e, he⟩ := Option.isSome_iff_exists.mp hl.epoch
  -- the beat and the election put nothing on the link
  have hsilent : ∀ table : List ManagerProtocol,
      ((heartbeats s.state s.me r.heartbeatNow r.heartbeatRandom).2 ++
        (startElectionIfNeeded (heartbeats s.state s.me r.heartbeatNow r.heartbeatRandom).1
          s.elections s.me r.electionNow r.electionRandom).2 ++ table).filterMap
        (carried s.me.id follower) = table.filterMap (carried s.me.id follower) := by
    intro table
    rw [List.filterMap_append, List.filterMap_append, carried_eq_nil (replicates_heartbeats _ _),
      carried_eq_nil (replicates_startElection _ _), List.nil_append, List.nil_append]
  obtain ⟨hbeatLeader, hepoch, htable, hcalc, hworkers, hnodes⟩ :=
    heartbeats_leading (r := r) hl.leads
  simp only [Service.tick]
  rw [hsilent]
  generalize (heartbeats s.state s.me r.heartbeatNow r.heartbeatRandom).1 = beat at *
  rw [← hworkers, ← hcalc, ← htable, ← hepoch]
  rcases workerPartitions_outcome beat s.me r.replicationFactor with
    ⟨h, hcal⟩ | ⟨-, hv, state', hstate, h⟩ | ⟨-, hv, hcal, h⟩
  · rw [h]
    refine ⟨by simp, iff_of_true rfl fun hnone => Or.inl ?_⟩
    rw [← hcal hbeatLeader, hnone, List.toFinset_nil]
  · have hlink : ((beat.otherNodes s.me).map fun id =>
        .clusterState id (createNewWorkersState state')).filterMap (carried s.me.id follower) =
        [.clusterState follower (createNewWorkersState state')] := by
      refine carried_broadcast (nodup_otherNodes _ _)
        (mem_otherNodes.mpr ⟨(hnodes follower).mpr hl.knows, hl.distinct⟩) fun id => ?_
      by_cases hid : id = follower
      · simp [carried, Election.route, ManagerProtocol.replicates, hid]
      · simp [carried, Election.route, hid]
    rw [h]
    dsimp only
    rw [hlink]
    refine ⟨fun msg hmsg => ?_, iff_of_true rfl fun hnone => absurd hnone hv⟩
    rw [List.mem_singleton.mp hmsg, hstate]
    simp [OfLeader, createNewWorkersState, hbeatLeader, hepoch, he]
  · rw [h]
    refine ⟨by simp, ?_⟩
    -- no worker is left: the leader recomputes and announces nothing
    show beat.partitions = copyCurrentMappingToOld beat.partitions [] ↔ _
    rw [eq_copy_nil_iff]
    constructor
    · exact fun hold _ => Or.inr hold
    · intro hnone
      refine (hnone hv).resolve_left fun hempty => hcal ?_
      rw [Calculated, hv, hempty, List.toFinset_nil]

/-- A tick of the leader keeps it leading. -/
theorem Leading.tick (hl : Leading s follower) (r : Readings) : Leading (s.tick r).1 follower := by
  obtain ⟨hleads, -⟩ := heartbeats_leading (r := r) hl.leads
  refine ⟨?_, ?_, mem_nodes_tick.mpr hl.self, mem_nodes_tick.mpr hl.knows, hl.distinct⟩
  · simpa [Service.tick] using hleads
  · rw [tick_epoch]
    exact hl.epoch

/-- A worker that leaves is taken off the table, and nothing else. -/
theorem Leading.leave (hl : Leading s follower) {worker : NodeId} (hme : worker ≠ s.me.id)
    (hF : worker ≠ follower) :
    handleNodeDisconnected s.state worker =
      { s.state with nodes := s.state.nodes.erase worker } := by
  have hself : s.me.id ∈ s.state.nodes.erase worker :=
    Std.ExtTreeMap.mem_erase.mpr ⟨by simpa using hme, hl.self⟩
  have hknows : follower ∈ s.state.nodes.erase worker :=
    Std.ExtTreeMap.mem_erase.mpr ⟨by simpa using hF, hl.knows⟩
  have hstay : ¬ (some worker = s.state.electedLeaderId ∨
      (s.state.nodes.erase worker).size = 1) := by
    rintro (h | h)
    · rw [hl.leads] at h
      exact hme (Option.some.inj h)
    · exact size_ne_one hself hknows hl.distinct.symm h
  unfold handleNodeDisconnected
  by_cases hmem : worker ∈ s.state.nodes
  · rw [if_pos hmem]
    dsimp only
    rw [if_neg hstay]
  · have herase : s.state.nodes.erase worker = s.state.nodes := by
      ext1 id
      rw [Std.ExtTreeMap.getElem?_erase]
      split
      · rename_i heq
        rw [← compare_eq_iff_eq.mp heq]
        exact (Std.ExtTreeMap.getElem?_eq_none hmem).symm
      · rfl
    rw [if_neg hmem, herase]

/-- **What the message of an event does**: the leader goes on leading, and
passes an acknowledgement on to the follower. -/
theorem Leading.handle (hl : Leading s follower) {event : LeaderEvent} {msg : ManagerProtocol}
    (hmsg : event.message = some msg)
    (hw : ∀ w ∈ event.workers, w ≠ s.me.id ∧ w ≠ follower) :
    Leading (s.handle msg r).1 follower ∧ (s.handle msg r).1.state.epoch = s.state.epoch ∧
      (∀ m ∈ (s.handle msg r).2.filterMap (carried s.me.id follower),
        OfLeader s.state.epoch s.me.id m) ∧
      replay s.state.partitions ((s.handle msg r).2.filterMap (carried s.me.id follower)) =
        (s.handle msg r).1.state.partitions := by
  cases event with
  | tick => cases hmsg
  | join worker host port =>
    cases hmsg
    refine ⟨⟨hl.leads, hl.epoch, ?_, ?_, hl.distinct⟩, rfl, ?_, rfl⟩
    · exact Std.ExtTreeMap.mem_insert.mpr (Or.inr hl.self)
    · exact Std.ExtTreeMap.mem_insert.mpr (Or.inr hl.knows)
    · simp [Service.handle, handleNewConnection]
  | leave worker =>
    cases hmsg
    obtain ⟨hme, hF⟩ := hw worker (List.mem_singleton_self _)
    simp only [Service.handle, hl.leave hme hF]
    refine ⟨⟨hl.leads, hl.epoch, ?_, ?_, hl.distinct⟩, trivial, by simp, rfl⟩
    · exact Std.ExtTreeMap.mem_erase.mpr ⟨by simpa using hme, hl.self⟩
    · exact Std.ExtTreeMap.mem_erase.mpr ⟨by simpa using hF, hl.knows⟩
  | acknowledge worker replicaId partitionId =>
    cases hmsg
    obtain ⟨-, hF⟩ := hw worker (by simp [LeaderEvent.workers])
    obtain ⟨-, hR⟩ := hw replicaId (by simp [LeaderEvent.workers])
    refine ⟨⟨hl.leads, hl.epoch, hl.self, hl.knows, hl.distinct⟩, rfl, ?_⟩
    -- the follower is neither the sender nor the replica, so it is told
    have hlink : (s.handle (.removePartitionFromReplica worker replicaId partitionId) r).2.filterMap
        (carried s.me.id follower) =
        [.removePartitionFromReplica s.me.id replicaId partitionId] := by
      simp only [Service.handle, handleRemoveOldPartition, hl.leads, if_true]
      refine carried_broadcast ((nodup_otherNodes _ _).filter _) ?_ fun id => ?_
      · rw [List.mem_filter, decide_eq_true_eq]
        exact ⟨mem_otherNodes.mpr ⟨hl.knows, hl.distinct⟩, hR.symm, hF.symm⟩
      · by_cases hid : id = follower
        · simp [carried, Election.route, ManagerProtocol.replicates, hid]
        · simp [carried, Election.route, hid]
    rw [hlink]
    refine ⟨fun m hm => ?_, rfl⟩
    rw [List.mem_singleton.mp hm]
    trivial

/-! ## One turn -/

/-- **A turn of the leader**: it goes on leading in its epoch, and what it
puts on the link, replayed, gives its table, just when no worker is left
with old replicas to strike off. -/
theorem Leading.turn (hl : Leading s follower) {event : LeaderEvent}
    (hw : ∀ w ∈ event.workers, w ≠ s.me.id ∧ w ≠ follower) {handled : State}
    (hhandled : handled = match event.message with
      | some msg => (s.handle msg r).1.state
      | none => s.state) :
    Leading (s.turn (event.message, r)) follower ∧
      (s.turn (event.message, r)).state.epoch = s.state.epoch ∧
      (∀ m ∈ (Election.output s (event.message, r)).filterMap (carried s.me.id follower),
        OfLeader s.state.epoch s.me.id m) ∧
      (replay s.state.partitions
          ((Election.output s (event.message, r)).filterMap (carried s.me.id follower)) =
          (s.turn (event.message, r)).state.partitions ↔
        (handled.workers = [] → handled.workersWithCalculatedPartitions = ∅ ∨
          handled.partitions.oldReplicas = ∅)) := by
  cases hmsg : event.message with
  | none =>
    rw [hmsg] at hhandled
    rw [hhandled]
    exact ⟨hl.tick r, tick_epoch r, hl.tick_link⟩
  | some msg =>
    rw [hmsg] at hhandled
    dsimp only at hhandled
    obtain ⟨hl', hepoch, hof, hreplay⟩ := hl.handle (r := r) hmsg hw
    obtain ⟨hof', hiff⟩ := hl'.tick_link (r := r)
    rw [handle_me, hepoch] at hof'
    refine ⟨hl'.tick r, (tick_epoch r).trans hepoch, ?_, ?_⟩
    · intro m hm
      simp only [Election.output, Service.process, List.filterMap_append, List.mem_append] at hm
      rcases hm with hm | hm
      · exact hof m hm
      · exact hof' m hm
    · simp only [Election.output, Service.process, Service.turn, List.filterMap_append,
        replay_append, hreplay, hhandled]
      rw [handle_me] at hiff
      exact hiff

/-- The tick of a manager that does not lead leaves the table alone. -/
theorem tick_table_of_following (h : (s.tick r).1.state.electedLeaderId ≠ some s.me.id) :
    (s.tick r).1.state.partitions = s.state.partitions := by
  have hbeat : (heartbeats s.state s.me r.heartbeatNow r.heartbeatRandom).1.electedLeaderId ≠
      some s.me.id := by
    simpa [Service.tick] using h
  have htable : (heartbeats s.state s.me r.heartbeatNow r.heartbeatRandom).1.partitions =
      s.state.partitions := heartbeats_partitions _ _
  simp only [Service.tick]
  rcases workerPartitions_outcome (heartbeats s.state s.me r.heartbeatNow r.heartbeatRandom).1
    s.me r.replicationFactor with ⟨hout, -⟩ | ⟨hlead, -⟩ | ⟨hlead, -⟩
  · rw [hout]
    exact htable
  · exact absurd hlead hbeat
  · exact absurd hlead hbeat

/-- **A delivery replays its message.** -/
theorem turn_table_of_ofLeader {leader : NodeId} {msg : ManagerProtocol}
    (hleader : s.state.electedLeaderId = some leader) (hof : OfLeader s.state.epoch leader msg)
    (hstays : (s.turn (some msg, r)).state.electedLeaderId ≠ some s.me.id) :
    (s.turn (some msg, r)).state.partitions = replayed s.state.partitions msg := by
  have hhandled : (s.handle msg r).1.state.partitions = replayed s.state.partitions msg := by
    cases msg with
    | clusterState rcpt st =>
      obtain ⟨hepoch, hid⟩ := hof
      have haccepts : accepts s.state st.epoch st.leaderId = true := by
        simp [accepts, ← hepoch, hleader, hid]
      simp only [Service.handle, handleClusterState, haccepts, if_true]
      rfl
    | removePartitionFromReplica id w q => rfl
    | _ => cases hof
  have hme : (s.handle msg r).1.me = s.me := handle_me
  rw [← hhandled]
  exact tick_table_of_following (by rw [hme]; exact hstays)

/-- Nothing else touches a follower's table. -/
theorem turn_table_of_elsewhere {msg : Option ManagerProtocol}
    (hmsg : ∀ m, msg = some m → m.replicates = false)
    (hstays : (s.turn (msg, r)).state.electedLeaderId ≠ some s.me.id) :
    (s.turn (msg, r)).state.partitions = s.state.partitions := by
  cases msg with
  | none => exact tick_table_of_following hstays
  | some m =>
    have hhandled : (s.handle m r).1.state.partitions = s.state.partitions := by
      rcases handle_table s m r with h | ⟨id, w, q, rfl, -⟩ | ⟨rcpt, st, rfl, -, -⟩
      · exact h
      · cases hmsg _ rfl
      · cases hmsg _ rfl
    have hme : (s.handle m r).1.me = s.me := handle_me
    rw [← hhandled]
    exact tick_table_of_following (by rw [hme]; exact hstays)

/-- **Every step keeps the follower on the leader's track.** -/
theorem InStep.step {p : Pair} {a : PairAction} (ht : InStep p) (ha : p.Admissible a)
    (hann : p.Announces a) : InStep (p.step a) := by
  have hfollows := ha.follows
  cases a with
  | leader event r =>
    obtain ⟨hleading, hepoch, hof, hiff⟩ := ht.leading.turn (r := r)
      (ha.workers event r rfl) rfl
    have hreplay := hiff.mpr (hann event r rfl)
    refine ⟨hleading, hfollows, fun msg hmsg => ?_, ?_⟩
    · show OfLeader (p.leader.turn (event.message, r)).state.epoch
        (p.leader.turn (event.message, r)).me.id msg
      rw [hepoch, turn_me]
      rcases List.mem_append.mp hmsg with hmsg | hmsg
      · exact ht.pending msg hmsg
      · exact hof msg hmsg
    · show replay p.follower.state.partitions (p.pending ++ _) = _
      rw [replay_append, ht.replays]
      exact hreplay
  | deliver r =>
    cases hpending : p.pending with
    | nil =>
      have hsame : p.step (.deliver r) = p := by simp only [Pair.step, hpending]
      rw [hsame]
      exact ht
    | cons msg rest =>
      have hstep : p.step (.deliver r) =
          { p with follower := p.follower.turn (some msg, r), pending := rest } := by
        simp only [Pair.step, hpending]
      rw [hstep] at hfollows ⊢
      have hof := ht.pending msg (by rw [hpending]; exact List.mem_cons_self)
      rw [← ht.follows.2] at hof
      have hstays : (p.follower.turn (some msg, r)).state.electedLeaderId ≠
          some p.follower.me.id := by
        rw [hfollows.1]
        exact fun h => ht.leading.distinct (Option.some.inj h).symm
      have htable := turn_table_of_ofLeader ht.follows.1 hof hstays
      refine ⟨?_, hfollows, fun m hm => ht.pending m ?_, ?_⟩
      · show Leading p.leader (p.follower.turn (some msg, r)).me.id
        rw [turn_me]
        exact ht.leading
      · rw [hpending]
        exact List.mem_cons_of_mem _ hm
      · show replay (p.follower.turn (some msg, r)).state.partitions rest = _
        rw [htable, ← ht.replays, hpending]
        rfl
  | follower msg r =>
    have hleader : (p.follower.turn (msg, r)).state.electedLeaderId = some p.leader.me.id :=
      hfollows.1
    have hstays : (p.follower.turn (msg, r)).state.electedLeaderId ≠ some p.follower.me.id := by
      rw [hleader]
      exact fun h => ht.leading.distinct (Option.some.inj h).symm
    -- what comes from another than the leader leaves the table of a follower
    have htable := turn_table_of_elsewhere
      (fun m hm => ha.elsewhere m r (by rw [hm])) hstays
    refine ⟨?_, hfollows, ht.pending, ?_⟩
    · show Leading p.leader (p.follower.turn (msg, r)).me.id
      rw [turn_me]
      exact ht.leading
    · show replay (p.follower.turn (msg, r)).state.partitions p.pending = _
      rw [htable]
      exact ht.replays

/-! ## A whole run -/

/-- **A follower tracks its leader's table**: in every run in which no
worker leaves old replicas behind as the last one, whenever nothing is on
its way, the follower's table is the leader's. -/
theorem follower_tracks_leader (p₀ : Pair) (actions : List PairAction) (hstarts : p₀.Starts)
    (hok : Along Pair.step Pair.Admissible p₀ actions)
    (hann : Along Pair.step Pair.Announces p₀ actions)
    (hdelivered : (run Pair.step p₀ actions).pending = []) :
    (run Pair.step p₀ actions).follower.state.partitions =
      (run Pair.step p₀ actions).leader.state.partitions := by
  have hinstep : InStep (run Pair.step p₀ actions) :=
    run_inv (fun p a ht hboth => ht.step hboth.1 hboth.2) hstarts.inStep
      (along_and.mpr ⟨hok, hann⟩)
  have hreplays := hinstep.replays
  rw [hdelivered] at hreplays
  exact hreplays

/-- Manager 1 leads, manager 2 follows, and worker 3 holds the first
partition, of which it was an old replica while worker 4 was there. -/
def lastWorkerOld : Pair :=
  let nodes := (((∅ : Map NodeId Node).insert ⟨1⟩ ⟨"a", 1, 0, .manager⟩).insert ⟨2⟩
    ⟨"b", 2, 0, .manager⟩).insert ⟨3⟩ ⟨"c", 3, 0, .worker⟩
  let state : State :=
    { epoch := some 1
      electedLeaderId := some ⟨1⟩
      nodes
      partitions := { mapping := (∅ : Map PartitionId Partition).insert ⟨0⟩ ⟨⟨3⟩, ∅⟩
                      oldReplicas := (∅ : Map PartitionId (Finset NodeId)).insert ⟨0⟩ {⟨3⟩}
                      newReplicas := ∅ }
      workersWithCalculatedPartitions := {⟨3⟩} }
  ⟨⟨⟨⟨1⟩, "a", 1⟩, state, ∅⟩, ⟨⟨⟨2⟩, "b", 2⟩, state, ∅⟩, []⟩

theorem starts_lastWorkerOld : lastWorkerOld.Starts :=
  ⟨⟨by decide +kernel, by decide +kernel, by decide +kernel, by decide +kernel, by decide⟩,
    ⟨by decide +kernel, by decide +kernel⟩, rfl, rfl⟩

/-- Worker 3 has handed the first partition over, and the follower hears
of it. -/
def workerThreeAcknowledges : List PairAction :=
  [.leader (.acknowledge ⟨3⟩ ⟨3⟩ ⟨0⟩) ⟨10, 10, 500, 10, 500, 1⟩, .deliver ⟨10, 10, 500, 10, 500, 1⟩]

theorem follower_tracks_leader_acknowledged :
    (run Pair.step lastWorkerOld workerThreeAcknowledges).follower.state.partitions =
      (run Pair.step lastWorkerOld workerThreeAcknowledges).leader.state.partitions := by
  refine follower_tracks_leader lastWorkerOld workerThreeAcknowledges starts_lastWorkerOld ?_ ?_
    (by decide +kernel)
  · refine ⟨⟨?_, (fun _ _ h => by cases h), ⟨by decide +kernel, by decide +kernel⟩⟩,
      ⟨(fun _ _ h => by cases h), (fun _ _ h => by cases h),
        ⟨by decide +kernel, by decide +kernel⟩⟩, trivial⟩
    intro event r h w hw
    cases h
    simp only [LeaderEvent.workers, List.mem_cons, List.not_mem_nil, or_false, or_self] at hw
    rw [hw]
    decide
  · refine ⟨fun event r h hnone => ?_, (fun _ _ h => by cases h), trivial⟩
    cases h
    exact absurd hnone (by decide +kernel)

/-- **The last worker leaves and the tables part**: the leader has struck
off its old replicas, nothing is on the way, and the follower keeps
them. -/
theorem last_worker_leaves_followers_behind :
    ¬ ∀ (p₀ : Pair) (actions : List PairAction), p₀.Starts →
      Along Pair.step Pair.Admissible p₀ actions → (run Pair.step p₀ actions).pending = [] →
      (run Pair.step p₀ actions).follower.state.partitions =
        (run Pair.step p₀ actions).leader.state.partitions := by
  intro hall
  have hequal := hall lastWorkerOld [.leader (.leave ⟨3⟩) ⟨10, 10, 500, 10, 500, 1⟩]
    starts_lastWorkerOld ?_ (by decide +kernel)
  · exact absurd hequal (by decide +kernel)
  · refine ⟨⟨?_, (fun _ _ h => by cases h), ⟨by decide +kernel, by decide +kernel⟩⟩, trivial⟩
    intro event r h w hw
    cases h
    rw [List.mem_singleton.mp hw]
    decide

end Manager

end NoSqlStore
