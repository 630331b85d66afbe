import NoSqlStore.Election.Tables
import NoSqlStore.Model.Streams
import NoSqlStore.Worker.Outputs
/-!
# The streams carry what the services say

The cluster of managers takes what a service puts out for what its
recipients read (`Election.route`). Between the two stand the output task
of the sender, which writes an event to a stream, and the input loop of
the recipient, which reads one; a payload the loop does not expect ends
the stream, and one message makes the output task panic. Nothing that a
run can reach is such a payload or such a message, and nothing is changed
on the way: for managers in `manager_streams_carry`, for workers in
`worker_streams_carry`.
-/

namespace NoSqlStore

open Election Manager Runs

namespace Wire

variable {uuid : Uuid} {id : NodeId} {effect : Effect}

/-! ## What the output tasks write -/

theorem mem_handleCommon {sessions : SessionMap} {send : Effect}
    (h : effect ∈ (handleCommon sessions id send).2) : effect = send ∨ effect = .report id := by
  unfold handleCommon at h
  split at h
  · exact Or.inr (List.mem_singleton.1 h)
  · exact Or.inl (List.mem_singleton.1 h)
  · cases h

theorem handleCommon_open {sessions : SessionMap} {send : Effect} (h : sessions[id]? = some false) :
    send ∈ (handleCommon sessions id send).2 := by
  simp [handleCommon, h]

theorem mem_toNode {s : ManagerSessions} {asWorker : WorkerEvent} {asManager : ManagerEvent}
    (h : effect ∈ (s.toNode id asWorker asManager).2) :
    effect = .workerEvent id asWorker ∨ effect = .managerEvent id asManager ∨
      effect = .report id := by
  unfold ManagerSessions.toNode at h
  split at h
  · exact (mem_handleCommon h).imp_right Or.inr
  · exact Or.inr (mem_handleCommon h)

/-- A node with an open session is reached: as a worker, if it has a
session as one. -/
theorem toNode_open {s : ManagerSessions} {asWorker : WorkerEvent} {asManager : ManagerEvent} :
    (s.workers[id]? = some false →
      .workerEvent id asWorker ∈ (s.toNode id asWorker asManager).2) ∧
    (id ∉ s.workers → s.managers[id]? = some false →
      .managerEvent id asManager ∈ (s.toNode id asWorker asManager).2) := by
  unfold ManagerSessions.toNode
  refine ⟨fun hopen => ?_, fun hworker hopen => ?_⟩
  · rw [if_pos (Std.ExtTreeMap.mem_iff_isSome_getElem?.2 (by rw [hopen]; rfl))]
    exact handleCommon_open hopen
  · rw [if_neg hworker]
    exact handleCommon_open hopen

/-- What a manager's message says to a worker. -/
def asWorker : ManagerProtocol → Option Worker.WorkerProtocol
  | .heartbeat id heartbeatId ts => some (.heartbeat id heartbeatId ts)
  | .clusterState _ state => some (.clusterState state)
  | .leader id epoch ts => some (.leader id epoch ts)
  | .removePartitionFromReplica id replicaId p => some (.removePartitionFromReplica id replicaId p)
  | _ => none

/-- **The effect is what the message is meant to do**: an event is read by
its recipient as the packet the message is routed to, a node found
disconnected is its recipient, and a manager is dialled for nothing else
than a message that says so. -/
def Faithful (uuid : Uuid) (sender : NodeId) (o : ManagerProtocol) : Effect → Prop
  | .managerEvent id event => ∃ msg, route sender o = some (id, msg) ∧
    ∀ back (me : Me), me.id = id → Manager.fromManager uuid back me sender event = some msg
  | .workerEvent id event => ∃ msg, route sender o = some (id, msg) ∧ (asWorker msg).isSome ∧
    ∀ back, Worker.fromManager uuid back sender event = asWorker msg
  | .clientEvent _ state => ∃ rcpt st order, o = .clusterState rcpt st ∧
    state = handleOutputClusterState uuid order st
  | .report id => ∃ msg, route sender o = some (id, msg)
  | .dialManager host port request => o = .newConnection none host port true ∧
    uuid.fromString request.id = some sender
  | .peerEvent _ _ | .dialWorker _ _ => False

/-- **The ids and numbers of a message fit the wire**, as those of all
that is read from it do. -/
def Legible : ManagerProtocol → Prop
  | .newConnection id _ _ _ => ∀ n ∈ id, IsUuid n
  | .heartbeat _ heartbeatId _ => IsUuid heartbeatId
  | .clusterState _ state => Canonical state
  | .voteRequest id _ _ | .leader id _ _ => IsUuid id
  | .voteResponse _ leaderId _ => IsUuid leaderId
  | .removePartitionFromReplica _ replicaId p => IsUuid replicaId ∧ p.id < 2 ^ 16
  | .getClusterState _ | .nodeDisconnected _ => True

/-- A message to a node, by whichever stream. -/
theorem faithful_toNode {s : ManagerSessions} {sender : NodeId} {o msg : ManagerProtocol}
    {toWorker : WorkerEvent} {toManager : ManagerEvent} (hroute : route sender o = some (id, msg))
    (hworker : (asWorker msg).isSome ∧
      ∀ back, Worker.fromManager uuid back sender toWorker = asWorker msg)
    (hmanager : ∀ back (me : Me), me.id = id →
      Manager.fromManager uuid back me sender toManager = some msg) :
    ∀ effect ∈ (s.toNode id toWorker toManager).2, Faithful uuid sender o effect := by
  intro effect heffect
  rcases mem_toNode heffect with rfl | rfl | rfl
  · exact ⟨msg, hroute, hworker⟩
  · exact ⟨msg, hroute, hmanager⟩
  · exact ⟨msg, hroute⟩

/-- A message to a manager. -/
theorem faithful_toManager {s : ManagerSessions} {sender : NodeId} {o msg : ManagerProtocol}
    {toManager : ManagerEvent} (hroute : route sender o = some (id, msg))
    (hmanager : ∀ back (me : Me), me.id = id →
      Manager.fromManager uuid back me sender toManager = some msg) :
    ∀ effect ∈ (s.toManager id toManager).2, Faithful uuid sender o effect := by
  intro effect heffect
  rcases mem_handleCommon heffect with rfl | rfl
  · exact ⟨msg, hroute, hmanager⟩
  · exact ⟨msg, hroute⟩

/-- A cluster state, to whomever it goes. -/
theorem faithful_clusterState (huuid : uuid.Lawful) {orders : Orders} {s : ManagerSessions}
    {sender : NodeId} {st : ClusterState} (hst : Canonical st) :
    ∀ effect ∈ (Manager.outputClusterState uuid orders s id st).2,
      Faithful uuid sender (.clusterState id st) effect := by
  have hclient : ∀ client order, Faithful uuid sender (.clusterState id st)
      (.clientEvent client (handleOutputClusterState uuid order st)) :=
    fun _ order => ⟨id, st, order, rfl, rfl⟩
  intro effect heffect
  unfold Manager.outputClusterState at heffect
  dsimp only at heffect
  split at heffect
  all_goals
    rcases List.mem_append.1 heffect with hfirst | hother
    case inr =>
      obtain ⟨e, -, rfl⟩ := List.mem_map.1 hother
      exact hclient e.1 _
  · unfold ManagerSessions.toClient at hfirst
    split at hfirst
    · rw [List.mem_singleton] at hfirst
      exact hfirst ▸ hclient id _
    · cases hfirst
  · refine faithful_toNode (rfl : route sender _ = some (id, .clusterState id st))
      ⟨rfl, fun back => ?_⟩ (fun back me hme => ?_) effect hfirst
    · exact worker_reads huuid hst _ back sender
    · show Manager.inputFromManager uuid back me _ = _
      rw [manager_reads huuid hst, hme]

/-- A recipient with an open session is written to. -/
theorem written_output {orders : Orders} {me : Me} {rf : ℕ} {s s' : ManagerSessions}
    {o msg : ManagerProtocol} {sender : NodeId} {effects : List Effect}
    (hout : Manager.output uuid orders me rf s o = some (s', effects))
    (hroute : route sender o = some (id, msg)) (hclient : id ∉ s.clients) :
    (s.workers[id]? = some false → (asWorker msg).isSome →
      ∃ event, .workerEvent id event ∈ effects) ∧
    (id ∉ s.workers → s.managers[id]? = some false →
      ∃ event, .managerEvent id event ∈ effects) := by
  have hnode : ∀ {toWorker toManager},
      (s.workers[id]? = some false → (asWorker msg).isSome →
        ∃ event, .workerEvent id event ∈ (s.toNode id toWorker toManager).2) ∧
      (id ∉ s.workers → s.managers[id]? = some false →
        ∃ event, .managerEvent id event ∈ (s.toNode id toWorker toManager).2) :=
    ⟨fun hopen _ => ⟨_, toNode_open.1 hopen⟩, fun hworker hopen => ⟨_, toNode_open.2 hworker hopen⟩⟩
  have hmanager : ∀ {toManager}, asWorker msg = none →
      (s.workers[id]? = some false → (asWorker msg).isSome →
        ∃ event, .workerEvent id event ∈ (s.toManager id toManager).2) ∧
      (id ∉ s.workers → s.managers[id]? = some false →
        ∃ event, .managerEvent id event ∈ (s.toManager id toManager).2) := by
    intro toManager hnone
    refine ⟨fun _ hsome => ?_, fun _ hopen => ⟨_, handleCommon_open hopen⟩⟩
    rw [hnone] at hsome
    cases hsome
  cases o with
  | newConnection | nodeDisconnected => cases hroute
  | clusterState rcpt st =>
    cases hroute
    obtain rfl : effects = (Manager.outputClusterState uuid orders s id st).2 :=
      congrArg Prod.snd (Option.some.inj hout).symm
    rw [Manager.outputClusterState, if_neg hclient]
    refine ⟨fun hopen hsome => ?_, fun hworker hopen => ?_⟩
    · obtain ⟨event, hevent⟩ := hnode.1 hopen hsome
      exact ⟨event, List.mem_append_left _ hevent⟩
    · obtain ⟨event, hevent⟩ := hnode.2 hworker hopen
      exact ⟨event, List.mem_append_left _ hevent⟩
  | getClusterState | voteRequest | voteResponse =>
    cases hroute
    cases hout
    exact hmanager rfl
  | heartbeat | leader | removePartitionFromReplica =>
    cases hroute
    obtain rfl := congrArg Prod.snd (Option.some.inj hout)
    exact hnode

/-- **What is legible is carried as it is.** -/
theorem faithful_output (huuid : uuid.Lawful) (orders : Orders) (me : Me) (hme : IsUuid me.id)
    (rf : ℕ) (s : ManagerSessions) {o : ManagerProtocol}
    (hlegible : ∀ pk, route me.id o = some pk → Legible pk.2)
    (hdisconnected : ∀ n, o ≠ .nodeDisconnected n)
    (hdials : ∀ id host port manager, o = .newConnection id host port manager →
      id = none ∧ manager = true) :
    ∃ s' effects, Manager.output uuid orders me rf s o = some (s', effects) ∧
      ∀ effect ∈ effects, Faithful uuid me.id o effect := by
  have hread := fun {n : NodeId} (hn : IsUuid n) => fromString_toString huuid hn
  cases o with
  | newConnection n host port manager =>
    obtain ⟨rfl, rfl⟩ := hdials n host port manager rfl
    refine ⟨_, _, rfl, fun effect heffect => ?_⟩
    obtain rfl := List.mem_singleton.1 heffect
    exact ⟨rfl, hread hme⟩
  | heartbeat n beating ts =>
    have hbeating : IsUuid beating := hlegible _ rfl
    refine ⟨_, _, rfl, faithful_toNode rfl ⟨rfl, fun back => ?_⟩ fun back me _ => ?_⟩
    · simp [Worker.fromManager, asWorker, hread hbeating]
    · simp [Manager.fromManager, hread hbeating]
  | getClusterState n => exact ⟨_, _, rfl, faithful_toManager rfl fun _ _ _ => rfl⟩
  | clusterState rcpt st => exact ⟨_, _, rfl, faithful_clusterState huuid (hlegible _ rfl)⟩
  | voteRequest n epoch ts => exact ⟨_, _, rfl, faithful_toManager rfl fun _ _ _ => rfl⟩
  | voteResponse n leaderId ts =>
    have hleader : IsUuid leaderId := hlegible _ rfl
    refine ⟨_, _, rfl, faithful_toManager rfl fun back me _ => ?_⟩
    simp [Manager.fromManager, hread hleader]
  | leader n epoch ts =>
    refine ⟨_, _, rfl, faithful_toNode rfl ⟨rfl, fun back => ?_⟩ fun back me' _ => ?_⟩
    · simp [Worker.fromManager, asWorker, hread hme]
    · simp [Manager.fromManager, hread hme]
  | nodeDisconnected n => exact absurd rfl (hdisconnected n)
  | removePartitionFromReplica n replicaId p =>
    obtain ⟨hreplica, hp⟩ : IsUuid replicaId ∧ p.id < 2 ^ 16 := hlegible _ rfl
    refine ⟨_, _, rfl, faithful_toNode rfl ⟨rfl, fun back => ?_⟩ fun back me _ => ?_⟩
    · simp [Worker.fromManager, asWorker, hread hreplica, narrow_id hp]
    · simp [Manager.fromManager, hread hreplica, narrow_id hp]

/-! ## The managers of a cluster -/

section Managers

variable {s : Service} {msg : ManagerProtocol} {r : Readings} {c : Cluster} {a : Action}
  {e ts : ℕ} {X : NodeId}

/-- Whom a manager has voted for has asked it. -/
theorem voted_handle (h : (s.handle msg r).1.elections[e]? = some (.other ts X)) :
    s.elections[e]? = some (.other ts X) ∨ ∃ e' ts', msg = .voteRequest X e' ts' := by
  have hnone : ∀ {elections : Elections}, elections = ∅ → elections[e]? = some (.other ts X) →
      False := by
    rintro _ rfl h
    simp at h
  cases msg with
  | voteRequest id epoch ts' =>
    simp only [Service.handle, handleVoteRequest] at h
    split at h
    · split at h
      · rcases Map.getElem?_insert_cases h with ⟨-, heq⟩ | hold
        · cases heq
          exact Or.inr ⟨epoch, ts, rfl⟩
        · exact (hnone rfl hold).elim
      · split at h <;> exact Or.inl h
    · exact Or.inl h
  | voteResponse id leaderId ts' =>
    simp only [Service.handle, handleVoteResponse] at h
    split at h
    · split at h
      · exact (hnone rfl h).elim
      · rcases Map.getElem?_insert_cases h with ⟨-, heq⟩ | hold
        · cases heq
        · exact Or.inl hold
    · split at h <;> exact Or.inl h
  | leader id epoch ts' =>
    simp only [Service.handle, handleLeader] at h
    split at h
    · split at h
      · split at h <;> exact (hnone rfl h).elim
      · exact (hnone rfl h).elim
    · exact Or.inl h
  | _ => exact Or.inl h

theorem voted_tick (h : (s.tick r).1.elections[e]? = some (.other ts X)) :
    s.elections[e]? = some (.other ts X) := by
  change (startElectionIfNeeded (heartbeats s.state s.me r.heartbeatNow
    r.heartbeatRandom).1 s.elections s.me r.electionNow r.electionRandom).1[e]? = _ at h
  unfold startElectionIfNeeded at h
  split at h
  · split at h
    · rcases Map.getElem?_insert_cases h with ⟨-, heq⟩ | hold
      · cases heq
      · simp at hold
    · exact h
  · exact h

/-- The actor's id, and all that reaches it from outside, fit the wire. -/
structure Fits (a : Action) : Prop where
  actor : IsUuid a.actor
  outside : ∀ m msg r, a = .outside m msg r → Legible msg

theorem Fits.truthful (h : Fits a) : Truthful (fun _ n => IsUuid n) a :=
  ⟨h.actor, fun m id host port manager r ha =>
    h.outside m (.newConnection (some id) host port manager) r ha id rfl⟩

/-- **Everything a manager holds or has sent fits the wire.** -/
structure LegibleCluster (c : Cluster) : Prop where
  traced : TracedCluster (fun _ n => IsUuid n) (Partitions.WellFormed IsUuid) c
  voted : ∀ m, IsUuid m → ∀ (e ts : ℕ) (X : NodeId),
    (c.managers m).elections[e]? = some (.other ts X) → IsUuid X
  sent : ∀ pk ∈ c.sent, Legible pk.2

theorem canonical_of_borne {st : ClusterState}
    (h : (∀ item ∈ st.nodes, IsUuid item.id) ∧ IsUuid st.leaderId ∧
      st.partitions.WellFormed IsUuid) : Canonical st :=
  ⟨h.2.1, h.1, canonicalTable_of_wellFormed h.2.2⟩

/-- What a handler sends is as legible as what it knows and was told. -/
theorem legible_of_handle {m : NodeId} (hm : IsUuid m)
    (ht : Traced (fun _ n => IsUuid n) (Partitions.WellFormed IsUuid) s.state)
    (hvoted : ∀ (e ts : ℕ) (X : NodeId), s.elections[e]? = some (.other ts X) → IsUuid X)
    (hmsg : Legible msg) {o : ManagerProtocol} (ho : o ∈ (s.handle msg r).2) {pk : Packet}
    (hroute : route m o = some pk) : Legible pk.2 := by
  cases sends_of_handle ho with
  | asks id =>
    cases hroute
    trivial
  | dials host port => cases hroute
  | beats id sender beating ts told =>
    cases hroute
    exact (told ▸ hmsg : Legible (.heartbeat sender beating ts))
  | strikes id sender replicaId p told =>
    cases hroute
    exact (told ▸ hmsg : Legible (.removePartitionFromReplica sender replicaId p))
  | answers id st =>
    cases hroute
    exact canonical_of_borne (borne_of_handle ht ho)
  | votes id candidate e ts ts' request voted =>
    cases hroute
    rcases voted with ⟨rfl, -⟩ | hother
    · exact (request ▸ hmsg : Legible (.voteRequest candidate e ts))
    · exact hvoted e ts' candidate hother
  | announces =>
    cases hroute
    exact hm

theorem legible_of_tick {m : NodeId} (hm : IsUuid m) (hme : s.me.id = m)
    (ht : Traced (fun _ n => IsUuid n) (Partitions.WellFormed IsUuid) (s.tick r).1.state)
    {o : ManagerProtocol} (ho : o ∈ (s.tick r).2) {pk : Packet} (hroute : route m o = some pk) :
    Legible pk.2 := by
  subst hme
  cases sends_of_tick ho with
  | beats id ts =>
    cases hroute
    exact hm
  | requests id e ts hother =>
    cases hroute
    exact hm
  | tells id st =>
    cases hroute
    exact canonical_of_borne (borne_of_tick hm ht ho)

/-- What reaches a manager fits the wire. -/
theorem legible_of_input (h : LegibleCluster c) (hopen : Open c a) (hfits : Fits a)
    (hmsg : a.input.1 = some msg) : Legible msg := by
  cases a with
  | deliver m msg' r =>
    obtain rfl : msg' = msg := Option.some.inj hmsg
    exact h.sent _ (hopen.sent m msg' r rfl)
  | outside m msg' r =>
    obtain rfl : msg' = msg := Option.some.inj hmsg
    exact hfits.outside m msg' r rfl
  | tick m r => cases hmsg

/-- Whatever a turn puts out is legible as the packet it becomes. -/
theorem legible_output (h : LegibleCluster c) (hopen : Open c a) (hfits : Fits a)
    {o : ManagerProtocol} (ho : o ∈ output (c.managers a.actor) a.input) {pk : Packet}
    (hroute : route a.actor o = some pk) : Legible pk.2 := by
  have hm := hfits.actor
  have hme := h.traced.me a.actor
  have hbefore := h.traced.managers a.actor hm
  have hafter := (traced_act (Partitions.kept_wellFormed IsUuid) h.traced hopen
    hfits.truthful).managers a.actor hm
  rw [Cluster.act, managers_apply_self] at hafter
  have hvoted := h.voted a.actor hm
  have hinput := fun {msg : ManagerProtocol} (hmsg : a.input.1 = some msg) =>
    legible_of_input h hopen hfits hmsg
  generalize c.managers a.actor = s at ho hme hbefore hafter hvoted
  generalize a.input = input at ho hafter hinput
  obtain ⟨msg?, r⟩ := input
  cases msg? with
  | none => exact legible_of_tick hm hme hafter ho hroute
  | some msg =>
    rcases List.mem_append.1 ho with ho | ho
    · exact legible_of_handle hm hbefore hvoted (hinput rfl) ho hroute
    · exact legible_of_tick hm (by rw [handle_me]; exact hme) hafter ho hroute

theorem legible_act (h : LegibleCluster c) (hopen : Open c a) (hfits : Fits a) :
    LegibleCluster (c.act a) := by
  refine ⟨traced_act (Partitions.kept_wellFormed IsUuid) h.traced hopen hfits.truthful,
    fun m hm e ts X hX => ?_, fun pk hpk => ?_⟩
  · by_cases hactor : m = a.actor
    · subst hactor
      rw [Cluster.act, managers_apply_self] at hX
      have hinput := fun {msg : ManagerProtocol} (hmsg : a.input.1 = some msg) =>
        legible_of_input h hopen hfits hmsg
      have hvoted := h.voted a.actor hm
      generalize c.managers a.actor = s at hX hvoted
      generalize a.input = input at hX hinput
      obtain ⟨msg?, r⟩ := input
      cases msg? with
      | none => exact hvoted e ts X (voted_tick hX)
      | some msg =>
        rcases voted_handle (voted_tick hX) with hbefore | ⟨e', ts', rfl⟩
        · exact hvoted e ts X hbefore
        · exact hinput rfl
    · rw [Cluster.act, managers_apply_of_ne hactor] at hX
      exact h.voted m hm e ts X hX
  · rw [Cluster.act, mem_sent_apply] at hpk
    rcases hpk with hpk | ⟨o, ho, hroute⟩
    · exact h.sent pk hpk
    · exact legible_output h hopen hfits ho hroute

theorem legible_run (hstart : c.Booted) {actions : List Action}
    (hok : Along Cluster.act Open c actions) (hfits : ∀ a ∈ actions, Fits a) :
    LegibleCluster (run Cluster.act c actions) := by
  refine run_inv (I := LegibleCluster) (fun _ _ h hstep => legible_act h hstep.1 hstep.2) ?_
    (along_and.2 ⟨hok, along_of_forall hfits⟩)
  refine ⟨traced_booted (Partitions.kept_wellFormed IsUuid) hstart, fun m _ e ts X hX => ?_,
    fun pk hpk => ?_⟩
  · obtain ⟨me, hostPort, now, -, heq⟩ := hstart.managers m
    have hnone : (c.managers m).elections = ∅ := by
      rw [heq]
      unfold Service.init
      cases hostPort <;> rfl
    simp [hnone] at hX
  · rw [hstart.sent] at hpk
    cases hpk

/-- A service says of no node that it is disconnected, and it dials only
managers. -/
theorem kind_of_output {s : Service} {input : Option ManagerProtocol × Readings}
    {o : ManagerProtocol} (ho : o ∈ output s input) :
    (∀ n, o ≠ .nodeDisconnected n) ∧ ∀ id host port manager,
      o = .newConnection id host port manager → id = none ∧ manager = true := by
  have htick : ∀ s : Service, o ∈ (s.tick input.2).2 → (∀ n, o ≠ .nodeDisconnected n) ∧
      ∀ id host port manager, o = .newConnection id host port manager →
        id = none ∧ manager = true := by
    intro s ho
    cases sends_of_tick ho <;> exact ⟨nofun, nofun⟩
  obtain ⟨msg?, r⟩ := input
  cases msg? with
  | none => exact htick s ho
  | some msg =>
    rcases List.mem_append.1 ho with ho | ho
    · cases sends_of_handle ho with
      | dials host port =>
        refine ⟨nofun, fun id host port manager h => ?_⟩
        cases h
        exact ⟨rfl, rfl⟩
      | _ => exact ⟨nofun, nofun⟩
    · exact htick _ ho

/-- **The streams of a manager carry what its service says.** In every run
of a cluster, and with whatever sessions: the output task deals with every
message its service puts out, and never panics; every event it writes is
read by its recipient, manager or worker, as the packet the message is
routed to, so that no event ends a stream; and a recipient with an open
session gets one. -/
theorem manager_streams_carry (uuid : Uuid) (huuid : uuid.Lawful) (c : Cluster)
    (actions : List Action) (a : Action) (hstart : c.Booted)
    (hok : Along Cluster.act Open c (actions ++ [a])) (hfits : ∀ b ∈ actions ++ [a], Fits b)
    (o : ManagerProtocol)
    (ho : o ∈ output ((run Cluster.act c actions).managers a.actor) a.input) (orders : Orders)
    (rf : ℕ) (s : ManagerSessions) :
    ∃ s' effects, Manager.output uuid orders ((run Cluster.act c actions).managers a.actor).me rf s
        o = some (s', effects) ∧
      (∀ effect ∈ effects, Faithful uuid a.actor o effect) ∧
      ∀ id msg, route a.actor o = some (id, msg) → id ∉ s.clients →
        (s.workers[id]? = some false → (asWorker msg).isSome →
          ∃ event, .workerEvent id event ∈ effects) ∧
        (id ∉ s.workers → s.managers[id]? = some false →
          ∃ event, .managerEvent id event ∈ effects) := by
  obtain ⟨hbefore, hlast⟩ := along_append.1 hok
  have h := legible_run hstart hbefore fun b hb => hfits b (List.mem_append_left _ hb)
  have hfit := hfits a (List.mem_append_right _ List.mem_cons_self)
  have hme := h.traced.me a.actor
  obtain ⟨hdisconnected, hdials⟩ := kind_of_output ho
  obtain ⟨s', effects, hout, hfaithful⟩ := faithful_output huuid orders
    ((run Cluster.act c actions).managers a.actor).me (hme.symm ▸ hfit.actor) rf s
    (fun pk hroute => legible_output h hlast.1 hfit ho (hme ▸ hroute)) hdisconnected hdials
  exact ⟨s', effects, hout, hme ▸ hfaithful,
    fun id msg hroute hclient => written_output hout hroute hclient⟩

/-- Managers 1 and 2 meet, and 2 is asked for its vote. -/
def oneAsks : List Action := oneIsAsked.take 3

/-- The vote that elects 1. -/
def twoVotes : Action := .deliver ⟨1⟩ (.voteResponse ⟨2⟩ ⟨1⟩ 5) ⟨30, 30, 500, 30, 500, 1⟩

theorem fits_oneAsks : ∀ b ∈ oneAsks ++ [twoVotes], Fits b := by
  intro b hb
  simp only [oneAsks, oneIsAsked, List.take, List.cons_append, List.nil_append, List.mem_cons,
    List.not_mem_nil, or_false] at hb
  have hnew : ∀ {n : NodeId}, n.uuid < 2 ^ 128 → Legible (.newConnection (some n) "m" 1 true) := by
    rintro n hn _ ⟨⟩
    exact hn
  rcases hb with rfl | rfl | rfl | rfl
  · exact ⟨by decide, fun _ _ _ h => by cases h; exact hnew (by decide)⟩
  · exact ⟨by decide, fun _ _ _ h => by cases h; exact hnew (by decide)⟩
  · exact ⟨by decide, fun _ _ _ h => by cases h⟩
  · exact ⟨by decide, fun _ _ _ h => by cases h⟩

theorem manager_streams_carry_leader :
    ∃ s' effects, Manager.output hyphenated
        ⟨fun _ => ⟨⟨backwards, fun _ => backwards⟩, ⟨backwards, fun _ => backwards⟩,
          ⟨backwards, fun _ => backwards⟩⟩, backwards⟩
        ((run Cluster.act bootedCluster oneAsks).managers ⟨1⟩).me 3
        ⟨(∅ : SessionMap).insert ⟨2⟩ false, ∅, ∅⟩ (.leader ⟨2⟩ 1 5) = some (s', effects) ∧
      (∀ effect ∈ effects, Faithful hyphenated ⟨1⟩ (.leader ⟨2⟩ 1 5) effect) ∧
      ∃ event, .managerEvent ⟨2⟩ event ∈ effects := by
  have hok : Along Cluster.act Open bootedCluster (oneAsks ++ [twoVotes]) := by
    have hall : Along Cluster.act Open bootedCluster ((oneAsks ++ [twoVotes]) ++
      [.outside ⟨1⟩ (.getClusterState ⟨9⟩) ⟨35, 35, 500, 35, 500, 1⟩]) := open_oneIsAsked
    exact (along_append.1 hall).1
  obtain ⟨s', effects, hout, hfaithful, hreached⟩ := manager_streams_carry hyphenated
    hyphenated_lawful bootedCluster oneAsks twoVotes booted_bootedCluster hok fits_oneAsks
    (.leader ⟨2⟩ 1 5) (by decide +kernel) _ 3 _
  exact ⟨s', effects, hout, hfaithful,
    (hreached ⟨2⟩ (.leader ⟨1⟩ 1 5) rfl (by simp)).2 (by simp) (by simp)⟩

end Managers

/-! ## A worker -/

section Workers

open NoSqlStore.Worker (WorkerProtocol Own own_turn)

/-- What a worker's message says to a manager. -/
def toManagers (sender : NodeId) : WorkerProtocol → Option (NodeId × ManagerProtocol)
  | .heartbeat id heartbeatId ts => some (id, .heartbeat sender heartbeatId ts)
  | .getClusterState id => some (id, .getClusterState sender)
  | .removePartitionFromReplica id replicaId p =>
    some (id, .removePartitionFromReplica sender replicaId p)
  | _ => none

/-- What it says to another worker. -/
def toPeers (sender : NodeId) : WorkerProtocol → Option (NodeId × WorkerProtocol)
  | .syncBatch id request => some (id, .syncBatch id request)
  | .syncBatchResponse id keys => some (id, .syncBatchResponse sender keys)
  | _ => none

/-- **The effect is what a worker's message is meant to do.** -/
def WorkerFaithful (uuid : Uuid) (me : Me) (o : WorkerProtocol) : Effect → Prop
  | .workerEvent id event => ∃ msg, toManagers me.id o = some (id, msg) ∧
    Manager.fromWorker uuid me.id event = some msg
  | .peerEvent id event => ∃ msg, toPeers me.id o = some (id, msg) ∧
    ∀ back (peer : Me), peer.id = id → Worker.inputFromWorker back peer me.id event = some msg
  | .report id => (∃ msg, toManagers me.id o = some (id, msg)) ∨
    ∃ msg, toPeers me.id o = some (id, msg)
  | .dialManager host port request => o = .newConnection none host port true ∧
    uuid.fromString request.id = some me.id
  | .dialWorker host port => o = .newConnection none host port false
  | .managerEvent _ _ | .clientEvent _ _ => False

variable {me : Me} {o : WorkerProtocol} {s : WorkerSessions}

theorem workerFaithful_toManager {msg : ManagerProtocol} {event : WorkerEvent}
    (hto : toManagers me.id o = some (id, msg))
    (hread : Manager.fromWorker uuid me.id event = some msg) :
    ∀ effect ∈ (s.toManager id event).2, WorkerFaithful uuid me o effect := by
  intro effect heffect
  rcases mem_handleCommon heffect with rfl | rfl
  · exact ⟨msg, hto, hread⟩
  · exact Or.inl ⟨msg, hto⟩

theorem workerFaithful_toPeer {msg : WorkerProtocol} {event : GrpcWorkerEvent}
    (hto : toPeers me.id o = some (id, msg))
    (hread : ∀ back (peer : Me), peer.id = id →
      Worker.inputFromWorker back peer me.id event = some msg) :
    ∀ effect ∈ (s.toPeer id event).2, WorkerFaithful uuid me o effect := by
  intro effect heffect
  rcases mem_handleCommon heffect with rfl | rfl
  · exact ⟨msg, hto, hread⟩
  · exact Or.inr ⟨msg, hto⟩

/-- **The streams of a worker carry what its service says.** Whatever the
state of the worker, whatever the turn and whatever the sessions: the
output task deals with every message and never panics; a manager reads
every event written to it, and a worker every batch and answer, as the
message that was put out; and a recipient with an open session gets it. -/
theorem worker_streams_carry (uuid : Uuid) (huuid : uuid.Lawful) (me : Me) (hme : IsUuid me.id)
    (state : NoSqlStore.Worker.State) (store : RuntimeStore) (msg : Option WorkerProtocol)
    (env : NoSqlStore.Worker.Env) (o : WorkerProtocol)
    (ho : o ∈ (NoSqlStore.Worker.turn me state store msg env).2.2) (order : Iteration)
    (s : WorkerSessions) :
    ∃ s' effects, Worker.output uuid order me s o = some (s', effects) ∧
      (∀ effect ∈ effects, WorkerFaithful uuid me o effect) ∧
      (∀ id msg, toManagers me.id o = some (id, msg) → s.managers[id]? = some false →
        ∃ event, .workerEvent id event ∈ effects) ∧
      ∀ id msg, toPeers me.id o = some (id, msg) → s.workers[id]? = some false →
        ∃ event, .peerEvent id event ∈ effects := by
  have hown : Own me o := own_turn me state store msg env o ho
  have hread := fun {n : NodeId} (hn : IsUuid n) => fromString_toString huuid hn
  have hpartition : ∀ {p : PartitionId}, p.id < partitionsAmount → p.id < 2 ^ 16 :=
    fun hp => hp.trans partitionsAmount_lt
  cases o with
  | newConnection n host port manager =>
    obtain rfl : n = none := hown
    refine ⟨_, _, rfl, fun effect heffect => ?_, fun id msg hto => ?_, fun id msg hto => ?_⟩
    · obtain rfl := List.mem_singleton.1 heffect
      cases manager with
      | true => exact ⟨rfl, hread hme⟩
      | false => rfl
    · cases hto
    · cases hto
  | heartbeat n beating ts =>
    obtain rfl : beating = me.id := hown
    refine ⟨_, _, rfl, workerFaithful_toManager rfl ?_, fun id msg hto hopen => ?_,
      fun id msg hto => ?_⟩
    · simp [Manager.fromWorker, hread hme]
    · cases hto
      exact ⟨_, handleCommon_open hopen⟩
    · cases hto
  | getClusterState n =>
    refine ⟨_, _, rfl, workerFaithful_toManager rfl rfl, fun id msg hto hopen => ?_,
      fun id msg hto => ?_⟩
    · cases hto
      exact ⟨_, handleCommon_open hopen⟩
    · cases hto
  | removePartitionFromReplica n replicaId p =>
    obtain ⟨rfl, hp⟩ := hown
    refine ⟨_, _, rfl, workerFaithful_toManager rfl ?_, fun id msg hto hopen => ?_,
      fun id msg hto => ?_⟩
    · simp [Manager.fromWorker, hread hme, narrow_id (hpartition hp)]
    · cases hto
      exact ⟨_, handleCommon_open hopen⟩
    · cases hto
  | syncBatch n request =>
    obtain ⟨sender, records⟩ := request
    obtain rfl : sender = me.id := hown
    refine ⟨_, _, rfl, workerFaithful_toPeer rfl fun back peer hpeer => ?_,
      fun id msg hto => ?_, fun id msg hto hopen => ?_⟩
    · have hrecords : (records.map recordToGrpc).map recordToDomain = records := by
        rw [List.map_map]
        exact List.map_id'' (fun record => recordToDomain_recordToGrpc record) records
      simp only [Worker.inputFromWorker, workerPayload, hrecords]
      exact congrArg (fun id => some (WorkerProtocol.syncBatch id _)) hpeer
    · cases hto
    · cases hto
      exact ⟨_, handleCommon_open hopen⟩
  | syncBatchResponse n keys =>
    refine ⟨_, _, rfl, workerFaithful_toPeer rfl fun back peer hpeer => ?_,
      fun id msg hto => ?_, fun id msg hto hopen => ?_⟩
    · exact answer_carried order back me peer fun p key hkey => hpartition (hown p key hkey)
    · cases hto
    · cases hto
      exact ⟨_, handleCommon_open hopen⟩
  | clusterState | leader | nodeDisconnected => exact hown.elim

/-- Worker 3 answers a batch of worker 1. -/
def workerThree : Me := ⟨⟨3⟩, "worker-3", 9003⟩

def batchOfOne : NoSqlStore.Worker.SyncBatchRequest := ⟨⟨1⟩, [⟨⟨4097⟩, [1], 0, 10, false⟩]⟩

theorem worker_streams_carry_answer :
    let answer := WorkerProtocol.syncBatchResponse ⟨1⟩
      (NoSqlStore.Worker.maxAppliedKeys batchOfOne.records)
    ∃ s' effects, Worker.output hyphenated backwards workerThree
        ⟨∅, (∅ : SessionMap).insert ⟨1⟩ false⟩ answer = some (s', effects) ∧
      (∀ effect ∈ effects, WorkerFaithful hyphenated workerThree answer effect) ∧
      ∃ event, .peerEvent ⟨1⟩ event ∈ effects := by
  intro answer
  obtain ⟨s', effects, hout, hfaithful, -, hreached⟩ := worker_streams_carry hyphenated
    hyphenated_lawful workerThree (by decide) (NoSqlStore.Worker.World.start workerThree 0).state
    default (some (.syncBatch ⟨3⟩ batchOfOne)) ⟨.ascending, [], [], 0, 0⟩ answer
    (List.mem_append_left _ List.mem_cons_self) backwards ⟨∅, (∅ : SessionMap).insert ⟨1⟩ false⟩
  exact ⟨s', effects, hout, hfaithful, hreached ⟨1⟩ _ rfl (by simp)⟩

end Workers

end Wire

end NoSqlStore
