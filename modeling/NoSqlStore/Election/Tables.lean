import NoSqlStore.Manager.Clients
import NoSqlStore.Manager.Provenance
import NoSqlStore.Sync.Announcements
import NoSqlStore.Wire.Fidelity
import NoSqlStore.Worker.Managers
/-!
# Every table in the cluster is one a leader computed

The cluster of `Election/Cluster.lean`, whose membership is now free:
nodes join and leave as they please, managers among them, and a message
sent may be delivered at any time, any number of times or never. What a
manager believes of a node it was told by the node itself or by a manager
that believed it (`Traced`), and so every table any manager, worker or
client holds, and every table under way, was computed by a leader for
workers that had joined (`tables_are_computed`). A client can therefore
address every key or none (`client_routes_all_or_none`), and no table that
is sent loses anything on the wire (`sent_states_survive_the_wire`).
-/

namespace NoSqlStore

namespace Election

open Manager Runs

variable {Q : NodeType → NodeId → Prop} {P : Partitions → Prop} {s : Service}
  {msg : ManagerProtocol} {r : Readings} {c : Cluster} {m : NodeId}

/-! ## What is believed has been told -/

/-- **What a state says of the nodes is so**, and its table is as it
should be. -/
structure Traced (Q : NodeType → NodeId → Prop) (P : Partitions → Prop) (state : State) :
    Prop where
  nodes : ∀ (n : NodeId) (node : Node), state.nodes[n]? = some node → Q node.nodeType n
  leader : ∀ l, state.electedLeaderId = some l → Q .manager l
  table : P state.partitions

/-- The same of what a message says. -/
structure Borne (Q : NodeType → NodeId → Prop) (P : Partitions → Prop) (msg : ManagerProtocol) :
    Prop where
  nodes : ∀ n type, Tells n type msg → Q type n
  leader : ∀ id epoch ts, msg = .leader id epoch ts → Q .manager id
  state : ∀ rcpt st, msg = .clusterState rcpt st →
    (∀ item ∈ st.nodes, Q item.nodeType item.id) ∧ Q .manager st.leaderId ∧ P st.partitions

theorem traced_handle (hkept : Partitions.Kept (Q .worker) P) (hme : Q .manager s.me.id)
    (ht : Traced Q P s.state) (hmsg : Borne Q P msg) : Traced Q P (s.handle msg r).1.state where
  nodes n node hn := by
    rcases nodes_handle hn with ⟨before, hbefore, htype⟩ | htold
    · exact htype ▸ ht.nodes n before hbefore
    · exact hmsg.nodes n _ htold
  leader l hl := by
    rcases handle_decision s msg r with ⟨-, hsame | hnone⟩ |
      ⟨e, l', -, hsource, -, hleader⟩ | ⟨id, ts, e, approvers, -, -, -, -, hleader⟩
    · exact ht.leader l (hsame ▸ hl)
    · rw [hnone] at hl
      cases hl
    · obtain rfl : l' = l := Option.some.inj (hleader.symm.trans hl)
      rcases hsource with ⟨ts, rfl⟩ | ⟨rcpt, st, rfl, -, rfl⟩
      · exact hmsg.leader l' e ts rfl
      · exact (hmsg.state rcpt st rfl).2.1
    · obtain rfl : s.me.id = l := Option.some.inj (hleader.symm.trans hl)
      exact hme
  table := by
    rcases handle_table s msg r with hsame | ⟨id, w, p, -, htable⟩ | ⟨rcpt, st, rfl, -, htable⟩
    · exact hsame ▸ ht.table
    · exact htable ▸ hkept.acknowledged _ w p ht.table
    · exact htable ▸ (hmsg.state rcpt st rfl).2.2

theorem traced_tick (hkept : Partitions.Kept (Q .worker) P) (hrf : 1 ≤ r.replicationFactor)
    (ht : Traced Q P s.state) : Traced Q P (s.tick r).1.state where
  nodes n node hn := by
    obtain ⟨before, hbefore, htype⟩ := nodes_tick hn
    exact htype ▸ ht.nodes n before hbefore
  leader l hl := by
    rcases tick_leader (s := s) r with hsame | hnone
    · exact ht.leader l (hsame ▸ hl)
    · rw [hnone] at hl
      cases hl
  table := by
    have hbeat := @heartbeats_partitions s.state s.me r.heartbeatNow r.heartbeatRandom
    have hworkers : ∀ n ∈ (heartbeats s.state s.me r.heartbeatNow r.heartbeatRandom).1.workers,
        Q .worker n := by
      intro n hn
      rw [workers_heartbeats, mem_workers, Option.map_eq_some_iff] at hn
      obtain ⟨node, hnode, htype⟩ := hn
      exact htype ▸ ht.nodes n node hnode
    simp only [Service.tick]
    generalize (heartbeats s.state s.me r.heartbeatNow r.heartbeatRandom).1 = beat at *
    have htable : P beat.partitions := hbeat ▸ ht.table
    rcases workerPartitions_outcome beat s.me r.replicationFactor with
      ⟨hout, -⟩ | ⟨-, hne, state', rfl, hout⟩ | ⟨-, -, -, hout⟩
    · rw [hout]
      exact htable
    · rw [hout]
      exact hkept.recomputed _ _ _ hrf hne workers_nodup hworkers htable
    · rw [hout]
      exact hkept.emptied _ htable

/-- What goes out is as true as the state it is taken from. -/
theorem borne_routed {o : ManagerProtocol} {pk : Packet} (hme : Q .manager m)
    (hroute : route m o = some pk)
    (hstate : ∀ rcpt st, o = .clusterState rcpt st →
      (∀ item ∈ st.nodes, Q item.nodeType item.id) ∧ Q .manager st.leaderId ∧ P st.partitions) :
    Borne Q P pk.2 := by
  cases o with
  | clusterState rcpt st =>
    cases hroute
    have hall := hstate rcpt st rfl
    refine ⟨fun n type htold => ?_, fun id epoch ts h => ?_, fun rcpt st h => ?_⟩
    · obtain ⟨-, item, hmem, rfl, rfl⟩ := htold
      exact hall.1 item hmem
    · cases h
    · cases h
      exact hall
  | newConnection => cases hroute
  | nodeDisconnected => cases hroute
  | leader id epoch ts =>
    cases hroute
    refine ⟨fun n type htold => htold.elim, fun id epoch ts h => ?_, fun rcpt st h => ?_⟩
    · cases h
      exact hme
    · cases h
  | _ =>
    cases hroute
    refine ⟨fun n type htold => htold.elim, fun id epoch ts h => ?_, fun rcpt st h => ?_⟩
    · cases h
    · cases h

theorem borne_of_handle (ht : Traced Q P s.state) {rcpt : NodeId} {st : ClusterState}
    (h : .clusterState rcpt st ∈ (s.handle msg r).2) :
    (∀ item ∈ st.nodes, Q item.nodeType item.id) ∧ Q .manager st.leaderId ∧ P st.partitions := by
  cases sends_of_handle h with
  | answers _ _ _ hleader hnodes htable =>
  refine ⟨fun item hitem => ?_, ht.leader _ hleader, htable ▸ ht.table⟩
  rw [hnodes] at hitem
  obtain ⟨e, he, rfl⟩ := List.mem_map.1 hitem
  exact ht.nodes e.1 e.2 (Map.mem_toList.1 he)

theorem borne_of_tick (hme : Q .manager s.me.id) (ht : Traced Q P (s.tick r).1.state)
    {rcpt : NodeId} {st : ClusterState} (h : .clusterState rcpt st ∈ (s.tick r).2) :
    (∀ item ∈ st.nodes, Q item.nodeType item.id) ∧ Q .manager st.leaderId ∧ P st.partitions := by
  cases sends_of_tick h with
  | tells _ _ _ _ hleader hnodes htable =>
  refine ⟨fun item hitem => ?_, hleader ▸ hme, htable ▸ ht.table⟩
  rw [hnodes] at hitem
  cases hitem

/-! ## The cluster with a free membership -/

/-- Every manager has just started. -/
structure Cluster.Booted (c : Cluster) : Prop where
  sent : c.sent = []
  managers : ∀ m, ∃ me managerHostPort now, me.id = m ∧
    c.managers m = (Service.init me managerHostPort now).1

/-- **A step of the cluster**: a message that was sent, a connection, a
disconnection or a message of a worker or a client, or the ticker. -/
structure Open (c : Cluster) (a : Action) : Prop where
  factor : 1 ≤ a.input.2.replicationFactor
  sent : ∀ m msg r, a = .deliver m msg r → (m, msg) ∈ c.sent
  outside : ∀ m msg r, a = .outside m msg r → Outside ∅ msg

/-- The actors are managers, and a node that connects is what it says. -/
structure Truthful (Q : NodeType → NodeId → Prop) (a : Action) : Prop where
  actor : Q .manager a.actor
  connects : ∀ m id host port manager r,
    a = .outside m (.newConnection (some id) host port manager) r →
      Q (if manager then .manager else .worker) id

/-- **The invariant of the cluster.** -/
structure TracedCluster (Q : NodeType → NodeId → Prop) (P : Partitions → Prop) (c : Cluster) :
    Prop where
  me : ∀ m, (c.managers m).me.id = m
  managers : ∀ m, Q .manager m → Traced Q P (c.managers m).state
  sent : ∀ pk ∈ c.sent, Borne Q P pk.2

theorem traced_init (hkept : Partitions.Kept (Q .worker) P) {me : Me} (hme : Q .manager me.id)
    (managerHostPort : Option (String × ℕ)) (now : ℕ) :
    Traced Q P (Service.init me managerHostPort now).1.state := by
  have hnode : ∀ (n : NodeId) (node : Node), ((∅ : Map NodeId Node).insert me.id
      ⟨me.host, me.port, now, .manager⟩)[n]? = some node → Q node.nodeType n := by
    intro n node h
    rcases nodes_insert h with ⟨rfl, rfl⟩ | hn
    · exact hme
    · simp at hn
  unfold Service.init
  have hleader : ∀ l : NodeId, (none : Option NodeId) = some l → Q .manager l := nofun
  cases managerHostPort with
  | none => exact ⟨hnode, hleader, hkept.start⟩
  | some hostPort => exact ⟨hnode, hleader, hkept.start⟩

theorem traced_booted (hkept : Partitions.Kept (Q .worker) P) (hstart : c.Booted) :
    TracedCluster Q P c := by
  refine ⟨fun m => ?_, fun m hm => ?_, fun pk hpk => ?_⟩
  · obtain ⟨me, hostPort, now, hme, heq⟩ := hstart.managers m
    rw [heq]
    unfold Service.init
    cases hostPort <;> exact hme
  · obtain ⟨me, hostPort, now, rfl, heq⟩ := hstart.managers m
    rw [heq]
    exact traced_init hkept hm hostPort now
  · rw [hstart.sent] at hpk
    cases hpk

/-- What reaches a manager is true. -/
theorem borne_of_input {a : Action} (ht : TracedCluster Q P c) (hopen : Open c a)
    (htruth : Truthful Q a) (hmsg : a.input.1 = some msg) : Borne Q P msg := by
  cases a with
  | deliver m msg' r =>
    obtain rfl : msg' = msg := Option.some.inj hmsg
    exact ht.sent _ (hopen.sent m msg' r rfl)
  | outside m msg' r =>
    obtain rfl : msg' = msg := Option.some.inj hmsg
    have hout := hopen.outside m msg' r rfl
    refine ⟨fun n type htold => ?_, fun id epoch ts h => ?_, fun rcpt st h => ?_⟩
    · cases msg' with
      | newConnection id host port manager =>
        obtain ⟨rfl, rfl⟩ := htold
        exact htruth.connects m n host port manager r rfl
      | clusterState rcpt st => exact hout.elim
      | _ => exact htold.elim
    · subst h
      exact hout.elim
    · subst h
      exact hout.elim
  | tick m r => cases hmsg

theorem traced_act (hkept : Partitions.Kept (Q .worker) P) {a : Action}
    (ht : TracedCluster Q P c) (hopen : Open c a) (htruth : Truthful Q a) :
    TracedCluster Q P (c.act a) := by
  have hme : Q .manager (c.managers a.actor).me.id := by
    rw [ht.me]
    exact htruth.actor
  have hactor := ht.managers a.actor htruth.actor
  generalize hs : c.managers a.actor = s at hme hactor
  -- The state the turn ends with, and the cluster states it sends.
  have hturn : Traced Q P (s.turn a.input).state ∧ ∀ rcpt st,
      .clusterState rcpt st ∈ output s a.input →
        (∀ item ∈ st.nodes, Q item.nodeType item.id) ∧ Q .manager st.leaderId ∧
          P st.partitions := by
    cases hmsg : a.input.1 with
    | none =>
      have hticked : Traced Q P (s.tick a.input.2).1.state := traced_tick hkept hopen.factor hactor
      simp only [Service.turn, output, hmsg]
      exact ⟨hticked, fun rcpt st h => borne_of_tick hme hticked h⟩
    | some msg =>
      have hhandled := traced_handle (r := a.input.2) hkept hme hactor
        (borne_of_input ht hopen htruth hmsg)
      have hticked := traced_tick hkept hopen.factor hhandled
      simp only [Service.turn, output, hmsg]
      refine ⟨hticked, fun rcpt st h => ?_⟩
      rcases List.mem_append.1 h with h | h
      · exact borne_of_handle hactor h
      · exact borne_of_tick (by rw [handle_me]; exact hme) hticked h
  refine ⟨fun m => ?_, fun m hm => ?_, fun pk hpk => ?_⟩
  · by_cases hm : m = a.actor
    · subst hm
      rw [Cluster.act, managers_apply_self, turn_me, ht.me]
    · rw [Cluster.act, managers_apply_of_ne hm, ht.me]
  · by_cases heq : m = a.actor
    · subst heq
      rw [Cluster.act, managers_apply_self, hs]
      exact hturn.1
    · rw [Cluster.act, managers_apply_of_ne heq]
      exact ht.managers m hm
  · rw [Cluster.act, mem_sent_apply, hs] at hpk
    rcases hpk with hpk | ⟨o, ho, hroute⟩
    · exact ht.sent pk hpk
    · exact borne_routed htruth.actor hroute fun rcpt st h => hturn.2 rcpt st (h ▸ ho)

/-- **Whatever happens, the invariant holds.** -/
theorem traced_run (hkept : Partitions.Kept (Q .worker) P) (hstart : c.Booted)
    {actions : List Action} (hok : Along Cluster.act Open c actions)
    (htruth : ∀ a ∈ actions, Truthful Q a) : TracedCluster Q P (run Cluster.act c actions) :=
  run_inv (I := TracedCluster Q P) (fun _ _ ht hstep => traced_act hkept ht hstep.1 hstep.2)
    (traced_booted hkept hstart) (along_and.2 ⟨hok, along_of_forall htruth⟩)

/-! ## The tables of managers, workers and clients -/

/-- The node has joined as a worker. -/
def Joined (actions : List Action) (n : NodeId) : Prop :=
  ∃ m host port r, Action.outside m (.newConnection (some n) host port false) r ∈ actions

/-- **A leader has computed the table** for workers that had joined. -/
def Computed (actions : List Action) (t : Partitions) : Prop :=
  Reachable t ∧ t.WellFormed (Joined actions)

/-- A manager has sent the state. -/
def Sent (c : Cluster) (st : ClusterState) : Prop :=
  ∃ dst rcpt, (dst, .clusterState rcpt st) ∈ c.sent

/-- The cluster states that reach a worker have been sent. -/
def Delivered (c : Cluster) (event : Worker.Event) : Prop :=
  ∀ id epoch leaderId nodes partitions,
    event = .managerPayload id (.clusterState epoch leaderId nodes (some partitions)) →
      Sent c ⟨epoch, leaderId, nodes, partitions⟩

/-- A client adopts a state's table or keeps its own. -/
theorem partitions_foldl_applyState {P : Partitions → Prop} (states : List ClusterState)
    {topology : Client.Topology} (htopology : P topology.partitions)
    (hstates : ∀ st ∈ states, P st.partitions) :
    P (states.foldl Client.applyState topology).partitions := by
  induction states generalizing topology with
  | nil => exact htopology
  | cons st states ih =>
    refine ih ?_ fun st' hst' => hstates st' (List.mem_cons_of_mem _ hst')
    unfold Client.applyState
    split
    · exact htopology
    · exact hstates st List.mem_cons_self

/-- A turn of a worker adopts the table of the cluster state it handles or
keeps its own. -/
theorem partitions_workerTurn (me : Me) (state : Worker.State) (store : RuntimeStore)
    (msg : Option Worker.WorkerProtocol) (env : Worker.Env) :
    (Worker.turn me state store msg env).1.partitions = state.partitions ∨
      ∃ st, msg = some (.clusterState st) ∧
        (Worker.turn me state store msg env).1.partitions = st.partitions := by
  have htick : ∀ (state : Worker.State) (store : RuntimeStore),
      (Worker.tick me env state store []).state.partitions = state.partitions := by
    intro state store
    exact (Worker.announced_tick me env state store []).fixed.partitions.trans
      (Worker.World.partitions_heartbeats _ _)
  cases msg with
  | none => exact Or.inl (htick state store)
  | some msg =>
    have hhandled : (Worker.handle me state store env.handleNow msg).1.partitions =
        state.partitions ∨ ∃ st, msg = .clusterState st ∧
          (Worker.handle me state store env.handleNow msg).1.partitions = st.partitions := by
      cases msg with
      | newConnection id host port manager =>
        cases id with
        | none => exact Or.inl rfl
        | some id => exact Or.inl rfl
      | heartbeat id heartbeatId ts =>
        refine Or.inl ?_
        simp only [Worker.handle, Worker.handleHeartbeat]
        split <;> rfl
      | clusterState st =>
        simp only [Worker.handle, Worker.handleClusterState]
        split
        · exact Or.inr ⟨st, rfl, rfl⟩
        · exact Or.inl rfl
      | leader id epoch ts =>
        refine Or.inl ?_
        simp only [Worker.handle, Worker.handleLeader]
        split
        · split
          · split <;> rfl
          · rfl
        · rfl
      | _ => exact Or.inl rfl
    simp only [Worker.turn, htick, Option.some_inj]
    exact hhandled

/-- Only a manager's stream brings a worker a cluster state. -/
theorem message_clusterState {me : Me} {event : Worker.Event} {st : ClusterState}
    (h : event.message me = some (.clusterState st)) :
    ∃ id, event = .managerPayload id
      (.clusterState st.epoch st.leaderId st.nodes (some st.partitions)) := by
  cases event with
  | managerPayload id payload =>
    cases payload with
    | clusterState epoch leaderId nodes partitions =>
      cases partitions with
      | none => cases h
      | some partitions =>
        cases h
        exact ⟨id, rfl⟩
    | _ => cases h
  | workerPayload id payload => cases payload <;> cases h
  | _ => cases h

theorem partitions_member {P : Partitions → Prop} (me : Me) (now : ℕ) (hstart : P default)
    (inputs : List (Worker.Event × Worker.Env))
    (hinputs : ∀ input ∈ inputs, ∀ id epoch leaderId nodes partitions,
      input.1 = .managerPayload id (.clusterState epoch leaderId nodes (some partitions)) →
        P partitions) :
    P (run (Worker.Member.step me) (Worker.Member.start me now) inputs).state.partitions := by
  refine run_inv (fun (w : Worker.Member) input (hw : P w.state.partitions) hinput => ?_) hstart
    (along_of_forall hinputs)
  -- Only a cluster state brings the service a table.
  have hturned : ∀ connected msg, (∀ st, msg = some (.clusterState st) → P st.partitions) →
      P (w.turned me connected msg input.2).state.partitions := by
    intro connected msg hmsg
    rcases partitions_workerTurn me w.state w.store msg input.2 with hsame | ⟨st, hst, heq⟩
    · exact hsame ▸ hw
    · exact heq ▸ hmsg st hst
  unfold Worker.Member.step
  split
  · exact hw
  · exact hturned _ _ nofun
  · split
    · rename_i msg hmsg
      refine hturned _ _ fun st hst => ?_
      obtain ⟨id, hevent⟩ := message_clusterState (hst ▸ hmsg)
      exact hinput id _ _ _ _ hevent
    · exact hw

theorem kept_computed (actions : List Action) :
    Partitions.Kept (Joined actions) (Computed actions) :=
  (Partitions.kept_reachable _).and (Partitions.kept_wellFormed _)

/-- What the actions bear witness to: which workers have joined. -/
theorem truthful_joined {actions : List Action} :
    ∀ a ∈ actions, Truthful (fun type n => type = .worker → Joined actions n) a := by
  intro a ha
  refine ⟨nofun, fun m id host port manager r h htype => ?_⟩
  subst h
  cases manager with
  | true => cases htype
  | false => exact ⟨m, host, port, r, ha⟩

theorem traced_joined {actions : List Action} (hstart : c.Booted)
    (hok : Along Cluster.act Open c actions) :
    TracedCluster (fun type n => type = .worker → Joined actions n) (Computed actions)
      (run Cluster.act c actions) := by
  refine traced_run ?_ hstart hok truthful_joined
  have hkept := kept_computed actions
  exact ⟨hkept.start, fun t rf vec hrf hvec hnodup hjoined =>
    hkept.recomputed t rf vec hrf hvec hnodup fun n hn => hjoined n hn rfl,
    hkept.emptied, hkept.acknowledged⟩

/-- **Every table in the cluster is one a leader computed.** In every run,
whatever nodes join and leave, whichever managers win and in whatever order
messages arrive, the tables of all managers, those of all cluster states
sent, and so those of every client and every worker that such states have
reached, are reached by a leader's own operations and are well formed, for
workers that have joined. -/
theorem tables_are_computed (c : Cluster) (actions : List Action) (hstart : c.Booted)
    (hok : Along Cluster.act Open c actions) :
    let c' := run Cluster.act c actions
    (∀ m, Computed actions (c'.managers m).state.partitions) ∧
      (∀ st, Sent c' st → Computed actions st.partitions) ∧
      (∀ states : List ClusterState, (∀ st ∈ states, Sent c' st) →
        Computed actions (states.foldl Client.applyState default).partitions) ∧
      ∀ me now (inputs : List (Worker.Event × Worker.Env)),
        (∀ input ∈ inputs, Delivered c' input.1) →
        Computed actions
          (run (Worker.Member.step me) (Worker.Member.start me now) inputs).state.partitions := by
  intro c'
  have htraced := traced_joined hstart hok
  have hsent : ∀ st, Sent c' st → Computed actions st.partitions := by
    rintro st ⟨dst, rcpt, hst⟩
    exact ((htraced.sent _ hst).state rcpt st rfl).2.2
  have hstarts : Computed actions default := (kept_computed actions).start
  refine ⟨fun m => (htraced.managers m nofun).table, hsent, fun states hstates => ?_,
    fun me now inputs hinputs => ?_⟩
  · exact partitions_foldl_applyState states hstarts fun st hst => hsent st (hstates st hst)
  · refine partitions_member me now hstarts inputs ?_
    intro input hinput id epoch leaderId nodes partitions h
    exact hsent _ (hinputs input hinput id epoch leaderId nodes partitions h)

/-- As many managers as there are ids, that have just started. -/
def bootedCluster : Cluster := ⟨fun n => (Service.init ⟨n, "m", 1⟩ none 0).1, []⟩

theorem booted_bootedCluster : bootedCluster.Booted :=
  ⟨rfl, fun m => ⟨⟨m, "m", 1⟩, none, 0, rfl, rfl⟩⟩

/-- Managers 1 and 2 meet, 2 votes for 1, and client 9 asks 1. -/
def oneIsAsked : List Action :=
  [.outside ⟨1⟩ (.newConnection (some ⟨2⟩) "m" 1 true) ⟨5, 5, 500, 5, 500, 1⟩,
   .outside ⟨2⟩ (.newConnection (some ⟨1⟩) "m" 1 true) ⟨10, 10, 500, 10, 500, 1⟩,
   .deliver ⟨2⟩ (.voteRequest ⟨1⟩ 1 5) ⟨20, 20, 500, 20, 500, 1⟩,
   .deliver ⟨1⟩ (.voteResponse ⟨2⟩ ⟨1⟩ 5) ⟨30, 30, 500, 30, 500, 1⟩,
   .outside ⟨1⟩ (.getClusterState ⟨9⟩) ⟨35, 35, 500, 35, 500, 1⟩]

/-- And worker 3 joins 1. -/
def workerJoins : List Action :=
  oneIsAsked ++
    [.outside ⟨1⟩ (.newConnection (some ⟨3⟩) "w" 1 false) ⟨40, 40, 500, 40, 500, 1⟩]

/-- What client 9 is told. -/
def stateOfOne : ClusterState :=
  ⟨1, ⟨1⟩, [⟨⟨1⟩, "m", 1, 0, .manager⟩, ⟨⟨2⟩, "m", 1, 5, .manager⟩], default⟩

theorem open_deliver {msg : ManagerProtocol} (hrf : 1 ≤ r.replicationFactor)
    (hsent : (m, msg) ∈ c.sent) : Open c (.deliver m msg r) := by
  refine ⟨hrf, fun _ _ _ h => ?_, fun _ _ _ h => ?_⟩
  · cases h
    exact hsent
  · cases h

theorem open_outside {msg : ManagerProtocol} (hrf : 1 ≤ r.replicationFactor)
    (hout : Outside ∅ msg) : Open c (.outside m msg r) := by
  refine ⟨hrf, fun _ _ _ h => ?_, fun _ _ _ h => ?_⟩
  · cases h
  · cases h
    exact hout

theorem open_oneIsAsked : Along Cluster.act Open bootedCluster oneIsAsked := by
  have hfree : ∀ id : Option NodeId, ∀ n ∈ id, n ∉ (∅ : Finset NodeId) :=
    fun _ n _ => Finset.notMem_empty n
  exact ⟨open_outside (by decide) (hfree _), open_outside (by decide) (hfree _),
    open_deliver (by decide) (by decide +kernel), open_deliver (by decide) (by decide +kernel),
    open_outside (by decide) trivial, trivial⟩

theorem open_workerJoins : Along Cluster.act Open bootedCluster workerJoins :=
  along_append.2 ⟨open_oneIsAsked,
    open_outside (by decide) fun n _ => Finset.notMem_empty n, trivial⟩

theorem tables_are_computed_joined :
    ((run Cluster.act bootedCluster oneIsAsked).managers ⟨1⟩).state.electedLeaderId = some ⟨1⟩ ∧
      Joined workerJoins ⟨3⟩ ∧ Computed workerJoins
        ((run Cluster.act bootedCluster workerJoins).managers ⟨1⟩).state.partitions :=
  ⟨by decide +kernel, ⟨⟨1⟩, "w", 1, ⟨40, 40, 500, 40, 500, 1⟩, by simp [workerJoins]⟩,
    (tables_are_computed bootedCluster workerJoins booted_bootedCluster open_workerJoins).1 ⟨1⟩⟩

/-- What manager 2, and every client, is told when worker 3 has joined. -/
def stateOverThree : ClusterState := ⟨1, ⟨1⟩, [], recompute default 1 [⟨3⟩]⟩

theorem sent_stateOfOne : Sent (run Cluster.act bootedCluster workerJoins) stateOfOne := by
  refine ⟨⟨9⟩, ⟨9⟩, ?_⟩
  rw [workerJoins, run_append]
  exact sent_subset_run _ _ (by decide +kernel)

theorem sent_stateOverThree : Sent (run Cluster.act bootedCluster workerJoins) stateOverThree := by
  rw [workerJoins, run_append, run_cons, run_nil]
  have hturn := turn_of_stale ((run Cluster.act bootedCluster oneIsAsked).managers ⟨1⟩)
    (.newConnection (some ⟨3⟩) "w" 1 false) ⟨40, 40, 500, 40, 500, 1⟩ [⟨3⟩] (by decide +kernel)
    (by decide +kernel) (by decide) (by decide +kernel) (by decide +kernel)
  have hstate : ⟨(beating ((run Cluster.act bootedCluster oneIsAsked).managers ⟨1⟩)
      (.newConnection (some ⟨3⟩) "w" 1 false) ⟨40, 40, 500, 40, 500, 1⟩).epoch.getD 0,
      ((run Cluster.act bootedCluster oneIsAsked).managers ⟨1⟩).me.id, [],
      recompute (((run Cluster.act bootedCluster oneIsAsked).managers ⟨1⟩).handle
        (.newConnection (some ⟨3⟩) "w" 1 false) ⟨40, 40, 500, 40, 500, 1⟩).1.state.partitions 1
        [⟨3⟩]⟩ = stateOverThree := by
    have hbefore : (((run Cluster.act bootedCluster oneIsAsked).managers ⟨1⟩).handle
        (.newConnection (some ⟨3⟩) "w" 1 false) ⟨40, 40, 500, 40, 500, 1⟩).1.state.partitions =
        default := by decide +kernel
    rw [hbefore]
    exact congrArg₂ (fun e l => (⟨e, l, [], recompute default 1 [⟨3⟩]⟩ : ClusterState))
      (by decide +kernel) (by decide +kernel)
  have hin := List.mem_of_getElem? (hturn.2.trans (congrArg some hstate))
  obtain ⟨o, ho, heq⟩ := List.mem_filterMap.1 hin
  cases o with
  | clusterState rcpt st =>
    cases heq
    exact ⟨rcpt, rcpt, mem_sent_apply.2 (Or.inr ⟨_, List.mem_append_right _ ho, rfl⟩)⟩
  | _ => cases heq

/-- The first partition is worker 3's alone. -/
theorem mapping_stateOverThree : ∃ e, stateOverThree.partitions.mapping[(⟨0⟩ : PartitionId)]? =
    some e ∧ e.holders = {⟨3⟩} := by
  have hthree := first_holds_zero default ⟨3⟩ []
  obtain ⟨e, he, hmem⟩ := Partitions.mem_holders.1 hthree
  have honly : ∀ n ∈ e.holders, n = ⟨3⟩ := by
    obtain ⟨e', he', hnamed⟩ := exists_newMapping (List.cons_ne_nil (⟨3⟩ : NodeId) [])
      one_pos (p := ⟨0⟩) partitionsAmount_pos
    rw [mapping_recompute, he'] at he
    cases he
    exact fun n hn => List.mem_singleton.1 (hnamed n hn)
  refine ⟨e, he, ?_⟩
  ext n
  rw [Finset.mem_singleton]
  exact ⟨honly n, fun hn => hn ▸ hmem⟩

/-! ## What a client can route -/

/-- A table that maps nothing routes nothing. -/
theorem routes_none {topology : Client.Topology} (hempty : topology.partitions.mapping = ∅)
    (key : Key) :
    Client.writeTargets topology key = .error (.partitionUnavailable key.partition) ∧
      Client.readTargets topology key = .error (.partitionUnavailable key.partition) := by
  have hnone : topology.partitions.mapping[Client.partition key]? = none := by simp [hempty]
  rw [Client.writeTargets, Client.readTargets, hnone]
  exact ⟨rfl, rfl⟩

/-- **Everyone a read may ask has joined.** -/
theorem joined_of_reached {joined : NodeId → Prop} {topology : Client.Topology} {key : Key}
    {e : Partition} (h : topology.partitions.WellFormed joined)
    (he : topology.partitions.mapping[key.partition]? = some e) :
    ∃ targets, Client.readTargets topology key = .ok targets ∧ targets.1 ∈ e.holders ∧
      e.holders ⊆ Client.reached targets ∧ ∀ n ∈ Client.reached targets, joined n := by
  have hholders : topology.partitions.holders key.partition = e.holders := holders_of_mapping he
  have hmaster : e.master ∈ e.holders := by simp
  refine ⟨_, by rw [Client.readTargets, Client.partition_eq, he], hmaster, fun n hn => ?_,
    fun n hn => ?_⟩
  · simp only [Client.reached, Finset.mem_insert, Finset.mem_erase, Finset.mem_union]
    rw [Partition.mem_holders] at hn
    by_cases hm : n = e.master
    · exact Or.inl hm
    · exact Or.inr ⟨hm, Or.inl (Or.inl (hn.resolve_left hm))⟩
  · simp only [Client.reached, Finset.mem_insert, Finset.mem_erase, Finset.mem_union] at hn
    rcases hn with rfl | ⟨-, (hn | hn) | hn⟩
    · exact (h.of_mem_holders (hholders ▸ hmaster)).2
    · exact (h.of_mem_holders (p := key.partition)
        (by rw [hholders, Partition.mem_holders]; exact Or.inr hn)).2
    · exact (h.of_mem_olds hn).2
    · cases hnew : topology.partitions.newReplicas[key.partition]? with
      | none => simp [hnew] at hn
      | some new =>
        simp only [hnew, Option.getD_some] at hn
        exact (h.of_mem_holders ((h.newReplicas _ new hnew).2 hn)).2

/-- **All keys or none.** Whatever states have reached it, a client cannot
route a single key, or it can route every key: each is written to equally
many workers, is read from one of them first, falls back to all the
others, and every worker a read may ask has joined. -/
theorem client_routes_all_or_none (c : Cluster) (actions : List Action) (hstart : c.Booted)
    (hok : Along Cluster.act Open c actions) (states : List ClusterState)
    (hstates : ∀ st ∈ states, Sent (run Cluster.act c actions) st) :
    let topology := states.foldl Client.applyState default
    (∀ key : Key,
      Client.writeTargets topology key = .error (.partitionUnavailable key.partition) ∧
        Client.readTargets topology key = .error (.partitionUnavailable key.partition)) ∨
      ∃ amount, 0 < amount ∧ ∀ key : Key, ∃ holders targets,
        Client.writeTargets topology key = .ok holders ∧ holders.card = amount ∧
          Client.readTargets topology key = .ok targets ∧ targets.1 ∈ holders ∧
          holders ⊆ Client.reached targets ∧ ∀ n ∈ Client.reached targets, Joined actions n := by
  intro topology
  have htraced := traced_joined hstart hok
  have htable : topology.partitions.WellFormed (Joined actions) := by
    refine partitions_foldl_applyState states Partitions.wellFormed_default fun st hst => ?_
    obtain ⟨dst, rcpt, hsent⟩ := hstates st hst
    exact ((htraced.sent _ hsent).state rcpt st rfl).2.2.2
  rcases htable.mapping with hempty | ⟨rf, vec, hrf, hvec, hnodup, -, hmap⟩
  · exact Or.inl (routes_none hempty)
  · have hlength : 0 < vec.length := List.length_pos_of_ne_nil hvec
    refine Or.inr ⟨min rf vec.length, by omega, fun key => ?_⟩
    obtain ⟨e, he, -, hcard, -⟩ := holders_placement hvec hnodup key.partition.id hrf
    have hentry : topology.partitions.mapping[key.partition]? = some e := by
      rw [hmap, getElem?_newMapping, if_pos key.partition_lt, he]
    obtain ⟨targets, hread, hfirst, hall, hjoined⟩ := joined_of_reached htable hentry
    exact ⟨e.holders, targets, by rw [Client.writeTargets, Client.partition_eq, hentry]; rfl,
      hcard, hread, hfirst, hall, hjoined⟩

/-- The client of manager 1, when it has been told of worker 3. -/
def told : List ClusterState := [stateOfOne, stateOverThree]

theorem sent_told : ∀ st ∈ told, Sent (run Cluster.act bootedCluster workerJoins) st := by
  intro st hst
  rcases List.mem_pair.1 hst with rfl | rfl
  · exact sent_stateOfOne
  · exact sent_stateOverThree

theorem partitions_told : (told.foldl Client.applyState default).partitions =
    stateOverThree.partitions := rfl

/-- Once worker 3 has joined, a client routes every key. -/
theorem client_routes_all_or_none_told :
    let topology := told.foldl Client.applyState default
    ∃ amount, 0 < amount ∧ ∀ key : Key, ∃ holders targets,
      Client.writeTargets topology key = .ok holders ∧ holders.card = amount ∧
        Client.readTargets topology key = .ok targets ∧ targets.1 ∈ holders ∧
        holders ⊆ Client.reached targets ∧
        ∀ n ∈ Client.reached targets, Joined workerJoins n := by
  refine (client_routes_all_or_none bootedCluster workerJoins booted_bootedCluster
    open_workerJoins told sent_told).resolve_left fun hnone => ?_
  obtain ⟨e, he, -⟩ := mapping_stateOverThree
  have hzero := (hnone ⟨0⟩).1
  rw [Client.writeTargets, partitions_told, Client.partition_eq, show (⟨0⟩ : Key).partition = ⟨0⟩
    from by simp [Key.partition], he] at hzero
  cases hzero

/-! ## Every state that is sent survives the wire -/

theorem partitionsAmount_lt : partitionsAmount < 2 ^ 16 := by simp [partitionsAmount]

/-- A table over UUIDs loses nothing on the wire. -/
theorem canonicalTable_of_wellFormed {t : Partitions} (h : t.WellFormed Wire.IsUuid) :
    Wire.CanonicalTable t := by
  have hlt := partitionsAmount_lt
  refine ⟨fun p entry hentry => ?_, fun p old hold => ?_, fun p new hnew => ?_⟩
  · have hholders := holders_of_mapping hentry
    have hmaster : entry.master ∈ t.holders p := by
      rw [hholders]
      simp
    refine ⟨by have := (h.of_mem_holders hmaster).1; omega, fun id hid => ?_⟩
    exact (h.of_mem_holders (hholders ▸ hid)).2
  · obtain ⟨hp, -, hids⟩ := h.oldReplicas p old hold
    exact ⟨by omega, hids⟩
  · obtain ⟨hp, hsub⟩ := h.newReplicas p new hnew
    exact ⟨by omega, fun id hid => (h.of_mem_holders (hsub hid)).2⟩

/-- Every cluster state that is sent fits the wire. -/
theorem canonical_of_sent {c : Cluster} {actions : List Action} (hstart : c.Booted)
    (hok : Along Cluster.act Open c actions)
    (hids : ∀ a ∈ actions, Truthful (fun _ n => Wire.IsUuid n) a) {st : ClusterState}
    (hsent : Sent (run Cluster.act c actions) st) : Wire.Canonical st := by
  have htraced := traced_run (Q := fun _ n => Wire.IsUuid n)
    (Partitions.kept_wellFormed Wire.IsUuid) hstart hok hids
  obtain ⟨dst, rcpt, hst⟩ := hsent
  obtain ⟨hnodes, hleader, htable⟩ := (htraced.sent _ hst).state rcpt st rfl
  exact ⟨hleader, hnodes, canonicalTable_of_wellFormed htable⟩

/-- **No cluster state that is sent loses anything on the wire**, where
the ids of the nodes are UUIDs: every manager and every worker that reads
it has the state that was written, whatever the orders of iteration. -/
theorem sent_states_survive_the_wire (uuid : Wire.Uuid) (huuid : uuid.Lawful) (c : Cluster)
    (actions : List Action) (hstart : c.Booted) (hok : Along Cluster.act Open c actions)
    (hids : ∀ a ∈ actions, Truthful (fun _ n => Wire.IsUuid n) a) (st : ClusterState)
    (hsent : Sent (run Cluster.act c actions) st) (out : Wire.WriteOrder) (back : Wire.ReadOrder)
    (me : Me) (id : NodeId) :
    Wire.Manager.inputFromManager uuid back me (Wire.handleOutputClusterState uuid out st) =
        some (.clusterState me.id st) ∧
      Wire.Worker.inputFromManager uuid back id (Wire.handleOutputClusterState uuid out st) =
        some (.clusterState st) := by
  have hcanonical := canonical_of_sent hstart hok hids hsent
  exact ⟨Wire.manager_reads huuid hcanonical out back me,
    Wire.worker_reads huuid hcanonical out back id⟩

theorem truthful_workerJoins : ∀ a ∈ workerJoins, Truthful (fun _ n => Wire.IsUuid n) a := by
  have huuid : ∀ n : ℕ, n < 10 → Wire.IsUuid ⟨n⟩ := by
    intro n hn
    show n < 2 ^ 128
    omega
  intro a ha
  simp only [workerJoins, oneIsAsked, List.mem_append, List.mem_cons, List.not_mem_nil,
    or_false] at ha
  rcases ha with (rfl | rfl | rfl | rfl | rfl) | rfl
  all_goals
    refine ⟨huuid _ (by decide), fun _ id _ _ _ _ h => ?_⟩
    cases h
    try exact huuid _ (by decide)

theorem sent_states_survive_the_wire_told :
    Wire.Worker.inputFromManager Wire.hyphenated ⟨Wire.backwards, Wire.backwards, Wire.backwards⟩
        ⟨1⟩ (Wire.handleOutputClusterState Wire.hyphenated
          ⟨⟨Wire.backwards, fun _ => Wire.backwards⟩, ⟨Wire.backwards, fun _ => Wire.backwards⟩,
            ⟨Wire.backwards, fun _ => Wire.backwards⟩⟩ stateOverThree) =
      some (.clusterState stateOverThree) :=
  (sent_states_survive_the_wire Wire.hyphenated Wire.hyphenated_lawful bootedCluster workerJoins
    booted_bootedCluster open_workerJoins truthful_workerJoins stateOverThree sent_stateOverThree
    _ _ ⟨⟨1⟩, "m", 1⟩ ⟨1⟩).2

end Election

end NoSqlStore
