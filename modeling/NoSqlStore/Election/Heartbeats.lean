import NoSqlStore.Manager.Adoption
import NoSqlStore.Sync.World
import NoSqlStore.Sync.Visits
/-!
# Heartbeat times

Three handlers of each node kind write when a node was last heard of. A
heartbeat takes the later time, a snapshot raises it, and a `Leader`
message overwrites it with its own timestamp, which may be the earlier
one; the check that forgets a silent leader runs right after. Where every
adopted `Leader` message is no older than what is known of its sender, and
no time is so late that adding to it overflows, no message moves a time
backwards and no leader is forgotten in the step that adopts it
(`heartbeats_keep_pace`).
-/

namespace NoSqlStore

open Runs

/-- **No time moves backwards** for a node of both tables, unless it is
the one that has just connected. -/
def NotBack (joined : Option NodeId) (before after : Map NodeId Node) : Prop :=
  ∀ (n : NodeId) (a b : Node), joined ≠ some n → before[n]? = some a → after[n]? = some b →
    a.lastHeartbeat ≤ b.lastHeartbeat

/-- A `Leader` message is adopted: its epoch is newer, and its sender is a
manager of the table. -/
structure Adopting (known : Option ℕ) (nodes : Map NodeId Node) (id : NodeId) (epoch : ℕ)
    (node : Node) : Prop where
  newer : epochBelow known epoch = true
  listed : nodes[id]? = some node
  manager : node.isManager = true

namespace NotBack

variable {joined : Option NodeId} {nodes before between after : Map NodeId Node}

theorem refl (joined : Option NodeId) (nodes : Map NodeId Node) : NotBack joined nodes nodes := by
  intro n a b _ ha hb
  rw [ha] at hb
  cases hb
  exact le_rfl

theorem mono (h : NotBack none before after) : NotBack joined before after :=
  fun n a b _ ha hb => h n a b (by simp) ha hb

/-- A node that leaves in between is not one of both tables. -/
theorem trans (h : NotBack joined before between) (hnext : NotBack none between after)
    (hin : ∀ n, n ∈ after → n ∈ between) : NotBack joined before after := by
  intro n a b hn ha hb
  have hmem : n ∈ after := by
    rw [Std.ExtTreeMap.mem_iff_isSome_getElem?, hb]
    rfl
  obtain ⟨c, hc⟩ := Option.isSome_iff_exists.mp
    (Std.ExtTreeMap.mem_iff_isSome_getElem?.mp (hin n hmem))
  have hfirst := h n a c hn ha hc
  have hsecond := hnext n c b (by simp) hc hb
  omega

/-- A node is heard of again. -/
theorem beat {id : NodeId} {node : Node} {ts : ℕ} (hnode : nodes[id]? = some node)
    (hts : node.lastHeartbeat ≤ ts) :
    NotBack none nodes (nodes.insert id { node with lastHeartbeat := ts }) := by
  intro n a b _ ha hb
  rw [Std.ExtTreeMap.getElem?_insert] at hb
  split at hb
  · rename_i heq
    rw [compare_eq_iff_eq] at heq
    subst heq
    rw [hnode] at ha
    cases ha
    cases hb
    exact hts
  · rw [ha] at hb
    cases hb
    exact le_rfl

theorem connect (id : NodeId) (node : Node) :
    NotBack (some id) nodes (nodes.insert id node) := by
  intro n a b hn ha hb
  have hne : id ≠ n := fun heq => hn (congrArg some heq)
  rw [Std.ExtTreeMap.getElem?_insert, if_neg (by simpa using hne), ha] at hb
  cases hb
  exact le_rfl

theorem erase (id : NodeId) : NotBack none nodes (nodes.erase id) := by
  intro n a b _ ha hb
  rw [Std.ExtTreeMap.getElem?_erase] at hb
  split at hb
  · cases hb
  · rw [ha] at hb
    cases hb
    exact le_rfl

end NotBack

/-- **Every time of a node table** satisfies `P`. -/
def AllTimes (P : ℕ → Prop) (nodes : Map NodeId Node) : Prop :=
  ∀ (n : NodeId) (node : Node), nodes[n]? = some node → P node.lastHeartbeat

namespace AllTimes

variable {P : ℕ → Prop} {nodes : Map NodeId Node}

theorem insert (h : AllTimes P nodes) (id : NodeId) {node : Node} (hnode : P node.lastHeartbeat) :
    AllTimes P (nodes.insert id node) := by
  intro n a ha
  rw [Std.ExtTreeMap.getElem?_insert] at ha
  split at ha
  · cases ha
    exact hnode
  · exact h n a ha

theorem erase (h : AllTimes P nodes) (id : NodeId) : AllTimes P (nodes.erase id) := by
  intro n a ha
  rw [Std.ExtTreeMap.getElem?_erase] at ha
  split at ha
  · cases ha
  · exact h n a ha

theorem retainListed (h : AllTimes P nodes) (items : List ClusterNode) (me : Me) :
    AllTimes P (Manager.retainListed nodes items me) := by
  unfold Manager.retainListed
  split
  · exact h
  · intro n a ha
    rw [Std.ExtTreeMap.getElem?_filter'] at ha
    exact h n a (Option.filter_eq_some_iff.mp ha).1

/-- Merging brings no time but those of the items. -/
theorem foldl {π : Type} {merge : Map NodeId Node × π → ClusterNode → Map NodeId Node × π}
    (hmerge : ∀ acc item, AllTimes P acc.1 → P item.lastHeartbeat → AllTimes P (merge acc item).1)
    {items : List ClusterNode} {acc : Map NodeId Node × π} (h : AllTimes P acc.1)
    (hitems : ∀ item ∈ items, P item.lastHeartbeat) :
    AllTimes P (items.foldl merge acc).1 := by
  induction items generalizing acc with
  | nil => exact h
  | cons item items ih =>
    refine ih (hmerge acc item h (hitems item List.mem_cons_self)) fun other hother => ?_
    exact hitems other (List.mem_cons_of_mem _ hother)

/-- A finite table is looked through. -/
theorem of_toList (h : ∀ e ∈ nodes.toList, P e.2.lastHeartbeat) : AllTimes P nodes :=
  fun n node hnode => h (n, node) (Map.mem_toList.mpr hnode)

end AllTimes

/-! ## Merging a snapshot -/

/-- What the merges of the two node kinds have in common: an item touches
no other node, and a node that is known stays with no earlier time. -/
structure Raising {π : Type} (merge : Map NodeId Node × π → ClusterNode → Map NodeId Node × π) :
    Prop where
  others : ∀ acc item n, n ≠ item.id → (merge acc item).1[n]? = acc.1[n]?
  raises : ∀ (acc : Map NodeId Node × π) (item : ClusterNode) (n : NodeId) (a : Node),
    acc.1[n]? = some a →
    ∃ b, (merge acc item).1[n]? = some b ∧ a.lastHeartbeat ≤ b.lastHeartbeat

namespace Raising

variable {π : Type} {merge : Map NodeId Node × π → ClusterNode → Map NodeId Node × π}
  {acc : Map NodeId Node × π} {n : NodeId}

theorem foldl_others (hr : Raising merge) {items : List ClusterNode}
    (hn : n ∉ items.map ClusterNode.id) : (items.foldl merge acc).1[n]? = acc.1[n]? := by
  induction items generalizing acc with
  | nil => rfl
  | cons item items ih =>
    rw [List.map_cons, List.mem_cons, not_or] at hn
    rw [List.foldl_cons, ih hn.2, hr.others acc item n hn.1]

theorem foldl_raises (hr : Raising merge) (items : List ClusterNode) {a : Node}
    (ha : acc.1[n]? = some a) :
    ∃ b, (items.foldl merge acc).1[n]? = some b ∧ a.lastHeartbeat ≤ b.lastHeartbeat := by
  induction items generalizing acc a with
  | nil => exact ⟨a, ha, le_rfl⟩
  | cons item items ih =>
    obtain ⟨b, hb, hle⟩ := hr.raises acc item n a ha
    obtain ⟨c, hc, hle'⟩ := ih hb
    exact ⟨c, hc, hle.trans hle'⟩

/-- **A snapshot moves no time backwards**: a node it drops it does not
list, so the merge does not bring it back. -/
theorem notBack (hr : Raising merge) {items : List ClusterNode} {nodes : Map NodeId Node} {me : Me}
    {out : π} :
    NotBack none nodes (items.foldl merge (Manager.retainListed nodes items me, out)).1 := by
  intro n a b _ ha hb
  have hkept : (Manager.retainListed nodes items me)[n]? = some a ∨
      (Manager.retainListed nodes items me)[n]? = none ∧ n ∉ items.map ClusterNode.id := by
    unfold Manager.retainListed
    split
    · exact Or.inl ha
    · rw [Std.ExtTreeMap.getElem?_filter', ha]
      by_cases hn : n = me.id ∨ n ∈ items.map ClusterNode.id
      · exact Or.inl (by simp only [Option.filter, hn, decide_true, if_true])
      · refine Or.inr ⟨by simp only [Option.filter, hn, decide_false]; rfl, fun hin => hn ?_⟩
        exact Or.inr hin
  rcases hkept with hkept | ⟨hgone, hn⟩
  · obtain ⟨c, hc, hle⟩ := @foldl_raises π merge (Manager.retainListed nodes items me, out) n hr
      items a hkept
    rw [hc] at hb
    cases hb
    exact hle
  · rw [hr.foldl_others hn, hgone] at hb
    cases hb

end Raising

/-! ## Managers -/

namespace Manager

variable {s : Service} {state : State} {me : Me}

/-- The node a message connects. -/
def ManagerProtocol.joined : ManagerProtocol → Option NodeId
  | .newConnection id _ _ _ => id
  | _ => none

/-- The times a message brings, with the clock a connection is noted at. -/
def ManagerProtocol.times (now : ℕ) : ManagerProtocol → List ℕ
  | .newConnection (some _) _ _ _ => [now]
  | .heartbeat _ _ ts => [ts]
  | .clusterState _ state => state.nodes.map ClusterNode.lastHeartbeat
  | .leader _ _ ts => [ts]
  | _ => []

/-- **A time the interval and the timeout can be added to.** -/
def Addable (random t : ℕ) : Prop := t + heartbeatIntervalMs < 2 ^ 64 ∧ t + random < 2 ^ 64

instance (random t : ℕ) : Decidable (Addable random t) := inferInstanceAs (Decidable (_ ∧ _))

/-- **What a turn does to the times.** No message moves one backwards, and
a leader that has been heard of within the timeout is still the leader at
the end of the turn that adopts it. -/
structure TimesKept (s : Service) (input : Option ManagerProtocol × Readings) : Prop where
  times : NotBack (input.1.bind ManagerProtocol.joined) s.state.nodes (s.turn input).state.nodes
  leader : ∀ id epoch ts node, input.1 = some (.leader id epoch ts) →
    Adopting s.state.epoch s.state.nodes id epoch node →
    input.2.heartbeatNow ≤ node.lastHeartbeat + input.2.heartbeatRandom →
    (s.turn input).state.electedLeaderId = some id

/-- **A timely turn**: a `Leader` message that is adopted is no older than
what is known of its sender, and no time of the table or the message
overflows when the turn adds to it. -/
structure Timely (s : Service) (input : Option ManagerProtocol × Readings) : Prop where
  adopted : ∀ id epoch ts node, input.1 = some (.leader id epoch ts) →
    Adopting s.state.epoch s.state.nodes id epoch node → node.lastHeartbeat ≤ ts
  listed : AllTimes (Addable input.2.heartbeatRandom) s.state.nodes
  told : ∀ msg ∈ input.1, ∀ t ∈ msg.times input.2.connectionNow,
    Addable input.2.heartbeatRandom t

theorem raising_mergeNode : Raising mergeNode where
  others acc item n hn :=
    getElem?_mergeNode_of_ne (e := (item.id, ⟨item.host, item.port, item.lastHeartbeat,
      item.nodeType⟩)) hn
  raises acc item n a ha := by
    have hself := @getElem?_mergeNode_self acc (item.id, ⟨item.host, item.port,
      item.lastHeartbeat, item.nodeType⟩)
    by_cases hn : n = item.id
    · subst hn
      dsimp only at hself
      rw [ha, merged] at hself
      exact ⟨_, hself, le_max_left _ _⟩
    · refine ⟨a, ?_, le_rfl⟩
      rw [← ha]
      exact getElem?_mergeNode_of_ne (e := (item.id, ⟨item.host, item.port, item.lastHeartbeat,
        item.nodeType⟩)) hn

/-- Every time after a message was there before, or is one it brings. -/
theorem allTimes_handle {P : ℕ → Prop} {msg : ManagerProtocol} {r : Readings}
    (h : AllTimes P s.state.nodes) (hmsg : ∀ t ∈ msg.times r.connectionNow, P t) :
    AllTimes P (s.handle msg r).1.state.nodes := by
  cases msg with
  | newConnection id host port manager =>
    cases id with
    | none => exact h
    | some id => exact h.insert id (hmsg _ (List.mem_singleton_self _))
  | heartbeat id hid ts =>
    simp only [Service.handle, handleHeartbeat]
    split
    · exact h
    · rename_i node hnode
      refine h.insert hid ?_
      rcases max_choice node.lastHeartbeat ts with heq | heq
      · rw [heq]
        exact h _ _ hnode
      · rw [heq]
        exact hmsg ts (List.mem_singleton_self _)
  | clusterState rcpt st =>
    simp only [Service.handle, handleClusterState]
    split
    · have hsame : (if epochBelow s.state.epoch st.epoch then
          { s.state with epoch := some st.epoch, electedLeaderId := some st.leaderId }
          else s.state).nodes = s.state.nodes := by
        split <;> rfl
      rw [hsame]
      refine AllTimes.foldl (fun acc item hacc hitem => ?_) (h.retainListed st.nodes s.me)
        fun item hitem => hmsg _ (List.mem_map_of_mem hitem)
      unfold mergeNode
      split
      · split
        · exact hacc.insert _ hitem
        · exact hacc
      · split
        · exact hacc
        · exact hacc.insert _ hitem
    · exact h
  | leader id epoch ts =>
    simp only [Service.handle, handleLeader]
    split
    · split
      · split
        · exact h.insert id (hmsg ts (List.mem_singleton_self _))
        · exact h
      · exact h
    · exact h
  | voteResponse id leaderId ts =>
    simp only [Service.handle, handleVoteResponse]
    split
    · split <;> exact h
    · split <;> exact h
  | nodeDisconnected id =>
    simp only [Service.handle, handleNodeDisconnected]
    split
    · exact h.erase id
    · exact h
  | removePartitionFromReplica id replicaId partitionId => exact h
  | getClusterState id => exact h
  | voteRequest id epoch ts => exact h

theorem notBack_heartbeats (now random : ℕ) (h : AllTimes (Addable random) state.nodes) :
    NotBack none state.nodes (heartbeats state me now random).1.nodes := by
  unfold heartbeats
  split
  · rename_i node hnode
    split
    · dsimp only
      split
      · rename_i hdue
        have hle : node.lastHeartbeat + heartbeatIntervalMs ≤ now := by
          rw [← addU64_of_lt (h _ _ hnode).1]
          exact of_decide_eq_true hdue
        exact .beat hnode (by omega)
      · exact .refl _ _
    · exact .refl _ _
  · exact .refl _ _

theorem notBack_tick {r : Readings} (h : AllTimes (Addable r.heartbeatRandom) s.state.nodes) :
    NotBack none s.state.nodes (s.tick r).1.state.nodes := by
  simp only [Service.tick, workerPartitions_nodes]
  exact notBack_heartbeats _ _ h

/-- **A handler moves a time backwards only by a `Leader` message.** -/
theorem notBack_handle {msg : ManagerProtocol} {r : Readings} (ht : Timely s (some msg, r)) :
    NotBack msg.joined s.state.nodes (s.handle msg r).1.state.nodes := by
  cases msg with
  | newConnection id host port manager =>
    cases id with
    | none => exact .refl _ _
    | some id => exact .connect id _
  | heartbeat id hid ts =>
    simp only [Service.handle, handleHeartbeat]
    split
    · exact .refl _ _
    · rename_i node hnode
      exact .beat hnode (le_max_left _ _)
  | clusterState rcpt st =>
    simp only [Service.handle, handleClusterState]
    split
    · have hsame : (if epochBelow s.state.epoch st.epoch then
          { s.state with epoch := some st.epoch, electedLeaderId := some st.leaderId }
          else s.state).nodes = s.state.nodes := by
        split <;> rfl
      rw [hsame]
      exact raising_mergeNode.notBack
    · exact .refl _ _
  | leader id epoch ts =>
    simp only [Service.handle, handleLeader]
    split
    · rename_i hnewer
      split
      · rename_i node hnode
        split
        · rename_i hmanager
          exact .beat hnode (ht.adopted id epoch ts node rfl ⟨hnewer, hnode, hmanager⟩)
        · exact .refl _ _
      · exact .refl _ _
    · exact .refl _ _
  | voteResponse id leaderId ts =>
    simp only [Service.handle, handleVoteResponse]
    split
    · split <;> exact .refl _ _
    · split <;> exact .refl _ _
  | nodeDisconnected id =>
    simp only [Service.handle, handleNodeDisconnected]
    split
    · exact .erase id
    · exact .refl _ _
  | removePartitionFromReplica id replicaId partitionId => exact .refl _ _
  | getClusterState id => exact .refl _ _
  | voteRequest id epoch ts => exact .refl _ _

/-- A leader heard of within the timeout is not forgotten. -/
theorem heartbeats_leader_of_heard {id : NodeId} {node : Node} {now random : ℕ}
    (hlead : state.electedLeaderId = some id) (hnode : state.nodes[id]? = some node)
    (hfits : node.lastHeartbeat + random < 2 ^ 64) (hheard : now ≤ node.lastHeartbeat + random) :
    (heartbeats state me now random).1.electedLeaderId = some id := by
  by_cases hme : id = me.id
  · subst hme
    exact heartbeats_leader_of_me now random hlead
  · have hkept : ∀ n : Node, (state.nodes.insert me.id n)[id]? = some node := by
      intro n
      rw [Std.ExtTreeMap.getElem?_insert, if_neg (by simpa using Ne.symm hme), hnode]
    have hfresh : ¬ addU64 node.lastHeartbeat random < now := by
      rw [addU64_of_lt hfits]
      omega
    unfold heartbeats
    split
    · split
      · rw [hlead]
        dsimp only
        split <;> simp [hkept, hnode, hfresh]
      · exact hlead
    · exact hlead

/-- **A turn with a timely message keeps the times.** -/
theorem timesKept_of_timely {input : Option ManagerProtocol × Readings} (ht : Timely s input) :
    TimesKept s input := by
  obtain ⟨_ | msg, r⟩ := input
  · exact ⟨notBack_tick ht.listed, fun _ _ _ _ h => by cases h⟩
  · have htimes := allTimes_handle ht.listed (ht.told msg rfl)
    refine ⟨?_, fun id epoch ts node hmsg hadopt hheard => ?_⟩
    · exact (notBack_handle ht).trans (notBack_tick htimes) fun n => mem_nodes_tick.mp
    · cases hmsg
      have hts := ht.adopted id epoch ts node rfl hadopt
      have hhandled : (s.handle (.leader id epoch ts) r).1.state =
          { s.state with
            nodes := s.state.nodes.insert id { node with lastHeartbeat := ts }
            electedLeaderId := some id
            epoch := some epoch } := by
        simp only [Service.handle, handleLeader]
        rw [if_pos hadopt.newer, hadopt.listed]
        dsimp only
        rw [if_pos hadopt.manager]
      have hbeat : (heartbeats (s.handle (.leader id epoch ts) r).1.state s.me r.heartbeatNow
          r.heartbeatRandom).1.electedLeaderId = some id := by
        have hlisted : (s.handle (.leader id epoch ts) r).1.state.nodes[id]? =
            some { node with lastHeartbeat := ts } := by
          rw [hhandled]
          exact Std.ExtTreeMap.getElem?_insert_self
        refine heartbeats_leader_of_heard ?_ hlisted (htimes _ _ hlisted).2 ?_
        · rw [hhandled]
        · dsimp only at hheard ⊢
          omega
      simp only [Service.turn, Service.process, Service.tick, workerPartitions_leader, handle_me]
      exact hbeat

end Manager

/-! ## Workers -/

namespace Worker

variable {state : State} {me : Me} {w : World}

/-- The node an action connects. -/
def Action.joined : Action → Option NodeId
  | .message (.newConnection id _ _ _) _ => id
  | _ => none

/-- The times an action brings. -/
def Action.times : Action → List ℕ
  | .message (.newConnection (some _) _ _ _) env => [env.handleNow]
  | .message (.heartbeat _ _ ts) _ => [ts]
  | .message (.clusterState state) _ => state.nodes.map ClusterNode.lastHeartbeat
  | .message (.leader _ _ ts) _ => [ts]
  | _ => []

/-- **A time the interval can be added to.** -/
def Addable (t : ℕ) : Prop := t + heartbeatIntervalMs < 2 ^ 64

instance (t : ℕ) : Decidable (Addable t) := inferInstanceAs (Decidable (_ < _))

/-- **A step moves no time backwards.** -/
def TimesKept (me : Me) (w : World) (a : Action) : Prop :=
  NotBack a.joined w.state.nodes (w.step me a).state.nodes

/-- **A timely step**: a `Leader` message that is adopted is no older than
what is known of its sender, and no time of the table or the message
overflows when the step adds to it. -/
structure Timely (w : World) (a : Action) : Prop where
  adopted : ∀ id epoch ts node env, a = .message (.leader id epoch ts) env →
    Adopting w.state.epoch w.state.nodes id epoch node → node.lastHeartbeat ≤ ts
  listed : AllTimes Addable w.state.nodes
  told : ∀ t ∈ a.times, Addable t

theorem raising_mergeNode : Raising mergeNode where
  others acc item n hn := by
    unfold mergeNode
    split
    · split
      · rw [Std.ExtTreeMap.getElem?_insert, if_neg (by simpa using Ne.symm hn)]
      · rfl
    · rfl
  raises acc item n a ha := by
    unfold mergeNode
    split
    · rename_i node hnode
      split
      · rename_i hlt
        rw [Std.ExtTreeMap.getElem?_insert]
        split
        · rename_i heq
          rw [compare_eq_iff_eq] at heq
          subst heq
          rw [hnode] at ha
          cases ha
          exact ⟨_, rfl, hlt.le⟩
        · exact ⟨a, ha, le_rfl⟩
      · exact ⟨a, ha, le_rfl⟩
    · exact ⟨a, ha, le_rfl⟩

theorem notBack_heartbeats (now : ℕ) (h : AllTimes Addable state.nodes) :
    NotBack none state.nodes (heartbeats state me now).1.nodes := by
  unfold heartbeats
  split
  · rename_i node hnode
    split
    · rename_i hdue
      have hle : node.lastHeartbeat + heartbeatIntervalMs ≤ now := by
        rw [← addU64_of_lt (h _ _ hnode)]
        exact hdue.2
      exact .beat hnode (by omega)
    · exact .refl _ _
  · exact .refl _ _

theorem notBack_tick {env : Env} (h : AllTimes Addable w.state.nodes) :
    NotBack none w.state.nodes (w.ticked me env).state.nodes := by
  have hnodes : (w.ticked me env).state.nodes = (heartbeats w.state me env.heartbeatNow).1.nodes :=
    (announced_tick me env w.state w.store w.sent).fixed.nodes
  rw [hnodes]
  exact notBack_heartbeats _ h

/-- Every time after the message of an action was there before, or is one
it brings. -/
theorem allTimes_receive {P : ℕ → Prop} {a : Action} (h : AllTimes P w.state.nodes)
    (hmsg : ∀ t ∈ a.times, P t) : AllTimes P (w.receive me a).state.nodes := by
  cases a with
  | message msg env =>
    cases msg with
    | newConnection id host port manager =>
      cases id with
      | none => exact h
      | some id => exact h.insert id (hmsg _ (List.mem_singleton_self _))
    | heartbeat id heartbeatId ts =>
      simp only [World.receive, handle, handleHeartbeat]
      split
      · exact h
      · rename_i node hnode
        refine h.insert heartbeatId ?_
        rcases max_choice node.lastHeartbeat ts with heq | heq
        · rw [heq]
          exact h _ _ hnode
        · rw [heq]
          exact hmsg ts (List.mem_singleton_self _)
    | clusterState st =>
      simp only [World.receive, handle, handleClusterState]
      split
      · have hsame : (if epochBelow w.state.epoch st.epoch then
            { w.state with epoch := some st.epoch, electedLeaderId := some st.leaderId }
            else w.state).nodes = w.state.nodes := by
          split <;> rfl
        rw [hsame]
        refine AllTimes.foldl (fun acc item hacc hitem => ?_) (h.retainListed st.nodes me)
          fun item hitem => hmsg _ (List.mem_map_of_mem hitem)
        unfold mergeNode
        split
        · split
          · exact hacc.insert _ hitem
          · exact hacc
        · exact hacc
      · exact h
    | nodeDisconnected id => exact h.erase id
    | leader id epoch ts =>
      simp only [World.receive, handle, handleLeader]
      split
      · split
        · split
          · exact h.insert id (hmsg ts (List.mem_singleton_self _))
          · exact h
        · exact h
      · exact h
    | getClusterState id => exact h
    | removePartitionFromReplica id replicaId partitionId => exact h
    | syncBatch recipientId request => exact h
    | syncBatchResponse recipientId keys => exact h
  | deliver i =>
    simp only [World.receive]
    split <;> exact h
  | respond i env =>
    simp only [World.receive]
    split
    · exact h
    · split <;> exact h
  | store event => exact h
  | tick env => exact h
  | peer g event => exact h

/-- **An action moves a time backwards only by a `Leader` message.** -/
theorem notBack_receive {a : Action} (ht : Timely w a) :
    NotBack a.joined w.state.nodes (w.receive me a).state.nodes := by
  cases a with
  | message msg env =>
    cases msg with
    | newConnection id host port manager =>
      cases id with
      | none => exact .refl _ _
      | some id => exact .connect id _
    | heartbeat id heartbeatId ts =>
      simp only [World.receive, handle, handleHeartbeat]
      split
      · exact .refl _ _
      · rename_i node hnode
        exact .beat hnode (le_max_left _ _)
    | clusterState st =>
      simp only [World.receive, handle, handleClusterState]
      split
      · have hsame : (if epochBelow w.state.epoch st.epoch then
            { w.state with epoch := some st.epoch, electedLeaderId := some st.leaderId }
            else w.state).nodes = w.state.nodes := by
          split <;> rfl
        rw [hsame]
        exact raising_mergeNode.notBack
      · exact .refl _ _
    | nodeDisconnected id => exact .erase id
    | leader id epoch ts =>
      simp only [World.receive, handle, handleLeader]
      split
      · rename_i hnewer
        split
        · rename_i node hnode
          split
          · rename_i hmanager
            exact .beat hnode (ht.adopted id epoch ts node env rfl ⟨hnewer, hnode, hmanager⟩)
          · exact .refl _ _
        · exact .refl _ _
      · exact .refl _ _
    | getClusterState id => exact .refl _ _
    | removePartitionFromReplica id replicaId partitionId => exact .refl _ _
    | syncBatch recipientId request => exact .refl _ _
    | syncBatchResponse recipientId keys => exact .refl _ _
  | deliver i =>
    simp only [World.receive]
    split <;> exact .refl _ _
  | respond i env =>
    simp only [World.receive]
    split
    · exact .refl _ _
    · split <;> exact .refl _ _
  | store event => exact .refl _ _
  | tick env => exact .refl _ _
  | peer h event => exact .refl _ _

/-- **A step with a timely message keeps the times.** -/
theorem timesKept_of_timely {a : Action} (ht : Timely w a) : TimesKept me w a := by
  unfold TimesKept
  rcases World.step_eq me w a with ⟨-, heq, -⟩ | ⟨env, -, heq, -⟩
  · rw [heq]
    exact notBack_receive ht
  · rw [heq]
    have htimes : AllTimes Addable (w.receive me a).state.nodes :=
      allTimes_receive ht.listed ht.told
    exact (notBack_receive ht).trans (notBack_tick htimes) fun n => mem_nodes_tick.mp

end Worker

/-! ## Whole runs -/

/-- **Where every step is timely, heartbeat times never move backwards**,
in a run of a manager and in a run of a worker, from any
state and whatever the order of the messages; and a manager does not
forget a leader it adopts for times it had already passed. -/
theorem heartbeats_keep_pace (s : Manager.Service)
    (inputs : List (Option Manager.ManagerProtocol × Manager.Readings)) (me : Me)
    (w : Worker.World) (actions : List Worker.Action) :
    (Along Manager.Service.turn Manager.Timely s inputs →
      Along Manager.Service.turn Manager.TimesKept s inputs) ∧
    (Along (Worker.World.step me) Worker.Timely w actions →
      Along (Worker.World.step me) (Worker.TimesKept me) w actions) := by
  constructor
  · intro ht
    exact along_of_inv (I := fun _ => True) (fun _ _ _ _ => trivial)
      (fun s input _ ht => Manager.timesKept_of_timely ht) trivial ht
  · intro ht
    exact along_of_inv (I := fun _ => True) (fun _ _ _ _ => trivial)
      (fun w a _ ht => Worker.timesKept_of_timely ht) trivial ht

/-- A worker that has heard of manager 9 at time 1000. -/
def Worker.greeted : Worker.World :=
  { Worker.World.start ⟨⟨3⟩, "c", 3⟩ 1000 with
    state := Worker.State.new (((∅ : Map NodeId Node).insert ⟨3⟩ ⟨"c", 3, 1000, .worker⟩).insert ⟨9⟩
      ⟨"m", 9, 1000, .manager⟩) }

namespace Manager

/-- A manager that has just been dialled by manager 9, at time 1000. -/
def dialled : Service :=
  (Service.init ⟨⟨8⟩, "f", 8⟩ none 1000).1.turn
    (some (.newConnection (some ⟨9⟩) "m" 9 true), ⟨1000, 1000, 500, 1000, 500, 1⟩)

/-- Manager 9 tells that it leads epoch 5 since `ts`. -/
def leadsSince (ts : ℕ) : Option ManagerProtocol × Readings :=
  (some (.leader ⟨9⟩ 5 ts), ⟨1000, 1000, 500, 1000, 500, 1⟩)

/-- **A late `Leader` message lowers the time of its sender and is the end
of the leader it names**: adopted at time 1000 with its epoch, and
forgotten in the same turn, though the leader was heard of at that time. -/
theorem late_leader_is_forgotten :
    ¬ Along Service.turn TimesKept dialled [leadsSince 100] ∧
    dialled.state.nodes[(⟨9⟩ : NodeId)]?.map Node.lastHeartbeat = some 1000 ∧
    (dialled.turn (leadsSince 100)).state.nodes[(⟨9⟩ : NodeId)]?.map Node.lastHeartbeat =
      some 100 ∧
    (dialled.turn (leadsSince 100)).state.epoch = some 5 ∧
    (dialled.turn (leadsSince 100)).state.electedLeaderId = none := by
  have hbefore : dialled.state.nodes[(⟨9⟩ : NodeId)]? = some ⟨"m", 9, 1000, .manager⟩ := by
    decide +kernel
  have hafter : (dialled.turn (leadsSince 100)).state.nodes[(⟨9⟩ : NodeId)]? =
      some ⟨"m", 9, 100, .manager⟩ := by
    decide +kernel
  refine ⟨fun hkept => ?_, by rw [hbefore]; rfl, by rw [hafter]; rfl, by decide +kernel,
    by decide +kernel⟩
  have hle := hkept.1.times ⟨9⟩ _ _ (by decide) hbefore hafter
  exact absurd hle (by decide)

/-- The same message in time, to a manager and to a worker. -/
theorem timely_leader_stays :
    Along Service.turn TimesKept dialled [leadsSince 1000] ∧
    (dialled.turn (leadsSince 1000)).state.electedLeaderId = some ⟨9⟩ ∧
    ∀ order, Along (Worker.World.step ⟨⟨3⟩, "c", 3⟩) (Worker.TimesKept ⟨⟨3⟩, "c", 3⟩)
      Worker.greeted [.message (.leader ⟨9⟩ 5 1000) ⟨order, [], [], 1000, 1000⟩] := by
  have hknown : dialled.state.nodes[(⟨9⟩ : NodeId)]? = some ⟨"m", 9, 1000, .manager⟩ := by
    decide +kernel
  have htimely : Timely dialled (leadsSince 1000) := by
    refine ⟨fun id epoch ts node hmsg hadopt => ?_, .of_toList (by decide +kernel),
      fun msg hmsg => ?_⟩
    swap
    · cases hmsg
      decide
    cases hmsg
    have hlisted := hadopt.listed
    rw [hknown] at hlisted
    cases hlisted
    exact le_rfl
  have hpace := heartbeats_keep_pace dialled [leadsSince 1000] ⟨⟨3⟩, "c", 3⟩ Worker.greeted
  have hkept := (hpace []).1 ⟨htimely, trivial⟩
  have hgreeted : Worker.greeted.state.nodes[(⟨9⟩ : NodeId)]? =
      some ⟨"m", 9, 1000, .manager⟩ := by
    decide +kernel
  have htimely' : ∀ order, Worker.Timely Worker.greeted
      (.message (.leader ⟨9⟩ 5 1000) ⟨order, [], [], 1000, 1000⟩) := by
    refine fun order => ⟨fun id epoch ts node env hmsg hadopt => ?_, .of_toList (by decide +kernel),
      fun t ht => ?_⟩
    swap
    · obtain rfl : t = 1000 := List.mem_singleton.mp ht
      decide
    cases hmsg
    have hlisted := hadopt.listed
    rw [hgreeted] at hlisted
    cases hlisted
    exact le_rfl
  exact ⟨hkept, hkept.1.leader ⟨9⟩ 5 1000 ⟨"m", 9, 1000, .manager⟩ rfl
    ⟨by decide +kernel, hknown, rfl⟩ (by decide),
    fun order => (hpace _).2 ⟨htimely' order, trivial⟩⟩

end Manager

end NoSqlStore
