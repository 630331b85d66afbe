import NoSqlStore.Common.Relay
import NoSqlStore.Migration.Acknowledgements
/-!
# The versions of the partition table

A leader produces one table after another; every manager answers
`GetClusterState` with the table it holds, and managers, workers and
clients take over any table of their leader and epoch, since a cluster
state carries no version of its table. A `Spread` numbers the tables the
leader produces and keeps the number beside each table held or on its way
(`Recorded`), so that going back is a matter of numbers. A node that takes
its tables from one node only never goes back (`one_source_goes_onward`);
a leader that takes its own table from a follower does.
-/

namespace NoSqlStore

namespace Migration

open Runs

/-- A node that holds a table. -/
inductive Holder
  | manager (service : Manager.Service)
  | worker (me : Me) (world : Worker.World)
  | client (topology : Client.Topology)

namespace Holder

def table : Holder → Partitions
  | .manager service => service.state.partitions
  | .worker _ world => world.state.partitions
  | .client topology => topology.partitions

/-- Whether the node takes a cluster state over. -/
def accepts : Holder → ClusterState → Bool
  | .manager service, state => Manager.accepts service.state state.epoch state.leaderId
  | .worker _ world, state => Worker.accepts world.state state.epoch state.leaderId
  | .client topology, state => !Client.outdated topology state

def isClient : Holder → Bool
  | .client _ => true
  | _ => false

end Holder

/-- The cluster states of an output that reach a node: those addressed to
it, and every one if it is a client. -/
def addressed (holder : Holder) (n : NodeId) (output : List Manager.ManagerProtocol) :
    List ClusterState :=
  output.filterMap fun
    | .clusterState recipientId state =>
      if recipientId = n ∨ holder.isClient then some state else none
    | _ => none

/-- The nodes, the mappings the leader has held after each of its turns,
the version of the table each node holds, and the cluster states on their
way, oldest first, each with the version of its table. -/
structure Spread where
  nodes : NodeId → Holder
  produced : List (Map PartitionId Partition)
  version : NodeId → ℕ
  links : NodeId → NodeId → List (ClusterState × ℕ)

namespace Spread

inductive Event
  /-- A turn of a manager, with a message that is no cluster state. -/
  | turn (n : NodeId) (msg : Option Manager.ManagerProtocol) (r : Manager.Readings)
  /-- An action of a worker, but for the arrival of a cluster state. -/
  | act (n : NodeId) (a : Worker.Action)
  /-- The oldest cluster state on its way from one node to another arrives. -/
  | deliver (m n : NodeId) (r : Manager.Readings) (env : Worker.Env)
  /-- It is lost. -/
  | lose (m n : NodeId)

/-- A node becomes another, with this version of the table. -/
def hold (s : Spread) (n : NodeId) (holder : Holder) (version : ℕ) : Spread :=
  { s with
    nodes := Function.update s.nodes n holder
    version := Function.update s.version n version }

/-- A node puts out messages, the cluster states among them with the
version it holds. -/
def send (s : Spread) (m : NodeId) (output : List Manager.ManagerProtocol) : Spread :=
  { s with
    links := Function.update s.links m fun n =>
      s.links m n ++ (addressed (s.nodes n) n output).map fun state => (state, s.version m) }

def pop (s : Spread) (m n : NodeId) : Spread :=
  { s with
    links := Function.update s.links m (Function.update (s.links m) n (s.links m n).tail) }

variable (leader : NodeId)

/-- The tick of a manager. The leader's produces a table. -/
def ticks (s : Spread) (n : NodeId) (service : Manager.Service) (r : Manager.Readings) : Spread :=
  let t := service.tick r
  let s' := if n = leader then
      { s with produced := s.produced ++ [t.1.state.partitions.mapping] }.hold n (.manager t.1)
        s.produced.length
    else s.hold n (.manager t.1) (s.version n)
  s'.send n t.2

/-- A turn of a manager, which holds a version once it has handled its
message. -/
def turns (s : Spread) (n : NodeId) (service : Manager.Service)
    (msg : Option Manager.ManagerProtocol) (version : ℕ) (r : Manager.Readings) : Spread :=
  match msg with
  | some msg =>
    let h := service.handle msg r
    ((s.hold n (.manager h.1) version).send n h.2).ticks leader n h.1 r
  | none => s.ticks leader n service r

/-- The version a node holds once a cluster state has arrived. -/
def after (s : Spread) (n : NodeId) (e : ClusterState × ℕ) : ℕ :=
  if (s.nodes n).accepts e.1 then e.2 else s.version n

/-- A cluster state arrives. -/
def takes (s : Spread) (n : NodeId) (e : ClusterState × ℕ) (r : Manager.Readings)
    (env : Worker.Env) : Spread :=
  match s.nodes n with
  | .manager service => s.turns leader n service (some (.clusterState n e.1)) (s.after n e) r
  | .worker me world =>
    s.hold n (.worker me (world.step me (.message (.clusterState e.1) env))) (s.after n e)
  | .client topology => s.hold n (.client (Client.applyState topology e.1)) (s.after n e)

def step (s : Spread) : Event → Spread
  | .turn n msg r =>
    match s.nodes n with
    | .manager service =>
      if msg.any informs then s else s.turns leader n service msg (s.version n) r
    | _ => s
  | .act n a =>
    match s.nodes n with
    | .worker me world =>
      if informsWorker a then s else s.hold n (.worker me (world.step me a)) (s.version n)
    | _ => s
  | .deliver m n r env =>
    match s.links m n with
    | e :: _ => (s.pop m n).takes leader n e r env
    | [] => s
  | .lose m n => s.pop m n

/-- **One leader in one epoch.** -/
structure OneLeader (epoch : ℕ) (s : Spread) : Prop where
  leads : ∃ service, s.nodes leader = .manager service ∧
    service.state.electedLeaderId = some leader ∧ service.state.epoch = some epoch
  others : ∀ n ≠ leader, ∀ service, s.nodes n = .manager service →
    service.state.electedLeaderId ≠ some service.me.id

/-- **The versions are those of the tables.** -/
structure Recorded (s : Spread) : Prop where
  held : ∀ n, s.produced[s.version n]? = some (s.nodes n).table.mapping
  sent : ∀ m n, ∀ e ∈ s.links m n, s.produced[e.2]? = some e.1.partitions.mapping

/-- **No node of the set takes a table over that is older than its own.** -/
def Onward (within : Set NodeId) (s : Spread) : Event → Prop
  | .deliver m n _ _ => n ∈ within → ∀ e ∈ (s.links m n).head?, (s.nodes n).accepts e.1 →
      s.version n ≤ e.2
  | _ => True

/-- The nodes of the set take tables over from one node only, and the
leader takes none. -/
def OneSource (source : NodeId → NodeId) (within : Set NodeId) (s : Spread) : Event → Prop
  | .deliver m n _ _ => n ∈ within → ∀ e ∈ (s.links m n).head?, (s.nodes n).accepts e.1 →
      n ≠ leader ∧ m = source n
  | _ => True

/-- **A spread at its start**: nothing is on its way, and no node of the
set is ahead of its source. -/
structure Starts (source : NodeId → NodeId) (within : Set NodeId) (s : Spread) : Prop where
  recorded : ∀ n, s.produced[s.version n]? = some (s.nodes n).table.mapping
  quiet : ∀ m n, s.links m n = []
  behind : ∀ n ∈ within, n ≠ leader → s.version n ≤ s.version (source n)

end Spread

/-! ## What a node does to its table -/

section Table

open Manager

/-- What reaches a node has been put out. -/
theorem addressed_subset (holder : Holder) (n : NodeId) (output : List ManagerProtocol) :
    addressed holder n output ⊆ updates output := by
  intro state hstate
  obtain ⟨o, ho, heq⟩ := List.mem_filterMap.mp hstate
  refine List.mem_filterMap.mpr ⟨o, ho, ?_⟩
  cases o with
  | clusterState rcpt st =>
    dsimp only at heq ⊢
    split at heq
    · exact heq
    · cases heq
  | _ => cases heq

theorem partitions_applyState (topology : Client.Topology) (state : ClusterState) :
    (Client.applyState topology state).partitions =
      if !Client.outdated topology state then state.partitions else topology.partitions := by
  unfold Client.applyState
  cases Client.outdated topology state <;> rfl

end Table

namespace Spread

open Relay

variable {leader m n : NodeId} {s : Spread}

/-! ## The versions on their way -/

/-- The versions, without the tables. -/
def net (s : Spread) : Net NodeId ℕ := ⟨s.version, fun m n => (s.links m n).map Prod.snd⟩

theorem net_hold (holder : Holder) (version : ℕ) :
    (s.hold n holder version).net = s.net.hold n version := rfl

theorem net_hold_same (holder : Holder) : (s.hold n holder (s.version n)).net = s.net := by
  rw [net_hold, Net.hold]
  change Net.mk (Function.update s.version n (s.version n)) _ = s.net
  rw [Function.update_eq_self]
  rfl

theorem net_send (output : List Manager.ManagerProtocol) :
    (s.send m output).net = s.net.send m fun n => (addressed (s.nodes n) n output).length := by
  unfold net send Net.send
  congr 1
  funext k n
  by_cases hk : k = m
  · subst hk
    simp [List.map_append, Function.comp_def]
  · simp [Function.update_of_ne hk]

theorem net_pop : (s.pop m n).net = s.net.pop m n := by
  unfold net pop Net.pop
  congr 1
  funext k j
  by_cases hk : k = m
  · subst hk
    by_cases hj : j = n
    · subst hj
      simp [List.map_tail]
    · simp [Function.update_of_ne hj]
  · simp [Function.update_of_ne hk]

theorem head?_net : (s.net.links m n).head? = (s.links m n).head?.map Prod.snd := List.head?_map

variable {source : NodeId → NodeId} {within : Set NodeId} {service : Manager.Service}
  {r : Manager.Readings} {msg : Option Manager.ManagerProtocol}

/-- **A tick keeps the order**: the version the leader produces is the
latest. -/
theorem inOrder_ticks (h : InOrder source leader within s.net)
    (hlatest : s.version leader ≤ s.produced.length) :
    InOrder source leader within (s.ticks leader n service r).net := by
  unfold ticks
  dsimp only
  rw [net_send]
  refine InOrder.send ?_ _ _
  split
  · rename_i hn
    subst hn
    exact h.renew hlatest
  · rw [net_hold_same]
    exact h

/-- **A turn keeps the order**, if the message it handles does. -/
theorem inOrder_turns {version : ℕ}
    (h : ∀ holder, InOrder source leader within (s.hold n holder version).net)
    (hsame : msg = none → version = s.version n)
    (hlatest : Function.update s.version n version leader ≤ s.produced.length) :
    InOrder source leader within (s.turns leader n service msg version r).net := by
  cases msg with
  | some msg =>
    refine inOrder_ticks ?_ hlatest
    rw [net_send]
    exact (h _).send _ _
  | none =>
    obtain rfl := hsame rfl
    rw [Function.update_eq_self] at hlatest
    have hnet := h (.manager service)
    rw [net_hold_same] at hnet
    exact inOrder_ticks hnet hlatest

/-! ## The tables behind the versions -/

theorem Recorded.latest (h : s.Recorded) (n : NodeId) : s.version n < s.produced.length :=
  (List.getElem?_eq_some_iff.mp (h.held n)).1

/-- **A node becomes another** with a recorded mapping. -/
theorem Recorded.hold (h : s.Recorded) {holder : Holder} {version : ℕ}
    (hrecorded : s.produced[version]? = some holder.table.mapping) :
    (s.hold n holder version).Recorded := by
  refine ⟨fun k => ?_, h.sent⟩
  by_cases hk : k = n
  · subst hk
    simpa [Spread.hold] using hrecorded
  · simpa [Spread.hold, Function.update_of_ne hk] using h.held k

/-- **A node puts out the mapping it holds.** -/
theorem Recorded.send (h : s.Recorded) {output : List Manager.ManagerProtocol}
    (hout : ∀ state ∈ Manager.updates output,
      state.partitions.mapping = (s.nodes m).table.mapping) : (s.send m output).Recorded := by
  refine ⟨h.held, fun k n e he => ?_⟩
  by_cases hk : k = m
  · subst hk
    simp only [Spread.send, Function.update_self, List.mem_append, List.mem_map] at he
    rcases he with he | ⟨state, hstate, rfl⟩
    · exact h.sent k n e he
    · rw [hout state (addressed_subset _ _ _ hstate)]
      exact h.held k
  · simp only [Spread.send, Function.update_of_ne hk] at he
    exact h.sent k n e he

theorem Recorded.pop (h : s.Recorded) (m n : NodeId) : (s.pop m n).Recorded := by
  refine ⟨h.held, fun k j e he => ?_⟩
  by_cases hk : k = m
  · subst hk
    by_cases hj : j = n
    · subst hj
      simp only [Spread.pop, Function.update_self] at he
      exact h.sent k j e (List.mem_of_mem_tail he)
    · simp only [Spread.pop, Function.update_self, Function.update_of_ne hj] at he
      exact h.sent k j e he
  · simp only [Spread.pop, Function.update_of_ne hk] at he
    exact h.sent k j e he

/-- The leader produces a table. -/
theorem Recorded.produce (h : s.Recorded) (mapping : Map PartitionId Partition) :
    { s with produced := s.produced ++ [mapping] }.Recorded := by
  have hgrows : ∀ {i : ℕ} {t : Map PartitionId Partition}, s.produced[i]? = some t →
      (s.produced ++ [mapping])[i]? = some t := by
    intro i t hi
    rw [List.getElem?_append_left (List.getElem?_eq_some_iff.mp hi).1]
    exact hi
  exact ⟨fun n => hgrows (h.held n), fun m n e he => hgrows (h.sent m n e he)⟩

theorem Recorded.ticks (h : s.Recorded)
    (hheld : s.produced[s.version n]? = some service.state.partitions.mapping)
    (hfollows : n ≠ leader → (service.tick r).1.state.electedLeaderId ≠ some service.me.id) :
    (s.ticks leader n service r).Recorded := by
  unfold Spread.ticks
  dsimp only
  refine Recorded.send ?_ fun state hstate => ?_
  · split
    · exact (h.produce _).hold (by simp [Holder.table])
    · rename_i hn
      refine h.hold ?_
      rw [Holder.table, Manager.tick_table_of_following (hfollows hn)]
      exact hheld
  · rw [partitions_of_update_tick hstate]
    split <;> simp [Spread.hold, Holder.table]

theorem Recorded.turns (h : s.Recorded) {version : ℕ}
    (hheld : s.produced[version]? = some (handled service msg r).state.partitions.mapping)
    (hsame : msg = none → version = s.version n)
    (hfollows : n ≠ leader →
      (service.turn (msg, r)).state.electedLeaderId ≠ some service.me.id) :
    (s.turns leader n service msg version r).Recorded := by
  rw [turn_eq_tick_handled, ← handled_me (r := r) msg] at hfollows
  cases msg with
  | some msg =>
    refine Recorded.ticks (Recorded.send (h.hold hheld) fun state hstate => ?_) ?_ hfollows
    · rw [partitions_of_update_handle hstate]
      simp [Spread.hold, Holder.table]
    · simpa [Spread.send, Spread.hold, handled] using hheld
  | none =>
    obtain rfl := hsame rfl
    exact h.ticks hheld hfollows

/-- What a turn of a manager leaves of it. -/
theorem nodes_turns (version : ℕ) :
    (s.turns leader n service msg version r).nodes n = .manager (service.turn (msg, r)) := by
  have hticks : ∀ (s : Spread) (service : Manager.Service),
      (s.ticks leader n service r).nodes n = .manager (service.tick r).1 := by
    intro s service
    unfold Spread.ticks
    dsimp only [Spread.send]
    split <;> simp [Spread.hold]
  rw [turn_eq_tick_handled]
  cases msg with
  | some msg => exact hticks _ _
  | none => exact hticks _ _

/-- A manager other than the leader does not lead after a turn. -/
theorem OneLeader.follows {epoch version : ℕ}
    (h : OneLeader leader epoch (s.turns leader n service msg version r)) (hn : n ≠ leader) :
    (service.turn (msg, r)).state.electedLeaderId ≠ some service.me.id := by
  have hothers := h.others n hn _ (nodes_turns version)
  rw [Manager.turn_me] at hothers
  exact hothers

/-! ## One step -/

variable {epoch : ℕ} {e : ClusterState × ℕ} {env : Worker.Env}

/-- The version a node holds after an arrival is that of its table. -/
theorem Recorded.after (h : s.Recorded) (he : e ∈ s.links m n) :
    s.produced[s.after n e]? = some (if (s.nodes n).accepts e.1 then e.1.partitions
      else (s.nodes n).table).mapping := by
  unfold Spread.after
  split
  · exact h.sent m n e he
  · exact h.held n

theorem Recorded.takes (h : s.Recorded)
    (hafter : s.produced[s.after n e]? = some (if (s.nodes n).accepts e.1 then e.1.partitions
      else (s.nodes n).table).mapping)
    (hled : OneLeader leader epoch (s.takes leader n e r env)) :
    (s.takes leader n e r env).Recorded := by
  unfold Spread.takes at hled ⊢
  generalize s.after n e = version at hled hafter ⊢
  cases hnode : s.nodes n with
  | manager service =>
    rw [hnode] at hled hafter
    refine h.turns ?_ (fun hnone => by cases hnone) hled.follows
    rw [handled, partitions_handle_clusterState]
    exact hafter
  | worker me world =>
    rw [hnode] at hafter
    refine h.hold ?_
    rw [Holder.table, partitions_informed]
    exact hafter
  | client topology =>
    rw [hnode] at hafter
    refine h.hold ?_
    rw [Holder.table, partitions_applyState]
    exact hafter

/-- **A node takes over what its source has sent.** -/
theorem inOrder_after (h : InOrder source leader within s.net)
    (hclosed : Closed source leader within) (hhead : (s.links m n).head? = some e)
    (hone : n ∈ within → (s.nodes n).accepts e.1 → n ≠ leader ∧ m = source n) (holder : Holder) :
    InOrder source leader within ((s.pop m n).hold n holder (s.after n e)).net := by
  rw [net_hold, net_pop]
  unfold after
  split
  · rename_i haccepts
    by_cases hn : n ∈ within
    · obtain ⟨hne, rfl⟩ := hone hn haccepts
      refine h.take hn hne ?_
      rw [head?_net, hhead]
      rfl
    · exact (h.lose m n).outside hclosed hn _
  · have hsame := net_hold_same (s := s.pop m n) (n := n) holder
    rw [net_hold, net_pop] at hsame
    rw [show s.version n = (s.pop m n).version n from rfl, hsame]
    exact h.lose m n

theorem inOrder_takes (h : ∀ holder, InOrder source leader within
      (s.hold n holder (s.after n e)).net)
    (hlatest : Function.update s.version n (s.after n e) leader ≤ s.produced.length) :
    InOrder source leader within (s.takes leader n e r env).net := by
  unfold takes
  generalize s.after n e = version at h hlatest ⊢
  cases s.nodes n with
  | manager service => exact inOrder_turns h (fun hnone => by cases hnone) hlatest
  | worker me world => exact h _
  | client topology => exact h _

/-- **Every step keeps the versions those of the tables, and the nodes of
one source in order.** -/
theorem kept_spread_step {event : Event} (hr : s.Recorded)
    (hin : InOrder source leader within s.net) (hclosed : Closed source leader within)
    (hone : OneSource leader source within s event)
    (hled : OneLeader leader epoch (s.step leader event)) :
    (s.step leader event).Recorded ∧ InOrder source leader within (s.step leader event).net := by
  cases event with
  | turn n msg r =>
    simp only [step] at hled ⊢
    cases hnode : s.nodes n with
    | manager service =>
      rw [hnode] at hled
      dsimp only at hled ⊢
      split
      · exact ⟨hr, hin⟩
      · rename_i hmsg
        rw [if_neg hmsg] at hled
        have hheld := hr.held n
        rw [hnode, Holder.table, ← mapping_handled (r := r) (Bool.eq_false_of_not_eq_true hmsg)]
          at hheld
        refine ⟨hr.turns hheld (fun _ => rfl) hled.follows, inOrder_turns (fun holder => ?_)
          (fun _ => rfl) ?_⟩
        · rw [net_hold_same]
          exact hin
        · rw [Function.update_eq_self]
          exact (hr.latest leader).le
    | worker me world => exact ⟨hr, hin⟩
    | client topology => exact ⟨hr, hin⟩
  | act n a =>
    simp only [step]
    cases hnode : s.nodes n with
    | worker me world =>
      dsimp only
      split
      · exact ⟨hr, hin⟩
      · rename_i ha
        have hheld := hr.held n
        rw [hnode, Holder.table, ← @partitions_act me world a (Bool.eq_false_of_not_eq_true ha)]
          at hheld
        refine ⟨hr.hold hheld, ?_⟩
        rw [net_hold_same]
        exact hin
    | manager service => exact ⟨hr, hin⟩
    | client topology => exact ⟨hr, hin⟩
  | deliver m n r env =>
    simp only [step] at hled ⊢
    cases hlink : s.links m n with
    | nil => exact ⟨hr, hin⟩
    | cons e rest =>
      rw [hlink] at hled
      have hhead : (s.links m n).head? = some e := by rw [hlink]; rfl
      have hafter := hr.after (m := m) (n := n) (List.mem_of_head? hhead)
      -- whatever version the receiver comes to, it is one of those produced
      have hlatest : Function.update s.version n (s.after n e) leader ≤ s.produced.length := by
        rw [Function.update_apply]
        split
        · exact (List.getElem?_eq_some_iff.mp hafter).1.le
        · exact (hr.latest leader).le
      exact ⟨(hr.pop m n).takes hafter hled, inOrder_takes (inOrder_after hin hclosed hhead
        fun hn => hone hn e hhead) hlatest⟩
  | lose m n =>
    refine ⟨hr.pop m n, ?_⟩
    rw [step, net_pop]
    exact hin.lose m n

/-- **A node that takes its tables from one node only never goes back**,
if its source is the leader, which takes none, or takes its tables from
one node only in turn; and every table is the leader's of its version. -/
theorem one_source_goes_onward (source : NodeId → NodeId) (within : Set NodeId) (s₀ : Spread)
    (events : List Event) (hclosed : Closed source leader within)
    (hstarts : s₀.Starts leader source within)
    (hled : Along (step leader) (fun s e => OneLeader leader epoch (s.step leader e)) s₀ events)
    (hone : Along (step leader) (OneSource leader source within) s₀ events) :
    Along (step leader) (Onward within) s₀ events ∧
      Along (step leader) (fun s _ => s.Recorded) s₀ events := by
  have hstart : s₀.Recorded ∧ InOrder source leader within s₀.net := by
    refine ⟨⟨hstarts.recorded, fun m n e he => ?_⟩, fun n hn hne => ⟨hstarts.behind n hn hne, ?_,
      fun a ha => ?_⟩⟩
    · rw [hstarts.quiet] at he
      cases he
    · simp [net, hstarts.quiet]
    · simp [net, hstarts.quiet] at ha
  refine along_and.mp (along_of_inv
    (I := fun s => s.Recorded ∧ InOrder source leader within s.net)
    (fun s e hs hok => kept_spread_step hs.1 hs.2 hclosed hok.2 hok.1)
    (fun s e hs hok => ⟨?_, hs.1⟩) hstart (along_and.mpr ⟨hled, hone⟩))
  cases e with
  | deliver m n r env =>
    intro hn e he haccepts
    obtain ⟨hne, rfl⟩ := hok.2 hn e he haccepts
    refine hs.2.le_head hn hne ?_
    rw [head?_net, Option.mem_def.mp he]
    rfl
  | _ => trivial

/-! ## A leader that hears of its own past -/

section Echo

open Manager

/-- A leader with worker 4. -/
def leaderNine : Service :=
  ⟨⟨⟨9⟩, "m", 9⟩,
    { epoch := some 1
      electedLeaderId := some ⟨9⟩
      nodes := (((∅ : Map NodeId Node).insert ⟨9⟩ ⟨"m", 9, 0, .manager⟩).insert ⟨8⟩
        ⟨"f", 8, 0, .manager⟩).insert ⟨4⟩ ⟨"d", 4, 0, .worker⟩
      partitions := recompute default 1 [⟨4⟩]
      workersWithCalculatedPartitions := {⟨4⟩} }, ∅⟩

/-- A manager that follows it, which worker 3 has already joined. -/
def followerEight : Service :=
  ⟨⟨⟨8⟩, "f", 8⟩,
    { epoch := some 1
      electedLeaderId := some ⟨9⟩
      nodes := leaderNine.state.nodes.insert ⟨3⟩ ⟨"w", 3, 0, .worker⟩
      partitions := recompute default 1 [⟨4⟩]
      workersWithCalculatedPartitions := ∅ }, ∅⟩

/-- The two, and clients that hold the same table. -/
def settled : Spread where
  nodes n := if n = ⟨9⟩ then .manager leaderNine
    else if n = ⟨8⟩ then .manager followerEight
    else .client ⟨1, some ⟨9⟩, ∅, recompute default 1 [⟨4⟩]⟩
  produced := [(recompute default 1 [⟨4⟩]).mapping]
  version _ := 0
  links _ _ := []

/-- The follower answers a `GetClusterState` of the leader. -/
def asked : Event := .turn ⟨8⟩ (some (.getClusterState ⟨9⟩)) atTwenty

/-- Worker 3 joins the leader. -/
def joined : Event := .turn ⟨9⟩ (some (joins 3)) atTwenty

/-- A cluster state arrives. -/
def arrives (m n : ℕ) : Event := .deliver ⟨m⟩ ⟨n⟩ atTwenty (Worker.during [])

/-- What the follower answers. -/
def echo : ClusterState :=
  ⟨1, ⟨9⟩, listNodes followerEight.state.nodes, recompute default 1 [⟨4⟩]⟩

theorem starts_settled : settled.Starts ⟨9⟩ (fun _ => ⟨9⟩) Set.univ := by
  refine ⟨fun n => ?_, fun _ _ => rfl, fun _ _ _ => le_rfl⟩
  have htable : (settled.nodes n).table = recompute default 1 [⟨4⟩] := by
    simp only [settled]
    split
    · rfl
    · split <;> rfl
  rw [htable]
  rfl

theorem step_turn (hnode : s.nodes n = .manager service) (hmsg : msg.any informs = false) :
    s.step leader (.turn n msg r) = s.turns leader n service msg (s.version n) r := by
  simp only [step, hnode, hmsg]
  rfl

theorem step_deliver {rest : List (ClusterState × ℕ)} (hnode : s.nodes n = .manager service)
    (hlink : s.links m n = e :: rest) (haccepts : (Holder.manager service).accepts e.1 = true) :
    s.step leader (.deliver m n r env) =
      (s.pop m n).turns leader n service (some (.clusterState n e.1)) e.2 r := by
  have hpop : (s.pop m n).nodes n = .manager service := hnode
  simp only [step, hlink, takes, hpop, after, haccepts, if_true]

/-- A turn of a manager concerns no other node. -/
theorem nodes_turns_of_ne {k : NodeId} (hk : k ≠ n) (version : ℕ) :
    (s.turns leader n service msg version r).nodes k = s.nodes k := by
  have hticks : ∀ (s : Spread) (service : Manager.Service),
      (s.ticks leader n service r).nodes k = s.nodes k := by
    intro s service
    unfold Spread.ticks
    dsimp only [Spread.send]
    split <;> simp [Spread.hold, Function.update_of_ne hk]
  cases msg with
  | some msg =>
    refine (hticks _ _).trans ?_
    simp [Spread.send, Spread.hold, Function.update_of_ne hk]
  | none => exact hticks _ _

/-- **A turn keeps the one leader**, if the manager does. -/
theorem OneLeader.turns (h : OneLeader leader epoch s) {version : ℕ}
    (hself : n = leader → (service.turn (msg, r)).state.electedLeaderId = some leader ∧
      (service.turn (msg, r)).state.epoch = some epoch)
    (hother : n ≠ leader →
      (service.turn (msg, r)).state.electedLeaderId ≠ some service.me.id) :
    OneLeader leader epoch (s.turns leader n service msg version r) := by
  constructor
  · by_cases hn : n = leader
    · subst hn
      exact ⟨_, nodes_turns version, hself rfl⟩
    · obtain ⟨other, hnode, hleads⟩ := h.leads
      exact ⟨other, (nodes_turns_of_ne (Ne.symm hn) version).trans hnode, hleads⟩
  · intro k hk other hnode
    by_cases hkn : k = n
    · subst hkn
      rw [nodes_turns] at hnode
      cases hnode
      rw [turn_me]
      exact hother hk
    · rw [nodes_turns_of_ne hkn] at hnode
      exact h.others k hk other hnode

theorem OneLeader.pop (h : OneLeader leader epoch s) (m n : NodeId) :
    OneLeader leader epoch (s.pop m n) :=
  ⟨h.leads, h.others⟩

theorem oneLeader_settled : OneLeader ⟨9⟩ 1 settled := by
  refine ⟨⟨leaderNine, rfl, rfl, rfl⟩, fun n hn service hnode => ?_⟩
  simp only [settled, if_neg hn] at hnode
  split at hnode
  · cases hnode
    decide
  · cases hnode

/-- Worker 3 moves partition 0 to itself. -/
theorem three_joins : (leaderNine.turn (some (joins 3), atTwenty)).state.partitions =
    recompute (recompute default 1 [⟨4⟩]) 1 [⟨3⟩, ⟨4⟩] := by
  have hturn := (turn_of_stale leaderNine (joins 3) atTwenty [⟨3⟩, ⟨4⟩] (by decide +kernel)
    (by decide +kernel) (by decide) (by decide +kernel) (by decide +kernel)).1
  have hbefore : (leaderNine.handle (joins 3) atTwenty).1.state.partitions =
      recompute default 1 [⟨4⟩] := rfl
  have hfactor : atTwenty.replicationFactor = 1 := rfl
  rw [hbefore, hfactor] at hturn
  exact hturn

/-- The leader when worker 3 has joined. -/
def nineOverThree : Service := leaderNine.turn (some (joins 3), atTwenty)

/-- The spread when the follower has answered and worker 3 has joined. -/
theorem asked_joined :
    ((settled.step ⟨9⟩ asked).step ⟨9⟩ joined).nodes ⟨9⟩ = .manager nineOverThree ∧
    ((settled.step ⟨9⟩ asked).step ⟨9⟩ joined).version ⟨9⟩ = 1 ∧
    ((settled.step ⟨9⟩ asked).step ⟨9⟩ joined).links ⟨8⟩ ⟨9⟩ = [(echo, 0)] :=
  ⟨rfl, rfl, rfl⟩

theorem accepts_echo : accepts nineOverThree.state echo.epoch echo.leaderId = true := by
  decide +kernel

/-- **The leader takes its own table back**: the answer lists worker 3, so
nothing is recomputed. -/
theorem echo_taken :
    (nineOverThree.turn (some (.clusterState ⟨9⟩ echo), atTwenty)).state.partitions =
      recompute default 1 [⟨4⟩] := by
  have hcalc : Calculated (beating nineOverThree (.clusterState ⟨9⟩ echo) atTwenty) := by
    unfold Calculated
    decide +kernel
  have hturn : (nineOverThree.turn (some (.clusterState ⟨9⟩ echo), atTwenty)).state.partitions =
      (workerPartitions (beating nineOverThree (.clusterState ⟨9⟩ echo) atTwenty)
        (nineOverThree.handle (.clusterState ⟨9⟩ echo) atTwenty).1.me
        atTwenty.replicationFactor).1.partitions := rfl
  rw [hturn, workerPartitions_of_calculated _ hcalc, beating, heartbeats_partitions,
    partitions_handle_clusterState, if_pos accepts_echo]
  rfl

/-- **A follower's answer sets the leader back.** The follower answers the
leader, worker 3 joins and is given partition 0, and then the answer
arrives: partition 0 is worker 4's again, as far as the leader knows. -/
theorem echo_sets_leader_back :
    settled.Starts ⟨9⟩ (fun _ => ⟨9⟩) Set.univ ∧
    Along (step ⟨9⟩) (fun s e => OneLeader ⟨9⟩ 1 (s.step ⟨9⟩ e)) settled
      [asked, joined, arrives 8 9] ∧
    ¬ Along (step ⟨9⟩) (Onward Set.univ) settled [asked, joined, arrives 8 9] ∧
    (⟨3⟩ : NodeId) ∈
      ((run (step ⟨9⟩) settled [asked, joined]).nodes ⟨9⟩).table.holders ⟨0⟩ ∧
    (⟨3⟩ : NodeId) ∉
      ((run (step ⟨9⟩) settled [asked, joined, arrives 8 9]).nodes ⟨9⟩).table.holders ⟨0⟩ := by
  obtain ⟨hnine, hversion, hlink⟩ := asked_joined
  have hasked : settled.step ⟨9⟩ asked = settled.turns ⟨9⟩ ⟨8⟩ followerEight
      (some (.getClusterState ⟨9⟩)) 0 atTwenty := step_turn rfl rfl
  have hjoined : (settled.step ⟨9⟩ asked).step ⟨9⟩ joined = (settled.step ⟨9⟩ asked).turns ⟨9⟩ ⟨9⟩
      leaderNine (some (joins 3)) 0 atTwenty := step_turn rfl rfl
  have harrives : ((settled.step ⟨9⟩ asked).step ⟨9⟩ joined).step ⟨9⟩ (arrives 8 9) =
      (((settled.step ⟨9⟩ asked).step ⟨9⟩ joined).pop ⟨8⟩ ⟨9⟩).turns ⟨9⟩ ⟨9⟩ nineOverThree
        (some (.clusterState ⟨9⟩ echo)) 0 atTwenty := by
    rw [arrives, step_deliver hnine hlink accepts_echo]
  have hled₁ : OneLeader ⟨9⟩ 1 (settled.step ⟨9⟩ asked) := by
    rw [hasked]
    exact oneLeader_settled.turns (fun h => absurd h (by decide)) fun _ => by decide +kernel
  have hled₂ : OneLeader ⟨9⟩ 1 ((settled.step ⟨9⟩ asked).step ⟨9⟩ joined) := by
    rw [hjoined]
    exact hled₁.turns (fun _ => by decide +kernel) fun h => absurd rfl h
  refine ⟨starts_settled, ⟨hled₁, hled₂, ?_, trivial⟩, fun honward => ?_, ?_, ?_⟩
  · dsimp only
    rw [harrives]
    exact (hled₂.pop _ _).turns (fun _ => by decide +kernel) fun h => absurd rfl h
  · have hlast := honward.2.2.1 trivial (echo, 0) (by rw [hlink]; rfl)
      (by rw [hnine]; exact accepts_echo)
    rw [hversion] at hlast
    exact absurd hlast (by decide)
  · change ⟨3⟩ ∈ (((settled.step ⟨9⟩ asked).step ⟨9⟩ joined).nodes ⟨9⟩).table.holders ⟨0⟩
    rw [hnine, Holder.table, nineOverThree, three_joins]
    exact first_holds_zero _ _ _
  · change ⟨3⟩ ∉ ((((settled.step ⟨9⟩ asked).step ⟨9⟩ joined).step ⟨9⟩
      (arrives 8 9)).nodes ⟨9⟩).table.holders ⟨0⟩
    rw [harrives, nodes_turns, Holder.table, echo_taken]
    intro hthree
    exact absurd (holder_unique (by decide) hthree (first_holds_zero _ _ _)) (by decide)

/-- The follower goes on following a leader whose cluster state it takes. -/
theorem followerEight_follows {state : ClusterState} (hleader : state.leaderId = ⟨9⟩) :
    (followerEight.turn (some (.clusterState ⟨8⟩ state), atTwenty)).state.electedLeaderId ≠
      some followerEight.me.id := by
  have hhandled :
      (followerEight.handle (.clusterState ⟨8⟩ state) atTwenty).1.state.electedLeaderId ≠
        some ⟨8⟩ := by
    rcases handle_decision followerEight (.clusterState ⟨8⟩ state) atTwenty with
      ⟨-, h | h⟩ | ⟨e, l, -, hkind, -, h⟩ | ⟨id, ts, e, a, hmsg, -⟩
    · rw [h]
      decide
    · rw [h]
      decide
    · rcases hkind with ⟨ts, hmsg⟩ | ⟨rcpt, st, hmsg, -, rfl⟩
      · cases hmsg
      · cases hmsg
        rw [h, hleader]
        decide
    · cases hmsg
  rcases tick_leader (s := (followerEight.handle (.clusterState ⟨8⟩ state) atTwenty).1) atTwenty
    with h | h
  · exact fun heq => hhandled (h.symm.trans heq)
  · exact fun heq => Option.some_ne_none _ (heq.symm.trans h)

/-- The follower takes the table of worker 3 over from the leader. -/
theorem one_source_goes_onward_joined :
    (((settled.step ⟨9⟩ joined).links ⟨9⟩ ⟨8⟩).map fun e => (e.2, e.1.epoch, e.1.leaderId)) =
      [(1, 1, ⟨9⟩)] ∧
    Along (step ⟨9⟩) (Onward Set.univ) settled [joined, arrives 9 8] := by
  have hlinks : (((settled.step ⟨9⟩ joined).links ⟨9⟩ ⟨8⟩).map fun e =>
      (e.2, e.1.epoch, e.1.leaderId)) = [(1, 1, ⟨9⟩)] := by decide +kernel
  obtain ⟨e, hlink, he⟩ := List.map_eq_singleton_iff.mp hlinks
  have hjoined : settled.step ⟨9⟩ joined = settled.turns ⟨9⟩ ⟨9⟩ leaderNine (some (joins 3)) 0
      atTwenty := step_turn rfl rfl
  have hled₁ : OneLeader ⟨9⟩ 1 (settled.step ⟨9⟩ joined) := by
    rw [hjoined]
    exact oneLeader_settled.turns (fun _ => by decide +kernel) fun h => absurd rfl h
  have height : (settled.step ⟨9⟩ joined).nodes ⟨8⟩ = .manager followerEight := by
    rw [hjoined]
    exact nodes_turns_of_ne (by decide) 0
  obtain ⟨-, hepoch, hleader⟩ : e.2 = 1 ∧ e.1.epoch = 1 ∧ e.1.leaderId = ⟨9⟩ := by
    simpa only [Prod.mk.injEq] using he
  have haccepts : accepts followerEight.state e.1.epoch e.1.leaderId = true := by
    rw [hepoch, hleader]
    decide
  have hled₂ : OneLeader ⟨9⟩ 1 ((settled.step ⟨9⟩ joined).step ⟨9⟩ (arrives 9 8)) := by
    rw [arrives, step_deliver height hlink haccepts]
    exact (hled₁.pop _ _).turns (fun h => absurd h (by decide)) fun _ =>
      followerEight_follows hleader
  exact ⟨hlinks, (one_source_goes_onward (fun _ => ⟨9⟩) Set.univ settled [joined, arrives 9 8]
    (fun _ _ _ => trivial) starts_settled ⟨hled₁, hled₂, trivial⟩
    ⟨trivial, fun _ _ _ _ => ⟨by decide, rfl⟩, trivial⟩).1⟩

end Echo

end Spread

end Migration

end NoSqlStore
