import NoSqlStore.Manager.Effects
import NoSqlStore.Common.Runs
/-!
# A cluster of managers

The managers of a cluster and every packet they have sent. A packet, once
sent, may be delivered at any later time, any number of times or never, so
the network delays, reorders, duplicates and loses at will. One action is
one turn of one manager: a packet or an outside message and the tick after
it, or a tick alone. `Move` says what the parts of such a turn do to the
election, and is all that the agreement argument uses of the handlers.
-/

namespace NoSqlStore

namespace Election

open Manager

/-- A packet: its recipient and the message as the recipient reads it. -/
abbrev Packet := NodeId × ManagerProtocol

/-- What a message put out by `sender` becomes on the wire: the recipient
is taken off, and a vote, a vote request or a leader notification carries
the sender instead. Dialling and disconnections are not packets. -/
def route (sender : NodeId) : ManagerProtocol → Option Packet
  | .heartbeat id heartbeatId ts => some (id, .heartbeat sender heartbeatId ts)
  | .getClusterState id => some (id, .getClusterState sender)
  | .clusterState recipientId state => some (recipientId, .clusterState recipientId state)
  | .voteRequest id epoch ts => some (id, .voteRequest sender epoch ts)
  | .voteResponse id leaderId ts => some (id, .voteResponse sender leaderId ts)
  | .leader id epoch ts => some (id, .leader sender epoch ts)
  | .removePartitionFromReplica id replicaId partitionId =>
    some (id, .removePartitionFromReplica sender replicaId partitionId)
  | .newConnection _ _ _ _ => none
  | .nodeDisconnected _ => none

/-- The managers, and all they have sent. -/
structure Cluster where
  managers : NodeId → Service
  sent : List Packet

/-- One turn of one manager. -/
inductive Action
  | deliver (m : NodeId) (msg : ManagerProtocol) (r : Readings)
  | outside (m : NodeId) (msg : ManagerProtocol) (r : Readings)
  | tick (m : NodeId) (r : Readings)

/-- The manager that acts. -/
def Action.actor : Action → NodeId
  | .deliver m _ _ => m
  | .outside m _ _ => m
  | .tick m _ => m

/-- What it reads. -/
def Action.input : Action → Option ManagerProtocol × Readings
  | .deliver _ msg r => (some msg, r)
  | .outside _ msg r => (some msg, r)
  | .tick _ r => (none, r)

/-- What a turn puts out. -/
def output (s : Service) (input : Option ManagerProtocol × Readings) : List ManagerProtocol :=
  match input.1 with
  | some msg => (s.process msg input.2).2
  | none => (s.tick input.2).2

namespace Cluster

/-- Manager `m` moves to `s` and puts out `outs`. -/
def apply (c : Cluster) (m : NodeId) (s : Service) (outs : List ManagerProtocol) : Cluster :=
  ⟨Function.update c.managers m s, c.sent ++ outs.filterMap (route m)⟩

def act (c : Cluster) (a : Action) : Cluster :=
  c.apply a.actor ((c.managers a.actor).turn a.input) (output (c.managers a.actor) a.input)

end Cluster

/-- The messages that reach the managers `M` from outside: of workers, and
of nothing that touches the membership of `M`. -/
def Outside (M : Finset NodeId) : ManagerProtocol → Prop
  | .newConnection id _ _ _ => ∀ n ∈ id, n ∉ M
  | .nodeDisconnected id => id ∉ M
  | .heartbeat _ _ _ | .getClusterState _ | .removePartitionFromReplica _ _ _ => True
  | _ => False

/-- **The runs considered**: managers of `M` act, deliver what was sent,
and no two elections of one manager carry one timestamp. -/
structure Admissible (M : Finset NodeId) (c : Cluster) (a : Action) : Prop where
  actor : a.actor ∈ M
  sent : ∀ m msg r, a = .deliver m msg r → (m, msg) ∈ c.sent
  outside : ∀ m msg r, a = .outside m msg r → Outside M msg
  fresh : ∀ id epoch ts, .voteRequest id epoch ts ∈ output (c.managers a.actor) a.input →
    ∀ dst epoch', (dst, .voteRequest a.actor epoch' ts) ∉ c.sent

/-- **A cluster at its start**: each manager of `M` knows all of them as
managers, has no leader and takes part in no election. -/
structure Initial (M : Finset NodeId) (c : Cluster) : Prop where
  sent : c.sent = []
  id : ∀ m ∈ M, (c.managers m).me.id = m
  known : ∀ m ∈ M, ∀ n ∈ M,
    (c.managers m).state.nodes[n]?.map Node.nodeType = some .manager
  leader : ∀ m ∈ M, (c.managers m).state.electedLeaderId = none
  elections : ∀ m ∈ M, (c.managers m).elections = ∅

/-! ## What the packets testify -/

/-- `X` has asked for votes. -/
def Requested (sent : List Packet) (X : NodeId) (epoch ts : ℕ) : Prop :=
  ∃ dst, (dst, .voteRequest X epoch ts) ∈ sent

/-- `Y` has approved `X`. The vote names no epoch. -/
def Approved (sent : List Packet) (Y X : NodeId) (ts : ℕ) : Prop :=
  ∃ dst, (dst, .voteResponse Y X ts) ∈ sent

/-- `X` has taken the winning branch. -/
def Won (sent : List Packet) (X : NodeId) (epoch ts : ℕ) : Prop :=
  ∃ dst, (dst, .leader X epoch ts) ∈ sent

section Facts

variable {c : Cluster} {m X Y : NodeId} {s : Service} {outs : List ManagerProtocol}
  {epoch ts : ℕ}

theorem mem_sent_apply {pk : Packet} :
    pk ∈ (c.apply m s outs).sent ↔ pk ∈ c.sent ∨ ∃ o ∈ outs, route m o = some pk := by
  simp [Cluster.apply, List.mem_append, List.mem_filterMap]

theorem sent_subset_apply : c.sent ⊆ (c.apply m s outs).sent :=
  fun _ h => mem_sent_apply.mpr (Or.inl h)

theorem sent_subset_act (c : Cluster) (a : Action) : c.sent ⊆ (c.act a).sent := sent_subset_apply

theorem sent_subset_run (c : Cluster) (actions : List Action) :
    c.sent ⊆ (Runs.run Cluster.act c actions).sent := by
  induction actions generalizing c with
  | nil => exact fun _ h => h
  | cons a actions ih => exact fun pk h => ih (c.act a) (sent_subset_act c a h)

@[simp] theorem managers_apply_self : (c.apply m s outs).managers m = s := by
  simp [Cluster.apply]

theorem managers_apply_of_ne (h : X ≠ m) :
    (c.apply m s outs).managers X = c.managers X := by
  simp [Cluster.apply, h]

theorem apply_apply (c : Cluster) (m : NodeId) (s₁ s₂ : Service)
    (outs₁ outs₂ : List ManagerProtocol) :
    (c.apply m s₁ outs₁).apply m s₂ outs₂ = c.apply m s₂ (outs₁ ++ outs₂) := by
  simp [Cluster.apply, List.append_assoc]

/-- A vote request on the wire was in the sender's output. -/
theorem requested_apply :
    Requested (c.apply m s outs).sent X epoch ts ↔
      Requested c.sent X epoch ts ∨ (X = m ∧ ∃ dst, .voteRequest dst epoch ts ∈ outs) := by
  simp only [Requested, mem_sent_apply]
  constructor
  · rintro ⟨dst, h | ⟨o, ho, hr⟩⟩
    · exact Or.inl ⟨dst, h⟩
    · cases o <;> simp [route] at hr
      obtain ⟨rfl, rfl, rfl, rfl⟩ := hr
      exact Or.inr ⟨rfl, _, ho⟩
  · rintro (⟨dst, h⟩ | ⟨rfl, dst, h⟩)
    · exact ⟨dst, Or.inl h⟩
    · exact ⟨dst, Or.inr ⟨_, h, rfl⟩⟩

theorem approved_apply :
    Approved (c.apply m s outs).sent Y X ts ↔
      Approved c.sent Y X ts ∨ (Y = m ∧ ∃ dst, .voteResponse dst X ts ∈ outs) := by
  simp only [Approved, mem_sent_apply]
  constructor
  · rintro ⟨dst, h | ⟨o, ho, hr⟩⟩
    · exact Or.inl ⟨dst, h⟩
    · cases o <;> simp [route] at hr
      obtain ⟨rfl, rfl, rfl, rfl⟩ := hr
      exact Or.inr ⟨rfl, _, ho⟩
  · rintro (⟨dst, h⟩ | ⟨rfl, dst, h⟩)
    · exact ⟨dst, Or.inl h⟩
    · exact ⟨dst, Or.inr ⟨_, h, rfl⟩⟩

theorem won_apply :
    Won (c.apply m s outs).sent X epoch ts ↔
      Won c.sent X epoch ts ∨ (X = m ∧ ∃ dst, .leader dst epoch ts ∈ outs) := by
  simp only [Won, mem_sent_apply]
  constructor
  · rintro ⟨dst, h | ⟨o, ho, hr⟩⟩
    · exact Or.inl ⟨dst, h⟩
    · cases o <;> simp [route] at hr
      obtain ⟨rfl, rfl, rfl, rfl⟩ := hr
      exact Or.inr ⟨rfl, _, ho⟩
  · rintro (⟨dst, h⟩ | ⟨rfl, dst, h⟩)
    · exact ⟨dst, Or.inl h⟩
    · exact ⟨dst, Or.inr ⟨_, h, rfl⟩⟩

end Facts

end Election

end NoSqlStore
