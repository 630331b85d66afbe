import NoSqlStore.Manager.Clients
import NoSqlStore.Manager.Provenance
import NoSqlStore.Sync.Completions
/-!
# What a node does to its table

A manager's table changes when it takes a cluster state over, in the
handler, and when it recomputes, in the tick after it; an acknowledgement
strikes a replica off and leaves the mapping. What either puts out carries
the table it leaves. A worker's table changes when it takes a cluster
state over.
-/

namespace NoSqlStore

namespace Migration

/-- The message is a cluster state. -/
def informs : Manager.ManagerProtocol → Bool
  | .clusterState _ _ => true
  | _ => false

/-- The action is the arrival of a cluster state. -/
def informsWorker : Worker.Action → Bool
  | .message (.clusterState _) _ => true
  | _ => false

section Table

open Manager

variable {service : Service} {msg : ManagerProtocol} {r : Readings}

/-- The manager between its message and its tick. -/
def handled (service : Service) (msg : Option ManagerProtocol) (r : Readings) : Service :=
  match msg with
  | some msg => (service.handle msg r).1
  | none => service

/-- What the manager puts out before its tick. -/
def answers (service : Service) (msg : Option ManagerProtocol) (r : Readings) :
    List ManagerProtocol :=
  match msg with
  | some msg => (service.handle msg r).2
  | none => []

theorem turn_eq_tick_handled (msg : Option ManagerProtocol) :
    service.turn (msg, r) = ((handled service msg r).tick r).1 := by
  cases msg <;> rfl

theorem handled_me (msg : Option ManagerProtocol) : (handled service msg r).me = service.me := by
  cases msg with
  | none => rfl
  | some msg => exact handle_me

/-- A message that is no cluster state leaves the mapping. -/
theorem mapping_handled {msg : Option ManagerProtocol} (h : msg.any informs = false) :
    (handled service msg r).state.partitions.mapping = service.state.partitions.mapping := by
  cases msg with
  | none => rfl
  | some msg =>
    rw [handled]
    rcases handle_table service msg r with heq | ⟨id, w, p, rfl, heq⟩ | ⟨rcpt, st, rfl, -, -⟩
    · rw [heq]
    · rw [heq, mapping_removeOldReplica]
    · cases h

/-- A cluster state replaces the table where it is taken over. -/
theorem partitions_handle_clusterState (n : NodeId) (state : ClusterState) :
    (service.handle (.clusterState n state) r).1.state.partitions =
      if accepts service.state state.epoch state.leaderId then state.partitions
      else service.state.partitions := by
  simp only [Service.handle, handleClusterState]
  split <;> rfl

/-- The handler of a cluster state dials managers and puts out nothing
else. -/
theorem updates_handle_clusterState (n : NodeId) (state : ClusterState) :
    updates (service.handle (.clusterState n state) r).2 = [] := by
  have hmerge : ∀ (items : List ClusterNode) (acc : Map NodeId Node × List ManagerProtocol),
      updates acc.2 = [] → updates (items.foldl mergeNode acc).2 = [] := by
    intro items
    induction items with
    | nil => exact fun acc h => h
    | cons item items ih =>
      intro acc h
      refine ih _ ?_
      unfold mergeNode
      split
      · split
        · exact h
        · exact h
      · split
        · rw [updates_append, h]
          rfl
        · exact h
  simp only [Service.handle, handleClusterState]
  split
  · exact hmerge _ _ rfl
  · rfl

theorem exists_of_update {output : List ManagerProtocol} {state : ClusterState}
    (h : state ∈ updates output) : ∃ rcpt, .clusterState rcpt state ∈ output := by
  obtain ⟨o, hin, ho⟩ := List.mem_filterMap.mp h
  cases o with
  | clusterState rcpt st =>
    obtain rfl : st = state := Option.some.inj ho
    exact ⟨rcpt, hin⟩
  | _ => cases ho

/-- **The cluster states a handler puts out carry the table the manager
holds**: they are answers to `GetClusterState`. -/
theorem partitions_of_update_handle {state : ClusterState}
    (h : state ∈ updates (service.handle msg r).2) :
    state.partitions = (service.handle msg r).1.state.partitions := by
  obtain ⟨rcpt, hsent⟩ := exists_of_update h
  have hbefore : state.partitions = service.state.partitions := by
    cases sends_of_handle hsent with
    | answers _ _ _ _ _ htable => exact htable
  rcases handle_table service msg r with heq | ⟨id, w, p, rfl, -⟩ | ⟨rcpt, st, rfl, -, -⟩
  · rw [heq, hbefore]
  · -- an acknowledgement is only passed on
    simp only [Service.handle, handleRemoveOldPartition] at hsent
    split at hsent
    · obtain ⟨other, -, hother⟩ := List.mem_map.mp hsent
      cases hother
    · cases hsent
  · rw [updates_handle_clusterState] at h
    cases h

theorem partitions_of_answer {msg : Option ManagerProtocol} {state : ClusterState}
    (h : state ∈ updates (answers service msg r)) :
    state.partitions = (handled service msg r).state.partitions := by
  cases msg with
  | none => cases h
  | some msg => exact partitions_of_update_handle h

/-- **So do those of a tick**: they are a recomputation's. -/
theorem partitions_of_update_tick {state : ClusterState} (h : state ∈ updates (service.tick r).2) :
    state.partitions = (service.tick r).1.state.partitions := by
  obtain ⟨rcpt, hsent⟩ := exists_of_update h
  cases sends_of_tick hsent with
  | tells _ _ _ _ _ _ htable => exact htable

variable {me : Me} {world : Worker.World}

/-- Nothing but a cluster state touches the table of a worker. -/
theorem partitions_act {a : Worker.Action} (h : informsWorker a = false) :
    (world.step me a).state.partitions = world.state.partitions := by
  rw [Worker.World.partitions_of_step]
  obtain ⟨-, ⟨-, hsame, -⟩ | ⟨-, -, hchanges, -⟩⟩ := Worker.World.receive_cases me world a
  · exact hsame
  · -- only a cluster state changes the table
    unfold Worker.World.ChangesTable at hchanges
    split at hchanges
    · cases h
    · exact hchanges.elim

/-- A cluster state replaces the table where it is taken over. -/
theorem partitions_informed (state : ClusterState) (env : Worker.Env) :
    (world.step me (.message (.clusterState state) env)).state.partitions =
      if Worker.accepts world.state state.epoch state.leaderId then state.partitions
      else world.state.partitions := by
  rw [Worker.World.partitions_of_step]
  simp only [Worker.World.receive, Worker.handle, Worker.handleClusterState]
  split <;> rfl

end Table

end Migration

end NoSqlStore
