import NoSqlStore.Manager.Epoch
/-!
# What a recomputation expects

`worker_partitions` and what it calls, once more, with every `expect`,
every subtraction of a `usize` and every remainder as a step that may end
the service loop. None of them ever does: a manager that has a leader has
an epoch (`leaderHasEpoch_run`), the index of a replica is one of the
worker list, and replica 0 has put the entry there that the others are
added to. So the service that may panic takes the steps of the one that
may not (`worker_partitions_never_panics`).
-/

namespace NoSqlStore

namespace Manager

open Runs

/-- What ends the service loop. -/
inductive Panic
  | expect (message : String)
  | underflow
  | remainderByZero
  /-- A loop that goes on for ever. -/
  | diverges
  deriving DecidableEq

def expect {α : Type} (message : String) : Option α → Except Panic α
  | some a => .ok a
  | none => .error (.expect message)

/-- A subtraction of `usize`. -/
def checkedSub (a b : ℕ) : Except Panic ℕ := if b ≤ a then .ok (a - b) else .error .underflow

/-- A remainder of `usize`. -/
def checkedMod (a b : ℕ) : Except Panic ℕ :=
  if b = 0 then .error .remainderByZero else .ok (a % b)

theorem checkedSub_eq {a b : ℕ} (h : b ≤ a) : checkedSub a b = .ok (a - b) := if_pos h

theorem checkedMod_eq {a b : ℕ} (h : b ≠ 0) : checkedMod a b = .ok (a % b) := if_neg h

namespace Checked

/-- The guard of the loop is that of its subtraction. -/
def wrapReplica (totalAmount replica : ℕ) : Except Panic ℕ :=
  if _h : totalAmount ≤ replica then
    if _hzero : totalAmount = 0 then .error .diverges
    else wrapReplica totalAmount (replica - totalAmount)
  else .ok replica
termination_by replica

def calcReplicaIndex (totalAmount masterPartitionIndex replica : ℕ) : Except Panic ℕ := do
  let replica ← wrapReplica totalAmount replica
  if replica > masterPartitionIndex then
    let replica ← checkedSub replica masterPartitionIndex
    checkedSub totalAmount replica
  else checkedSub masterPartitionIndex replica

/-- One round of the inner loop of `calculate_new_mapping`. -/
def addReplica (vec : List NodeId) (partition masterPartitionIndex : ℕ)
    (mapping : Map PartitionId Partition) (replica : ℕ) :
    Except Panic (Map PartitionId Partition) := do
  let index ← calcReplicaIndex vec.length masterPartitionIndex replica
  let id ← expect "guaranteed by calc_replica_index implementation" vec[index]?
  if replica = 0 then return mapping.insert ⟨partition⟩ ⟨id, ∅⟩
  else
    let entry ← expect "entry is added on replica == 0" mapping[(⟨partition⟩ : PartitionId)]?
    return mapping.insert ⟨partition⟩ { entry with replicas := insert id entry.replicas }

/-- One round of its outer loop. -/
def addPartition (replicationFactor : ℕ) (vec : List NodeId) (mapping : Map PartitionId Partition)
    (partition : ℕ) : Except Panic (Map PartitionId Partition) := do
  let masterPartitionIndex ← checkedMod partition vec.length
  (List.range replicationFactor).foldlM (addReplica vec partition masterPartitionIndex) mapping

def newMapping (partitionsAmount replicationFactor : ℕ) (vec : List NodeId) :
    Except Panic (Map PartitionId Partition) :=
  (List.range partitionsAmount).foldlM (addPartition replicationFactor vec) ∅

def calculateNewMapping (partitions : Partitions) (partitionsAmount replicationFactor : ℕ)
    (vec : List NodeId) : Except Panic Partitions := do
  let mapping ← newMapping partitionsAmount replicationFactor vec
  return { partitions with
    mapping
    newReplicas := partitions.mapping.toList.foldl
      (fun newReplicas e => newReplicas.alter e.1 (recordAdded mapping e.1 e.2))
      partitions.newReplicas }

def createNewWorkersState (state : State) : Except Panic ClusterState := do
  let epoch ← expect "present as elected leader id is also present" state.epoch
  let leaderId ← expect "existing checked above" state.electedLeaderId
  return ⟨epoch, leaderId, [], state.partitions⟩

def workerPartitions (state : State) (me : Me) (replicationFactor : ℕ) :
    Except Panic (State × List ManagerProtocol) := do
  if state.electedLeaderId = some me.id then
    let vec := state.workers
    if state.workersWithCalculatedPartitions.card ≠ vec.length ∨
        vec.toFinset ≠ state.workersWithCalculatedPartitions then
      let partitions := copyCurrentMappingToOld state.partitions vec
      if vec ≠ [] then
        let partitions ← calculateNewMapping partitions partitionsAmount replicationFactor vec
        let state := { state with partitions }
        let workersState ← createNewWorkersState state
        return ({ state with workersWithCalculatedPartitions := vec.toFinset },
          (state.otherNodes me).map fun id => .clusterState id workersState)
      else return ({ state with partitions, workersWithCalculatedPartitions := ∅ }, [])
    else return (state, [])
  else return (state, [])

def tick (s : Service) (r : Readings) : Except Panic (Service × List ManagerProtocol) := do
  let beat := heartbeats s.state s.me r.heartbeatNow r.heartbeatRandom
  let vote := startElectionIfNeeded beat.1 s.elections s.me r.electionNow r.electionRandom
  let table ← workerPartitions beat.1 s.me r.replicationFactor
  return (⟨s.me, table.1, vote.1⟩, beat.2 ++ vote.2 ++ table.2)

/-- One turn of the service loop. -/
def turn (s : Service) (input : Option ManagerProtocol × Readings) : Except Panic Service := do
  match input.1 with
  | some msg =>
    let ticked ← tick (s.handle msg input.2).1 input.2
    return ticked.1
  | none =>
    let ticked ← tick s input.2
    return ticked.1

end Checked

/-! ## The index of a replica -/

theorem wrapReplica_checked {total : ℕ} (h : 0 < total) (replica : ℕ) :
    Checked.wrapReplica total replica = .ok (wrapReplica total replica) := by
  induction replica using Nat.strong_induction_on with
  | _ replica ih =>
    rw [Checked.wrapReplica, wrapReplica]
    -- the loop that may go on for ever does so for no worker at all only
    by_cases hle : total ≤ replica
    · rw [dif_pos hle, dif_neg h.ne', dif_pos ⟨hle, h⟩, ih _ (by omega)]
    · rw [dif_neg hle, dif_neg fun hh => hle hh.1]

/-- **No subtraction of the index underflows.** -/
theorem calcReplicaIndex_checked {total master : ℕ} (h : master < total) (replica : ℕ) :
    Checked.calcReplicaIndex total master replica =
      .ok (calcReplicaIndex total master replica) := by
  have hpos : 0 < total := by omega
  have hlt : wrapReplica total replica < total := by
    rw [wrapReplica_eq_mod hpos]
    exact Nat.mod_lt _ hpos
  rw [Checked.calcReplicaIndex, wrapReplica_checked hpos, calcReplicaIndex]
  simp only [Except.bind, bind]
  -- a replica beyond the master counts back from the end of the list
  split
  · rw [checkedSub_eq (by omega)]
    exact checkedSub_eq (by omega)
  · exact checkedSub_eq (by omega)

/-! ## The mapping -/

variable {vec : List NodeId} {mapping : Map PartitionId Partition} {partition replica : ℕ}

/-- One round, where it goes well: the entry is there, or it is replica 0
that makes it. -/
theorem addReplica_checked (hvec : vec ≠ [])
    (hentry : replica ≠ 0 → ∃ e, mapping[(⟨partition⟩ : PartitionId)]? = some e) :
    Checked.addReplica vec partition (partition % vec.length) mapping replica =
      .ok (mapping.alter ⟨partition⟩ (addReplica vec partition replica)) := by
  have hpos : 0 < vec.length := List.length_pos_iff.mpr hvec
  have hlt := Nat.mod_lt partition hpos
  obtain ⟨id, hreplica, -⟩ := exists_replicaOf hvec partition replica
  have hid : vec[calcReplicaIndex vec.length (partition % vec.length) replica]? = some id :=
    hreplica
  rw [Checked.addReplica, calcReplicaIndex_checked hlt]
  simp only [Except.bind, bind, hid, expect]
  by_cases hzero : replica = 0
  · rw [if_pos hzero]
    refine congrArg Except.ok (Map.insert_eq_alter ?_)
    rw [addReplica, hreplica]
    exact if_pos hzero
  · obtain ⟨e, he⟩ := hentry hzero
    rw [if_neg hzero, he]
    refine congrArg Except.ok (Map.insert_eq_alter ?_)
    rw [addReplica, hreplica, he]
    exact if_neg hzero

/-- The entry is there after a round. -/
theorem mem_addReplica (hvec : vec ≠ [])
    (hentry : replica ≠ 0 → ∃ e, mapping[(⟨partition⟩ : PartitionId)]? = some e) :
    ∃ e, (mapping.alter ⟨partition⟩ (addReplica vec partition replica))[
      (⟨partition⟩ : PartitionId)]? = some e := by
  obtain ⟨id, hid, -⟩ := exists_replicaOf hvec partition replica
  rw [Std.ExtTreeMap.getElem?_alter_self, addReplica, hid]
  dsimp only
  split
  · exact ⟨_, rfl⟩
  · rename_i hzero
    obtain ⟨e, he⟩ := hentry hzero
    exact ⟨{ e with replicas := insert id e.replicas }, by rw [he]; rfl⟩

/-- **The inner loop**: after a first round the entry is there. -/
theorem foldlM_addReplica (hvec : vec ≠ []) (replicationFactor : ℕ) :
    (List.range replicationFactor).foldlM
        (Checked.addReplica vec partition (partition % vec.length)) mapping =
      .ok ((List.range replicationFactor).foldl
        (fun m replica => m.alter ⟨partition⟩ (addReplica vec partition replica)) mapping) ∧
    (replicationFactor ≠ 0 → ∃ e, ((List.range replicationFactor).foldl
      (fun m replica => m.alter ⟨partition⟩ (addReplica vec partition replica)) mapping)[
        (⟨partition⟩ : PartitionId)]? = some e) := by
  induction replicationFactor with
  | zero => exact ⟨rfl, fun h => absurd rfl h⟩
  | succ n ih =>
    obtain ⟨hloop, hentry⟩ := ih
    -- by the hypothesis the entry is there unless the last round is the first
    rw [List.range_succ, List.foldlM_append, hloop, List.foldl_append]
    refine ⟨?_, fun _ => mem_addReplica hvec hentry⟩
    have hlast := addReplica_checked hvec hentry
    simp only [Except.bind, bind, List.foldlM_cons, List.foldlM_nil, hlast]
    rfl

theorem newMapping_checked (hvec : vec ≠ []) (amount replicationFactor : ℕ) :
    Checked.newMapping amount replicationFactor vec =
      .ok (newMapping amount replicationFactor vec) := by
  have hround : ∀ mapping partition, Checked.addPartition replicationFactor vec mapping partition =
      .ok ((List.range replicationFactor).foldl
        (fun m replica => m.alter ⟨partition⟩ (addReplica vec partition replica)) mapping) := by
    intro mapping partition
    rw [Checked.addPartition, checkedMod_eq (List.length_pos_iff.mpr hvec).ne']
    exact (foldlM_addReplica hvec replicationFactor).1
  exact foldlM_eq_run (I := fun _ => True) (fun mapping partition _ => hround mapping partition)
    (fun _ _ _ => trivial) trivial _

/-! ## The service -/

/-- **A leader comes with an epoch.** -/
def LeaderHasEpoch (state : State) : Prop :=
  state.electedLeaderId = none ∨ ∃ epoch, state.epoch = some epoch

variable {state : State} {s : Service} {me : Me}

theorem workerPartitions_checked (h : LeaderHasEpoch state) (me : Me) (replicationFactor : ℕ) :
    Checked.workerPartitions state me replicationFactor =
      .ok (workerPartitions state me replicationFactor) := by
  unfold Checked.workerPartitions workerPartitions
  split
  · rename_i hleader
    -- this manager is the leader, so its epoch is there for the message
    obtain ⟨epoch, hepoch⟩ := h.resolve_left (by rw [hleader]; exact nofun)
    dsimp only
    split
    · split
      · rename_i hvec
        have hmapping := newMapping_checked hvec partitionsAmount replicationFactor
        simp only [Checked.calculateNewMapping, Checked.createNewWorkersState, hmapping, hepoch,
          hleader, expect, Except.bind, bind, createNewWorkersState]
        rfl
      · rfl
    · rfl
  · rfl

theorem leaderHasEpoch_handle (h : LeaderHasEpoch s.state) (msg : ManagerProtocol) (r : Readings) :
    LeaderHasEpoch (s.handle msg r).1.state := by
  rcases handle_decision s msg r with ⟨hepoch, hleader⟩ | ⟨e, l, -, -, hepoch, -⟩ |
    ⟨id, ts, e, approvers, -, -, -, hepoch, -⟩
  · rw [LeaderHasEpoch, hepoch]
    rcases hleader with hsame | hnone
    · rw [hsame]
      exact h
    · exact Or.inl hnone
  · exact Or.inr ⟨e, hepoch⟩
  · exact Or.inr ⟨e, hepoch⟩

theorem leaderHasEpoch_heartbeats (h : LeaderHasEpoch state) (now random : ℕ) :
    LeaderHasEpoch (heartbeats state me now random).1 := by
  rw [LeaderHasEpoch, heartbeats_epoch]
  have hleader : (heartbeats state me now random).1.electedLeaderId = state.electedLeaderId ∨
      (heartbeats state me now random).1.electedLeaderId = none := heartbeats_leader now random
  rcases hleader with hsame | hnone
  · rw [hsame]
    exact h
  · exact Or.inl hnone

theorem leaderHasEpoch_tick (h : LeaderHasEpoch s.state) (r : Readings) :
    LeaderHasEpoch (s.tick r).1.state := by
  rw [LeaderHasEpoch, tick_epoch]
  rcases tick_leader (s := s) r with hsame | hnone
  · rw [hsame]
    exact h
  · exact Or.inl hnone

theorem leaderHasEpoch_turn (h : LeaderHasEpoch s.state)
    (input : Option ManagerProtocol × Readings) : LeaderHasEpoch (s.turn input).state := by
  obtain ⟨_ | msg, r⟩ := input
  · exact leaderHasEpoch_tick h r
  · exact leaderHasEpoch_tick (leaderHasEpoch_handle h msg r) r

theorem tick_checked (h : LeaderHasEpoch s.state) (r : Readings) :
    Checked.tick s r = .ok (s.tick r) := by
  rw [Checked.tick, workerPartitions_checked (leaderHasEpoch_heartbeats h _ _)]
  rfl

theorem turn_checked (h : LeaderHasEpoch s.state) (input : Option ManagerProtocol × Readings) :
    Checked.turn s input = .ok (s.turn input) := by
  obtain ⟨_ | msg, r⟩ := input
  · rw [Checked.turn, tick_checked h]
    rfl
  · have htick := tick_checked (leaderHasEpoch_handle h msg r) r
    simp only [Checked.turn, htick]
    rfl

theorem leaderHasEpoch_init (me : Me) (managerHostPort : Option (String × ℕ)) (now : ℕ) :
    LeaderHasEpoch (Service.init me managerHostPort now).1.state := by
  cases managerHostPort <;> exact Or.inl rfl

/-- **A recomputation never panics.** In every run the service with its
panics takes the steps of the one without: every manager reached has an
epoch if it has a leader, its partitions can be recomputed with any
replication factor, and the index of a replica is one of the worker
list. -/
theorem worker_partitions_never_panics (me : Me) (managerHostPort : Option (String × ℕ))
    (now : ℕ) (inputs : List (Option ManagerProtocol × Readings)) :
    let s := run Service.turn (Service.init me managerHostPort now).1 inputs
    inputs.foldlM Checked.turn (Service.init me managerHostPort now).1 = .ok s ∧
    (s.state.electedLeaderId = none ∨ ∃ epoch, s.state.epoch = some epoch) ∧
    (∀ replicationFactor, Checked.workerPartitions s.state s.me replicationFactor =
      .ok (workerPartitions s.state s.me replicationFactor)) ∧
    ∀ (total : ℕ) (master : Fin total) (replica : ℕ), ∃ index : Fin total,
      Checked.calcReplicaIndex total master replica = .ok index := by
  have hinit := leaderHasEpoch_init me managerHostPort now
  have hreached : LeaderHasEpoch
      (run Service.turn (Service.init me managerHostPort now).1 inputs).state :=
    run_keeps (I := fun s : Service => LeaderHasEpoch s.state)
      (fun s input h => leaderHasEpoch_turn h input) hinit inputs
  refine ⟨?_, hreached, fun replicationFactor => workerPartitions_checked hreached _ _,
    fun total master replica => ?_⟩
  · exact foldlM_eq_run (I := fun s : Service => LeaderHasEpoch s.state)
      (fun s input h => turn_checked h input) (fun s input h => leaderHasEpoch_turn h input)
      hinit inputs
  · exact ⟨⟨_, calcReplicaIndex_lt master.isLt replica⟩,
      calcReplicaIndex_checked master.isLt replica⟩

end Manager

end NoSqlStore
