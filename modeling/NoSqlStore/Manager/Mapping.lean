import NoSqlStore.Manager.Effects
import NoSqlStore.Manager.Table
import NoSqlStore.Common.Runs
/-!
# The leader's mapping names live workers

A tick recomputes the mapping only when the worker set differs from the
one the last recomputation was made for. That memo describes the mapping
as long as nothing else replaces the mapping, and a cluster state does:
it brings its own table and leaves the memo as it is. `Memoised` is the
invariant the memo stands for, and `SnapshotFits` the condition on the
accepted snapshots under which it survives.
-/

namespace NoSqlStore

namespace Manager

open Runs

variable {s : Service} {state : State} {W : Finset NodeId}

/-- **A complete mapping over the workers `W`**: every partition has an
entry, and the entries name workers of `W` only. -/
structure NamesWorkers (mapping : Map PartitionId Partition) (W : Finset NodeId) : Prop where
  total : ∀ p : PartitionId, p.id < partitionsAmount → p ∈ mapping
  named : ∀ (p : PartitionId) (e : Partition), mapping[p]? = some e → e.holders ⊆ W

/-- The memo describes the mapping. -/
def Memoised (state : State) : Prop :=
  state.workersWithCalculatedPartitions ≠ ∅ →
    NamesWorkers state.partitions.mapping state.workersWithCalculatedPartitions

/-- A snapshot the manager accepts while it remembers a recomputation
brings a complete mapping over the workers remembered. -/
def SnapshotFits (s : Service) (input : Option ManagerProtocol × Readings) : Prop :=
  ∀ recipientId st, input.1 = some (.clusterState recipientId st) →
    accepts s.state st.epoch st.leaderId = true →
    s.state.workersWithCalculatedPartitions ≠ ∅ →
    NamesWorkers st.partitions.mapping s.state.workersWithCalculatedPartitions

/-- The new mapping is complete over the list it is computed from. -/
theorem namesWorkers_newMapping {vec : List NodeId} (hvec : vec ≠ []) {rf : ℕ} (hrf : 1 ≤ rf) :
    NamesWorkers (newMapping partitionsAmount rf vec) vec.toFinset := by
  constructor
  · intro p hp
    obtain ⟨e, he, -⟩ := exists_newMapping hvec hrf hp
    rw [Std.ExtTreeMap.mem_iff_isSome_getElem?, he]
    rfl
  · intro p e he n hn
    have hp : p.id < partitionsAmount := by
      by_contra hp
      rw [newMapping_eq_none hp] at he
      cases he
    obtain ⟨e', he', hmem⟩ := exists_newMapping hvec hrf hp
    rw [he] at he'
    cases he'
    exact List.mem_toFinset.mpr (hmem n hn)

/-- Handling a message keeps the memo true: striking an old replica off
leaves the mapping, and an accepted snapshot fits. -/
theorem memoised_handle {msg : ManagerProtocol} {r : Readings} (h : Memoised s.state)
    (hfit : SnapshotFits s (some msg, r)) : Memoised (s.handle msg r).1.state := by
  unfold Memoised
  rw [handle_calculated]
  rcases handle_table s msg r with ht | ⟨id, w, p, -, ht⟩ | ⟨rcpt, st, rfl, hacc, ht⟩
  · rw [ht]
    exact h
  · rw [ht, mapping_removeOldReplica]
    exact h
  · rw [ht]
    exact hfit rcpt st rfl hacc

/-- The tick keeps the memo true, recomputing or not. -/
theorem memoised_workerPartitions {me : Me} {rf : ℕ} (hrf : 1 ≤ rf) (h : Memoised state) :
    Memoised (workerPartitions state me rf).1 := by
  rcases workerPartitions_cases state me rf with ⟨ht, -⟩ | ⟨-, hv, ht⟩ | ⟨-, -, ht⟩
  · rw [ht]
    exact h
  · rw [ht]
    intro _
    simpa only [mapping_recompute] using namesWorkers_newMapping hv hrf
  · rw [ht]
    intro hne
    exact absurd rfl hne

theorem memoised_tick {r : Readings} (hrf : 1 ≤ r.replicationFactor) (h : Memoised s.state) :
    Memoised (s.tick r).1.state := by
  refine memoised_workerPartitions hrf ?_
  unfold Memoised
  rw [heartbeats_calculated, heartbeats_partitions]
  exact h

/-- A leader that has ticked has a memo of its worker set. -/
theorem calculated_tick {r : Readings}
    (hl : (s.tick r).1.state.electedLeaderId = some s.me.id) :
    Calculated (s.tick r).1.state := by
  simp only [Service.tick, workerPartitions_leader] at hl ⊢
  generalize (heartbeats s.state s.me r.heartbeatNow r.heartbeatRandom).1 = state at hl ⊢
  rcases workerPartitions_cases state s.me r.replicationFactor with
    ⟨ht, hc⟩ | ⟨-, -, ht⟩ | ⟨-, hv, ht⟩
  · rw [ht]
    exact hc hl
  · rw [ht]
    simp only [Calculated, State.workers]
  · rw [ht]
    simp only [Calculated, State.workers] at hv ⊢
    rw [hv]
    rfl

/-- The invariant of a run: the memo is true, and a leader's memo is its
worker set. -/
structure Tracked (s : Service) : Prop where
  memoised : Memoised s.state
  calculated : s.state.electedLeaderId = some s.me.id → Calculated s.state

theorem tracked_init (me : Me) (managerHostPort : Option (String × ℕ)) (now : ℕ) :
    Tracked (Service.init me managerHostPort now).1 := by
  cases managerHostPort <;>
    exact ⟨fun h => absurd rfl h, fun h => by cases h⟩

/-- **One turn keeps the invariant.** -/
theorem tracked_turn {input : Option ManagerProtocol × Readings} (h : Tracked s)
    (hrf : 1 ≤ input.2.replicationFactor) (hfit : SnapshotFits s input) :
    Tracked (s.turn input) := by
  obtain ⟨msg?, r⟩ := input
  cases msg? with
  | none => exact ⟨memoised_tick hrf h.memoised, calculated_tick⟩
  | some msg => exact ⟨memoised_tick hrf (memoised_handle h.memoised hfit), calculated_tick⟩

/-- **The leader's mapping names live workers.** In every run of a manager
with a replication factor of at least one whose accepted snapshots fit the
memo, a manager that leads and lists a worker has an entry for every
partition, and every master and replica is a worker it lists. -/
theorem leader_mapping_names_live_workers (me : Me) (managerHostPort : Option (String × ℕ))
    (now : ℕ) (inputs : List (Option ManagerProtocol × Readings))
    (hok : Along Service.turn (fun s i => 1 ≤ i.2.replicationFactor ∧ SnapshotFits s i)
      (Service.init me managerHostPort now).1 inputs) :
    let state := (run Service.turn (Service.init me managerHostPort now).1 inputs).state
    state.electedLeaderId = some me.id → state.workers ≠ [] →
      NamesWorkers state.partitions.mapping state.workers.toFinset := by
  intro state hl hw
  have hme : (run Service.turn (Service.init me managerHostPort now).1 inputs).me = me := by
    refine run_inv (I := fun s => s.me = me) (fun s i hs _ => ?_) ?_ hok
    · rw [turn_me, hs]
    · cases managerHostPort <;> rfl
  have hinv := run_inv (I := Tracked) (fun s i hs hi => tracked_turn hs hi.1 hi.2)
    (tracked_init me managerHostPort now) hok
  have hcalc : Calculated state := hinv.calculated (by rw [hme]; exact hl)
  rw [hcalc]
  refine hinv.memoised ?_
  rw [← hcalc]
  simpa using hw

/-! ### A snapshot that does not fit -/

/-- Manager 1 starts, is elected by manager 2 and gets worker 3. -/
def electedWithWorker : List (Option ManagerProtocol × Readings) :=
  [(some (.newConnection (some ⟨2⟩) "b" 2 true), ⟨10, 10, 500, 10, 500, 1⟩),
   (some (.voteResponse ⟨2⟩ ⟨1⟩ 10), ⟨20, 20, 500, 20, 500, 1⟩),
   (some (.newConnection (some ⟨3⟩) "c" 3 false), ⟨30, 30, 500, 30, 500, 1⟩)]

theorem leader_mapping_names_live_workers_elected :
    let state := (run Service.turn (Service.init ⟨⟨1⟩, "a", 1⟩ none 0).1 electedWithWorker).state
    state.electedLeaderId = some ⟨1⟩ ∧ state.workers = [⟨3⟩] ∧
      NamesWorkers state.partitions.mapping state.workers.toFinset := by
  have hl : (run Service.turn (Service.init ⟨⟨1⟩, "a", 1⟩ none 0).1
      electedWithWorker).state.electedLeaderId = some ⟨1⟩ := by decide
  have hw : (run Service.turn (Service.init ⟨⟨1⟩, "a", 1⟩ none 0).1
      electedWithWorker).state.workers = [⟨3⟩] := by decide
  refine ⟨hl, hw, leader_mapping_names_live_workers ⟨⟨1⟩, "a", 1⟩ none 0 electedWithWorker ?_ hl
    (by rw [hw]; simp)⟩
  simp [electedWithWorker, SnapshotFits]

/-- Manager 2 knows the leader and the worker but no table yet, and
answers a request for its cluster state. -/
def tablelessSnapshot : Option ManagerProtocol × Readings :=
  (some (.clusterState ⟨1⟩ ⟨1, ⟨1⟩,
    [⟨⟨1⟩, "a", 1, 30, .manager⟩, ⟨⟨2⟩, "b", 2, 30, .manager⟩, ⟨⟨3⟩, "c", 3, 30, .worker⟩],
    default⟩), ⟨40, 40, 500, 40, 500, 1⟩)

/-- **A follower's snapshot leaves a leader with a worker and an empty
mapping**: the memo still lists the worker, so nothing is recomputed. -/
theorem snapshot_leaves_mapping_empty :
    let state := (run Service.turn (Service.init ⟨⟨1⟩, "a", 1⟩ none 0).1
      (electedWithWorker ++ [tablelessSnapshot])).state
    state.electedLeaderId = some ⟨1⟩ ∧ state.workers = [⟨3⟩] ∧
      state.partitions.mapping = ∅ ∧
      ¬ NamesWorkers state.partitions.mapping state.workers.toFinset := by
  have hm : (run Service.turn (Service.init ⟨⟨1⟩, "a", 1⟩ none 0).1
      (electedWithWorker ++ [tablelessSnapshot])).state.partitions.mapping = ∅ := by
    decide +kernel
  refine ⟨by decide +kernel, by decide +kernel, hm, fun h => ?_⟩
  have h0 := h.total ⟨0⟩ partitionsAmount_pos
  rw [hm] at h0
  simp at h0

end Manager

end NoSqlStore
