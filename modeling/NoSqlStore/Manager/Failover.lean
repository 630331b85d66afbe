import NoSqlStore.Manager.Clients
/-!
# A manager that takes over

`worker_partitions` recomputes the table when the workers are not those of
the last recomputation. Which those are is a memo of the manager's own: a
cluster state carries the table without it. A manager that takes over from
another leader, with the same workers and every migration finished, leaves
the table alone exactly if it has last recomputed for these workers itself
(`failover_keeps_table_iff`); otherwise every holder becomes an old
replica and the table goes out anew.
-/

namespace NoSqlStore

namespace Manager

open Runs

/-- **A finished table**: it was computed for the workers there are, under
this factor, and every migration has come to its end. -/
structure Finished (state : State) (workers : List NodeId) (replicationFactor : ℕ) : Prop where
  listed : state.workers = workers
  mapping : state.partitions.mapping = newMapping partitionsAmount replicationFactor workers
  olds : state.partitions.oldReplicas = ∅

/-- A tick that leaves the table and tells nobody of one. -/
def Quiet (s : Service) (r : Readings) : Prop :=
  (s.tick r).1.state.partitions = s.state.partitions ∧ updates (s.tick r).2 = []

/-- **Every tick under the factor is quiet**, however many there are. -/
def Undisturbed (s : Service) (replicationFactor : ℕ) : Prop :=
  ∀ rs : List Readings, (∀ r ∈ rs, r.replicationFactor = replicationFactor) →
    Along (fun s r => (s.tick r).1) Quiet s rs

variable {s : Service} {r : Readings}

theorem calculated_heartbeats (now random : ℕ) (h : Calculated s.state) :
    Calculated (heartbeats s.state s.me now random).1 := by
  rw [Calculated, heartbeats_calculated, ← h]
  ext id
  rw [List.mem_toFinset, List.mem_toFinset, workers_heartbeats]

/-- A manager whose memo is its worker set has quiet ticks only. -/
theorem quiet_of_calculated (h : Calculated s.state) :
    Quiet s r ∧ Calculated (s.tick r).1.state := by
  have hbeat := calculated_heartbeats r.heartbeatNow r.heartbeatRandom h
  have htable : workerPartitions (heartbeats s.state s.me r.heartbeatNow r.heartbeatRandom).1 s.me
      r.replicationFactor = ((heartbeats s.state s.me r.heartbeatNow r.heartbeatRandom).1, []) :=
    workerPartitions_of_calculated r.replicationFactor hbeat
  refine ⟨⟨?_, ?_⟩, ?_⟩
  · simp only [Service.tick]
    rw [htable, heartbeats_partitions]
  · rw [updates_tick, htable]
    rfl
  · simp only [Service.tick]
    rw [htable]
    exact hbeat

/-- **A leader with another memo makes old replicas of the holders.** -/
theorem olds_of_not_calculated {workers : List NodeId} {rf : ℕ} (hworkers : workers ≠ [])
    (hrf : 1 ≤ rf) (hlead : s.state.electedLeaderId = some s.me.id)
    (hfinished : Finished s.state workers rf) (hstale : ¬ Calculated s.state) :
    ∃ n, n ∈ (s.tick r).1.state.partitions.olds ⟨0⟩ := by
  have hlead' := heartbeats_leader_of_me r.heartbeatNow r.heartbeatRandom hlead
  have hsame := @workers_heartbeats s.state s.me r.heartbeatNow r.heartbeatRandom
  have hpart := @heartbeats_partitions s.state s.me r.heartbeatNow r.heartbeatRandom
  have hmemo := @heartbeats_calculated s.state s.me r.heartbeatNow r.heartbeatRandom
  simp only [Service.tick]
  generalize (heartbeats s.state s.me r.heartbeatNow r.heartbeatRandom).1 = beat at *
  have hstale' : ¬ Calculated beat := by
    intro hcalc
    refine hstale ?_
    rw [Calculated, ← hmemo, ← hcalc]
    ext id
    rw [List.mem_toFinset, List.mem_toFinset, hsame]
  obtain ⟨e, he, hin⟩ := exists_newMapping hworkers hrf (p := ⟨0⟩) partitionsAmount_pos
  have hmaster : e.master ∈ beat.workers := by
    rw [hsame, hfinished.listed]
    exact hin _ (by simp)
  have hne : beat.workers ≠ [] := List.ne_nil_of_mem hmaster
  obtain ⟨state', rfl, hout⟩ := workerPartitions_of_stale r.replicationFactor hlead' hne hstale'
  refine ⟨e.master, ?_⟩
  rw [hout]
  dsimp only
  rw [olds_recompute, mem_olds_copy, hpart]
  refine ⟨Or.inr (Partitions.mem_holders.mpr ⟨e, ?_, by simp⟩), hmaster⟩
  rw [hfinished.mapping]
  exact he

theorem not_undisturbed {workers : List NodeId} {rf : ℕ} (hworkers : workers ≠ [])
    (hrf : 1 ≤ rf) (hlead : s.state.electedLeaderId = some s.me.id)
    (hfinished : Finished s.state workers rf) (hstale : ¬ Calculated s.state) :
    ¬ Undisturbed s rf := by
  intro hquiet
  have hfirst := (hquiet [⟨0, 0, 0, 0, 0, rf⟩] (by simp)).1.1
  obtain ⟨n, hn⟩ := olds_of_not_calculated (r := ⟨0, 0, 0, 0, 0, rf⟩) hworkers hrf hlead hfinished
    hstale
  rw [hfirst, Partitions.olds, hfinished.olds] at hn
  simp at hn

/-- **A failover leaves the table alone exactly if the new leader has last
recomputed for the workers there are**: what its memo says, before it is
elected. -/
theorem failover_keeps_table_iff (f : Service) (msg : ManagerProtocol) (r : Readings)
    (workers : List NodeId) (replicationFactor : ℕ) (hworkers : workers ≠ [])
    (hrf : 1 ≤ replicationFactor)
    (helected : (f.handle msg r).1.state.electedLeaderId = some f.me.id)
    (hfinished : Finished (f.handle msg r).1.state workers replicationFactor) :
    Undisturbed (f.handle msg r).1 replicationFactor ↔
      f.state.workersWithCalculatedPartitions = workers.toFinset := by
  have hmemo : Calculated (f.handle msg r).1.state ↔
      f.state.workersWithCalculatedPartitions = workers.toFinset := by
    rw [Calculated, handle_calculated, hfinished.listed]
    exact eq_comm
  have hlead : (f.handle msg r).1.state.electedLeaderId = some (f.handle msg r).1.me.id := by
    rw [handle_me]
    exact helected
  rw [← hmemo]
  generalize (f.handle msg r).1 = s at hlead hfinished
  constructor
  · intro hquiet
    by_contra hstale
    exact not_undisturbed hworkers hrf hlead hfinished hstale hquiet
  · intro hcalc rs _
    exact along_of_keeps (I := fun s => Calculated s.state)
      (fun s r h => (quiet_of_calculated h).2) (fun s r h => (quiet_of_calculated h).1) hcalc rs

/-! ## A first-time leader -/

/-- A manager that has just connected to manager 9 and worker 3. -/
def newcomer : Service :=
  ⟨⟨⟨8⟩, "f", 8⟩,
    State.new ((((∅ : Map NodeId Node).insert ⟨8⟩ ⟨"f", 8, 0, .manager⟩).insert ⟨9⟩
      ⟨"m", 9, 0, .manager⟩).insert ⟨3⟩ ⟨"c", 3, 0, .worker⟩) none, ∅⟩

/-- What manager 9 answers: the table of worker 3, with no migration left. -/
def answerOfNine : ClusterState := ⟨1, ⟨9⟩, [], recompute default 1 [⟨3⟩]⟩

def atThousand : Readings := ⟨1000, 1000, 500, 1000, 500, 1⟩

/-- The newcomer has taken the table over and then lost its leader. -/
def candidate : Service :=
  (newcomer.turn (some (.clusterState ⟨8⟩ answerOfNine), ⟨0, 0, 500, 0, 500, 1⟩)).turn
    (none, atThousand)

/-- Manager 9 votes for it. -/
def approval : ManagerProtocol := .voteResponse ⟨9⟩ ⟨8⟩ 1000

theorem candidate_table : candidate.state.partitions = recompute default 1 [⟨3⟩] := by
  have hfollows : candidate.state.electedLeaderId ≠ some ⟨8⟩ := by decide +kernel
  have hfirst : ((newcomer.turn (some (.clusterState ⟨8⟩ answerOfNine),
      ⟨0, 0, 500, 0, 500, 1⟩)).state.electedLeaderId) ≠ some ⟨8⟩ := by decide +kernel
  have hkept : candidate.state.partitions = (newcomer.turn (some (.clusterState ⟨8⟩ answerOfNine),
      ⟨0, 0, 500, 0, 500, 1⟩)).state.partitions :=
    turn_table_of_elsewhere (fun _ h => by cases h) hfollows
  have htaken : (newcomer.turn (some (.clusterState ⟨8⟩ answerOfNine),
      ⟨0, 0, 500, 0, 500, 1⟩)).state.partitions = answerOfNine.partitions :=
    tick_table_of_following
      (s := (newcomer.handle (.clusterState ⟨8⟩ answerOfNine) ⟨0, 0, 500, 0, 500, 1⟩).1) hfirst
  exact hkept.trans htaken

theorem finished_recompute {state : State} (hlisted : state.workers = [⟨3⟩])
    (htable : state.partitions = recompute default 1 [⟨3⟩]) : Finished state [⟨3⟩] 1 where
  listed := hlisted
  mapping := by rw [htable, mapping_recompute]
  olds := by
    rw [htable, recompute, oldReplicas_calculate]
    decide +kernel

theorem finished_candidate : Finished (candidate.handle approval atThousand).1.state [⟨3⟩] 1 :=
  finished_recompute (by decide +kernel) candidate_table

/-- **A manager that leads for the first time starts a migration**: the
table it took over is finished and names the workers there are, and its
first tick makes worker 3 an old replica of its own partition. -/
theorem first_leader_starts_migration :
    (candidate.handle approval atThousand).1.state.electedLeaderId = some candidate.me.id ∧
    Finished (candidate.handle approval atThousand).1.state [⟨3⟩] 1 ∧
    ¬ Undisturbed (candidate.handle approval atThousand).1 1 ∧
    ∃ n, n ∈ (candidate.turn (some approval, atThousand)).state.partitions.olds ⟨0⟩ := by
  have hlead : (candidate.handle approval atThousand).1.state.electedLeaderId =
      some (candidate.handle approval atThousand).1.me.id := by decide +kernel
  have hstale : ¬ Calculated (candidate.handle approval atThousand).1.state := by
    unfold Calculated
    decide +kernel
  exact ⟨hlead, finished_candidate,
    not_undisturbed (by decide) le_rfl hlead finished_candidate hstale,
    olds_of_not_calculated (by decide) le_rfl hlead finished_candidate hstale⟩

/-- The same manager, had it recomputed for worker 3 before. -/
def veteran : Service :=
  { candidate with
    state := { candidate.state with workersWithCalculatedPartitions := {⟨3⟩} } }

theorem failover_keeps_table_veteran :
    Undisturbed (veteran.handle approval atThousand).1 1 :=
  (failover_keeps_table_iff veteran approval atThousand [⟨3⟩] 1 (by decide) le_rfl
    (by decide +kernel) (finished_recompute (by decide +kernel) candidate_table)).mpr
    (by decide +kernel)

end Manager

end NoSqlStore
