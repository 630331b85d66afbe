import NoSqlStore.Manager.Effects
import NoSqlStore.Common.Runs
import NoSqlStore.Model.Client
/-!
# Reads reach every custodian

A worker keeps a partition's records from the moment the mapping names it
until it has handed them over and said so. While one manager leads, the
table keeps every such worker either among the holders or among the old
replicas, whatever the joins, disconnections and acknowledgements in
between; and a client reads from both. The two step lemmas say what one
turn does to a holder and to an old replica; `holder_or_old` follows the
worker along a run, from the last tick that named it.
-/

namespace NoSqlStore

namespace Manager

open Runs

variable {s s₀ : Service} {p : PartitionId} {w : NodeId}
  {input : Option ManagerProtocol × Readings} {inputs : List (Option ManagerProtocol × Readings)}

/-- The turns of a manager that goes on leading and receives no cluster
state. The replication factor is at least one, as the command line
demands. -/
structure StaysLeader (s : Service) (input : Option ManagerProtocol × Readings) : Prop where
  factor : 1 ≤ input.2.replicationFactor
  noSnapshot : ∀ recipientId st, input.1 ≠ some (.clusterState recipientId st)
  leader : (s.turn input).state.electedLeaderId = some s.me.id

/-- The mapping names `w` for `p`. -/
def Named (s : Service) (p : PartitionId) (w : NodeId) : Prop := w ∈ s.state.partitions.holders p

/-- `w` is an old replica of `p`. -/
def Old (s : Service) (p : PartitionId) (w : NodeId) : Prop := w ∈ s.state.partitions.olds p

/-- `w` is a connected worker. -/
def Connected (s : Service) (w : NodeId) : Prop := w ∈ s.state.workers

instance : Decidable (Named s p w) :=
  inferInstanceAs (Decidable (w ∈ s.state.partitions.holders p))

instance : Decidable (Connected s w) := inferInstanceAs (Decidable (w ∈ s.state.workers))

/-- **A custodian of `p` at the end of a run**: connected ever since a
tick that named it, and, if no longer named, not struck off since the
recomputation after the last tick that did. -/
structure Custodian (s₀ : Service) (inputs : List (Option ManagerProtocol × Readings))
    (p : PartitionId) (w : NodeId) : Prop where
  connected : ∃ i, 0 < i ∧ i ≤ inputs.length ∧ Named (upTo Service.turn s₀ inputs i) p w ∧
    ∀ j, i ≤ j → j ≤ inputs.length → Connected (upTo Service.turn s₀ inputs j) w
  kept : ∀ d, d < inputs.length → Named (upTo Service.turn s₀ inputs d) p w →
    (∀ k, d < k → k ≤ inputs.length → ¬ Named (upTo Service.turn s₀ inputs k) p w) →
    ∀ j input, d < j → inputs[j]? = some input →
      ∀ id, input.1 ≠ some (.removePartitionFromReplica id w p)

/-! ## One turn -/

/-- The table between the message of a turn and its tick. -/
def betweenTable (s : Service) (input : Option ManagerProtocol × Readings) : Partitions :=
  match input.1 with
  | some (.removePartitionFromReplica _ w p) => removeOldReplica s.state.partitions w p
  | _ => s.state.partitions

@[simp] theorem mapping_betweenTable :
    (betweenTable s input).mapping = s.state.partitions.mapping := by
  unfold betweenTable
  split
  · exact mapping_removeOldReplica
  · rfl

@[simp] theorem holders_betweenTable :
    (betweenTable s input).holders p = s.state.partitions.holders p := by
  rw [Partitions.holders, mapping_betweenTable, Partitions.holders]

/-- Only its own acknowledgement strikes an old replica off. -/
theorem old_betweenTable (h : Old s p w)
    (hne : ∀ id, input.1 ≠ some (.removePartitionFromReplica id w p)) :
    w ∈ (betweenTable s input).olds p := by
  unfold betweenTable
  split
  · rename_i id w' p' heq
    rw [mem_olds_removeOldReplica]
    refine ⟨h, ?_⟩
    rintro ⟨rfl, rfl⟩
    exact hne id heq
  · exact h

/-- The tick leaves a table as it is, or recomputes it over the workers
it lists; with none listed it strikes off every old replica. -/
theorem tick_table (s : Service) (r : Readings) :
    (s.tick r).1.state.partitions = s.state.partitions ∨
      ((s.tick r).1.state.workers ≠ [] ∧ (s.tick r).1.state.partitions =
        recompute s.state.partitions r.replicationFactor (s.tick r).1.state.workers) ∨
      ((s.tick r).1.state.workers = [] ∧
        (s.tick r).1.state.partitions = copyCurrentMappingToOld s.state.partitions []) := by
  have hp : (heartbeats s.state s.me r.heartbeatNow r.heartbeatRandom).1.partitions =
      s.state.partitions := heartbeats_partitions _ _
  simp only [Service.tick]
  generalize (heartbeats s.state s.me r.heartbeatNow r.heartbeatRandom).1 = beat at hp ⊢
  rw [← hp, workerPartitions_workers]
  rcases workerPartitions_cases beat s.me r.replicationFactor with
    ⟨ht, -⟩ | ⟨-, hv, ht⟩ | ⟨-, hv, ht⟩
  · exact Or.inl (by rw [ht])
  · exact Or.inr (Or.inl ⟨hv, by rw [ht]⟩)
  · exact Or.inr (Or.inr ⟨hv, by rw [ht]⟩)

/-- **What a turn of a leader does to the table**: it strikes an old
replica off if told to, and then recomputes or not. -/
theorem turn_table (hlead : StaysLeader s input) :
    (s.turn input).state.partitions = betweenTable s input ∨
      ((s.turn input).state.workers ≠ [] ∧ (s.turn input).state.partitions =
        recompute (betweenTable s input) input.2.replicationFactor
          (s.turn input).state.workers) ∨
      ((s.turn input).state.workers = [] ∧
        (s.turn input).state.partitions = copyCurrentMappingToOld (betweenTable s input) []) := by
  obtain ⟨msg?, r⟩ := input
  cases msg? with
  | none => exact tick_table s r
  | some msg =>
    have hbetween : (s.handle msg r).1.state.partitions = betweenTable s (some msg, r) := by
      rcases handle_table s msg r with h | ⟨id, w, p, rfl, h⟩ | ⟨rcpt, st, rfl, -, -⟩
      · cases msg with
        | removePartitionFromReplica id w p => rfl
        | _ => exact h
      · exact h
      · exact absurd rfl (hlead.noSnapshot rcpt st)
    rw [← hbetween]
    exact tick_table _ r

/-- **A holder that a turn drops becomes an old replica**, if it is still
connected. -/
theorem old_of_dropped (hlead : StaysLeader s input) (hn : Named s p w)
    (hc : Connected (s.turn input) w) (hdrop : ¬ Named (s.turn input) p w) :
    Old (s.turn input) p w := by
  unfold Named at hn hdrop
  rcases turn_table hlead with h | ⟨-, h⟩ | ⟨h, -⟩
  · rw [h, holders_betweenTable] at hdrop
    exact absurd hn hdrop
  · rw [Old, h, olds_recompute, mem_olds_copy, holders_betweenTable]
    exact ⟨Or.inr hn, hc⟩
  · rw [Connected, h] at hc
    cases hc

/-- **An old replica stays one** until it is struck off or disconnects. -/
theorem old_of_old (hlead : StaysLeader s input) (ho : Old s p w)
    (hc : Connected (s.turn input) w)
    (hne : ∀ id, input.1 ≠ some (.removePartitionFromReplica id w p)) :
    Old (s.turn input) p w := by
  have hb := old_betweenTable ho hne
  rcases turn_table hlead with h | ⟨-, h⟩ | ⟨h, -⟩
  · rw [Old, h]
    exact hb
  · rw [Old, h, olds_recompute, mem_olds_copy]
    exact ⟨Or.inl hb, hc⟩
  · rw [Connected, h] at hc
    cases hc

/-- A partition in the mapping stays in it, as long as some worker is
connected. -/
theorem mem_mapping_turn (hlead : StaysLeader s input) (hp : p.id < partitionsAmount)
    (hc : Connected (s.turn input) w) (hm : p ∈ s.state.partitions.mapping) :
    p ∈ (s.turn input).state.partitions.mapping := by
  rcases turn_table hlead with h | ⟨hw, h⟩ | ⟨h, -⟩
  · rw [h, mapping_betweenTable]
    exact hm
  · rw [h, mapping_recompute]
    obtain ⟨e, he, -⟩ := exists_newMapping hw hlead.factor hp
    rw [Std.ExtTreeMap.mem_iff_isSome_getElem?, he]
    rfl
  · rw [Connected, h] at hc
    cases hc

/-! ## A whole run -/

/-- **The worker along the run.** At every state from a tick that named it
on, a connected worker is named, or was last named at some tick `d` and is
an old replica unless it has been struck off since. -/
theorem holder_or_old (hok : Along Service.turn StaysLeader s₀ inputs) {i m : ℕ}
    (hn : Named (upTo Service.turn s₀ inputs i) p w)
    (hc : ∀ j, i ≤ j → j ≤ inputs.length → Connected (upTo Service.turn s₀ inputs j) w)
    (him : i ≤ m) (hm : m ≤ inputs.length) :
    Named (upTo Service.turn s₀ inputs m) p w ∨
      ∃ d, d < m ∧ Named (upTo Service.turn s₀ inputs d) p w ∧
        (∀ k, d < k → k ≤ m → ¬ Named (upTo Service.turn s₀ inputs k) p w) ∧
        ((∀ j input, d < j → j < m → inputs[j]? = some input →
            ∀ id, input.1 ≠ some (.removePartitionFromReplica id w p)) →
          Old (upTo Service.turn s₀ inputs m) p w) := by
  induction m, him using Nat.le_induction with
  | base => exact Or.inl hn
  | succ m him ih =>
    obtain ⟨input, hinput⟩ : ∃ input, inputs[m]? = some input :=
      ⟨_, List.getElem?_eq_getElem (by omega)⟩
    have hturn : upTo Service.turn s₀ inputs (m + 1) =
        (upTo Service.turn s₀ inputs m).turn input := upTo_succ hinput
    have hlead := ok_upTo hok hinput
    have hconn := hc (m + 1) (by omega) hm
    rw [hturn] at hconn
    by_cases hnext : Named (upTo Service.turn s₀ inputs (m + 1)) p w
    · exact Or.inl hnext
    have hnext' := hnext
    rw [hturn] at hnext'
    refine Or.inr ?_
    rcases ih (by omega) with hnamed | ⟨d, hdm, hd, hnot, hold⟩
    · -- this turn dropped the worker
      refine ⟨m, by omega, hnamed, fun k hk hk' => ?_, fun _ => ?_⟩
      · obtain rfl : k = m + 1 := by omega
        exact hnext
      · rw [hturn]
        exact old_of_dropped hlead hnamed hconn hnext'
    · refine ⟨d, by omega, hd, fun k hk hk' => ?_, fun hkept => ?_⟩
      · rcases Nat.lt_or_ge m k with h | h
        · obtain rfl : k = m + 1 := by omega
          exact hnext
        · exact hnot k hk h
      · rw [hturn]
        exact old_of_old hlead (hold fun j input hdj hjm => hkept j input hdj (by omega)) hconn
          (hkept m input hdm (by omega) hinput)

/-- A partition that a tick of the run has in the mapping has an entry at
the end, as long as some worker stays connected. -/
theorem mem_mapping_run (hok : Along Service.turn StaysLeader s₀ inputs)
    (hp : p.id < partitionsAmount) {i m : ℕ}
    (hn : Named (upTo Service.turn s₀ inputs i) p w)
    (hc : ∀ j, i ≤ j → j ≤ inputs.length → Connected (upTo Service.turn s₀ inputs j) w)
    (him : i ≤ m) (hm : m ≤ inputs.length) :
    p ∈ (upTo Service.turn s₀ inputs m).state.partitions.mapping := by
  induction m, him using Nat.le_induction with
  | base =>
    obtain ⟨e, he, -⟩ := Partitions.mem_holders.mp hn
    rw [Std.ExtTreeMap.mem_iff_isSome_getElem?, he]
    rfl
  | succ m him ih =>
    obtain ⟨input, hinput⟩ : ∃ input, inputs[m]? = some input :=
      ⟨_, List.getElem?_eq_getElem (by omega)⟩
    have hconn := hc (m + 1) (by omega) hm
    rw [upTo_succ hinput] at hconn ⊢
    exact mem_mapping_turn (ok_upTo hok hinput) hp hconn (ih (by omega))

/-- **Reads reach every custodian.** At the end of every run of turns in
which a manager goes on leading, a client whose table is the leader's has
every custodian of a key's partition among the targets of a read of the
key. -/
theorem read_targets_reach_custodians (s₀ : Service)
    (inputs : List (Option ManagerProtocol × Readings))
    (hok : Along Service.turn StaysLeader s₀ inputs) (topology : Client.Topology)
    (htable : topology.partitions = (run Service.turn s₀ inputs).state.partitions) (key : Key)
    (w : NodeId) (hw : Custodian s₀ inputs key.partition w) :
    ∃ targets, Client.readTargets topology key = .ok targets ∧ w ∈ Client.reached targets := by
  obtain ⟨i, -, hi, hn, hc⟩ := hw.connected
  rw [← upTo_length] at htable
  have hmem := mem_mapping_run hok key.partition_lt hn hc hi le_rfl
  rw [← htable, Std.ExtTreeMap.mem_iff_isSome_getElem?] at hmem
  obtain ⟨e, he⟩ := Option.isSome_iff_exists.mp hmem
  obtain ⟨targets, htargets, hreach⟩ := Client.exists_readTargets he
  refine ⟨targets, htargets, hreach w ?_⟩
  rw [htable]
  rcases holder_or_old hok hn hc hi le_rfl with h | ⟨d, hd, hnamed, hnot, hold⟩
  · exact Or.inl h
  · exact Or.inr (hold fun j input hdj _ => hw.kept d hd hnamed hnot j input hdj)

/-- A leader whose only worker, 3, holds partition 0. -/
def oneWorker : Service :=
  ⟨⟨⟨1⟩, "a", 1⟩,
    { epoch := some 1
      electedLeaderId := some ⟨1⟩
      nodes := ((∅ : Map NodeId Node).insert ⟨1⟩ ⟨"a", 1, 0, .manager⟩).insert ⟨3⟩
        ⟨"c", 3, 0, .worker⟩
      partitions := { mapping := (∅ : Map PartitionId Partition).insert ⟨0⟩ ⟨⟨3⟩, ∅⟩
                      oldReplicas := ∅
                      newReplicas := ∅ }
      workersWithCalculatedPartitions := {⟨3⟩} }, ∅⟩

/-- A tick, and then worker 2 joins and takes partition 0 over. -/
def workerTwoJoins : List (Option ManagerProtocol × Readings) :=
  [(none, ⟨10, 10, 500, 10, 500, 1⟩),
   (some (.newConnection (some ⟨2⟩) "b" 2 false), ⟨20, 20, 500, 20, 500, 1⟩)]

theorem read_targets_reach_custodians_after_join :
    ∃ targets, Client.readTargets
        ⟨1, some ⟨1⟩, ∅, (run Service.turn oneWorker workerTwoJoins).state.partitions⟩ ⟨0⟩ =
        .ok targets ∧ ⟨3⟩ ∈ Client.reached targets := by
  generalize htable : (run Service.turn oneWorker workerTwoJoins).state.partitions = t
  refine read_targets_reach_custodians oneWorker workerTwoJoins ?_ ⟨1, some ⟨1⟩, ∅, t⟩
    htable.symm ⟨0⟩ ⟨3⟩ ?_
  · exact ⟨⟨by decide, (fun _ _ h => by cases h), by decide +kernel⟩,
      ⟨by decide, (fun _ _ h => by cases h), by decide +kernel⟩, trivial⟩
  · refine ⟨⟨1, by decide, by decide, by decide +kernel, fun j h1 h2 => ?_⟩, ?_⟩
    · have h2 : j ≤ 2 := h2
      interval_cases j
      · decide +kernel
      · decide +kernel
    · intro d _ _ _ j input _ hj id
      match j, hj with
      | 0, hj => cases hj; simp
      | 1, hj => cases hj; simp

end Manager

end NoSqlStore
