import NoSqlStore.Model.Manager
/-!
# The partition table, read at one partition

Every loop over the table rewrites each partition's entry on its own, so
the table after `copyCurrentMappingToOld`, `calculateNewMapping` and
`removeOldReplica` is described entry by entry. `mem_olds_copy` and
`mem_newReplicas_calculate` are what the migration arguments use;
`exists_newMapping` is what the placement is used for.
-/

namespace NoSqlStore

namespace Manager

variable {t : Partitions} {p : PartitionId} {n w : NodeId} {vec : List NodeId}

/-! ## The old replicas -/

/-- The old replicas of a partition after the copy: its old replicas and
its holders, as far as they are connected. -/
theorem oldReplicas_copy (t : Partitions) (vec : List NodeId) (p : PartitionId) :
    (copyCurrentMappingToOld t vec).oldReplicas[p]? =
      if ((t.olds p ∪ t.holders p).filter (· ∈ vec)) = ∅ then none
      else some ((t.olds p ∪ t.holders p).filter (· ∈ vec)) := by
  simp only [copyCurrentMappingToOld, Std.ExtTreeMap.getElem?_filterMap',
    Map.getElem?_foldl_alter (fun _ => joinOldReplicas)]
  cases hm : t.mapping[p]? with
  | none =>
    cases ho : t.oldReplicas[p]? <;> simp [Partitions.olds, Partitions.holders, hm, ho]
  | some e =>
    have hunion : ∀ o : Finset NodeId, insert e.master (o ∪ e.replicas) = o ∪ e.holders := by
      intro o
      rw [Partition.holders, Finset.union_insert]
    cases ho : t.oldReplicas[p]? with
    | none => simp [Partitions.olds, Partitions.holders, hm, ho, joinOldReplicas, Partition.holders]
    | some o =>
      simp only [Partitions.olds, Partitions.holders, hm, ho, joinOldReplicas, hunion,
        Option.map_some, Option.getD_some, Option.bind_some]

/-- **Nobody connected is forgotten by the copy**, and nobody else is
added. -/
theorem mem_olds_copy :
    n ∈ (copyCurrentMappingToOld t vec).olds p ↔ (n ∈ t.olds p ∨ n ∈ t.holders p) ∧ n ∈ vec := by
  rw [Partitions.mem_olds, oldReplicas_copy]
  constructor
  · rintro ⟨s, hs, hn⟩
    split at hs
    · cases hs
    · cases hs
      simpa using hn
  · intro h
    have hn : n ∈ (t.olds p ∪ t.holders p).filter (· ∈ vec) := by simpa using h
    rw [if_neg (Finset.ne_empty_of_mem hn)]
    exact ⟨_, rfl, hn⟩

@[simp] theorem mapping_copy : (copyCurrentMappingToOld t vec).mapping = t.mapping := rfl

@[simp] theorem newReplicas_copy : (copyCurrentMappingToOld t vec).newReplicas = t.newReplicas :=
  rfl

@[simp] theorem mapping_removeOldReplica : (removeOldReplica t w p).mapping = t.mapping := by
  unfold removeOldReplica
  split
  · split <;> rfl
  · rfl

@[simp] theorem newReplicas_removeOldReplica :
    (removeOldReplica t w p).newReplicas = t.newReplicas := by
  unfold removeOldReplica
  split
  · split <;> rfl
  · rfl

/-- An acknowledgement strikes one replica off one partition. -/
theorem mem_olds_removeOldReplica {q : PartitionId} :
    n ∈ (removeOldReplica t w p).olds q ↔ n ∈ t.olds q ∧ ¬ (q = p ∧ n = w) := by
  unfold removeOldReplica
  cases ho : t.oldReplicas[p]? with
  | none =>
    refine ⟨fun h => ⟨h, ?_⟩, fun h => h.1⟩
    rintro ⟨rfl, rfl⟩
    obtain ⟨s, hs, -⟩ := Partitions.mem_olds.mp h
    rw [ho] at hs
    cases hs
  | some o =>
    by_cases hw : w ∈ o
    · by_cases hq : p = q
      · subst hq
        by_cases hle : o.erase w = ∅
        · simp only [hw, hle, if_true, Partitions.mem_olds, Std.ExtTreeMap.getElem?_erase_self,
            ho]
          have : n ∈ o → n = w := fun hn => by
            by_contra hne
            exact Finset.notMem_empty n (hle ▸ Finset.mem_erase.mpr ⟨hne, hn⟩)
          simpa using this
        · simp only [hw, hle, if_true, if_false, Partitions.mem_olds,
            Std.ExtTreeMap.getElem?_insert_self, ho]
          simp [and_comm]
      · have hq' : q ≠ p := fun h => hq h.symm
        by_cases hle : o.erase w = ∅ <;>
          simp [hw, hle, Partitions.mem_olds, Std.ExtTreeMap.getElem?_erase,
            Std.ExtTreeMap.getElem?_insert, hq, hq']
    · simp only [hw, if_false]
      refine ⟨fun h => ⟨h, ?_⟩, fun h => h.1⟩
      rintro ⟨rfl, rfl⟩
      obtain ⟨s, hs, hn⟩ := Partitions.mem_olds.mp h
      rw [ho] at hs
      cases hs
      exact hw hn

/-! ## The placement -/

theorem wrapReplica_eq_mod {total : ℕ} (h : 0 < total) (replica : ℕ) :
    wrapReplica total replica = replica % total := by
  induction replica using Nat.strong_induction_on with
  | _ replica ih =>
    rw [wrapReplica]
    split
    · rename_i hle
      rw [ih _ (by omega), Nat.mod_eq_sub_mod hle.1]
    · rw [Nat.mod_eq_of_lt (by omega)]

/-- The index a replica number leads to is an index of the worker list. -/
theorem calcReplicaIndex_lt {total master : ℕ} (h : master < total) (replica : ℕ) :
    calcReplicaIndex total master replica < total := by
  have hlt := Nat.mod_lt replica (by omega : 0 < total)
  simp only [calcReplicaIndex, wrapReplica_eq_mod (by omega : 0 < total)]
  split <;> omega

/-- Replica zero is the master. -/
theorem calcReplicaIndex_zero {total master : ℕ} (h : master < total) :
    calcReplicaIndex total master 0 = master := by
  simp [calcReplicaIndex, wrapReplica_eq_mod (by omega : 0 < total)]

/-- The entry the inner loop of the placement builds for one partition. -/
def placement (vec : List NodeId) (partition replicationFactor : ℕ) : Option Partition :=
  (List.range replicationFactor).foldl (fun entry j => addReplica vec partition j entry) none

/-- The inner loop touches its own partition only. -/
theorem getElem?_foldl_addReplica (l : List ℕ) (m : Map PartitionId Partition) (partition : ℕ)
    (q : PartitionId) :
    (l.foldl (fun m j => m.alter ⟨partition⟩ (addReplica vec partition j)) m)[q]? =
      if q.id = partition then l.foldl (fun entry j => addReplica vec partition j entry) m[q]?
      else m[q]? := by
  induction l generalizing m with
  | nil => simp
  | cons j l ih =>
    rw [List.foldl_cons, ih, Std.ExtTreeMap.getElem?_alter]
    by_cases h : q.id = partition
    · subst h
      simp
    · have hne : (⟨partition⟩ : PartitionId) ≠ q := fun he => h (he ▸ rfl)
      simp [h, hne]

/-- **The mapping, entry by entry.** -/
theorem getElem?_newMapping (amount replicationFactor : ℕ) (vec : List NodeId)
    (q : PartitionId) :
    (newMapping amount replicationFactor vec)[q]? =
      if q.id < amount then placement vec q.id replicationFactor else none := by
  induction amount with
  | zero => simp [newMapping]
  | succ amount ih =>
    have hstep : newMapping (amount + 1) replicationFactor vec =
        (List.range replicationFactor).foldl
          (fun m j => m.alter ⟨amount⟩ (addReplica vec amount j))
          (newMapping amount replicationFactor vec) := by
      simp [newMapping, List.range_succ]
    rw [hstep, getElem?_foldl_addReplica, ih]
    by_cases h : q.id = amount
    · subst h
      simp [placement]
    · rw [if_neg h]
      by_cases hlt : q.id < amount
      · rw [if_pos hlt, if_pos (by omega)]
      · rw [if_neg hlt, if_neg (by omega)]

/-- Every replica number of a nonempty worker list leads to a worker. -/
theorem exists_replicaOf (hvec : vec ≠ []) (partition j : ℕ) :
    ∃ id, replicaOf vec partition j = some id ∧ id ∈ vec := by
  have hpos : 0 < vec.length := List.length_pos_iff.mpr hvec
  have hlt := calcReplicaIndex_lt (Nat.mod_lt partition hpos) j
  exact ⟨vec[_], List.getElem?_eq_getElem hlt, List.getElem_mem hlt⟩

/-- **The entry of a partition**: its master is replica number zero, and
its replicas are the workers of the numbers from one on. -/
theorem placement_entry (hvec : vec ≠ []) (partition : ℕ) {replicationFactor : ℕ}
    (hrf : 0 < replicationFactor) :
    ∃ e, placement vec partition replicationFactor = some e ∧
      replicaOf vec partition 0 = some e.master ∧
      ∀ n, n ∈ e.replicas ↔ ∃ j, 0 < j ∧ j < replicationFactor ∧
        replicaOf vec partition j = some n := by
  induction replicationFactor with
  | zero => omega
  | succ k ih =>
    obtain ⟨id, hid, -⟩ := exists_replicaOf hvec partition k
    rcases Nat.eq_zero_or_pos k with rfl | hk
    · refine ⟨⟨id, ∅⟩, by simp [placement, addReplica, hid], hid, fun n => ?_⟩
      simp only [Finset.notMem_empty, false_iff]
      rintro ⟨j, hpos, hlt, -⟩
      omega
    · obtain ⟨e, he, hmaster, hmem⟩ := ih hk
      refine ⟨{ e with replicas := insert id e.replicas }, ?_, hmaster, fun n => ?_⟩
      · rw [placement, List.range_succ, List.foldl_append]
        change addReplica vec partition k (placement vec partition k) = _
        simp [addReplica, hid, he, Nat.pos_iff_ne_zero.mp hk]
      · rw [Finset.mem_insert, hmem]
        constructor
        · rintro (rfl | ⟨j, hpos, hlt, hn⟩)
          · exact ⟨k, hk, by omega, hid⟩
          · exact ⟨j, hpos, by omega, hn⟩
        · rintro ⟨j, hpos, hlt, hn⟩
          rcases Nat.lt_succ_iff_lt_or_eq.mp hlt with hlt | rfl
          · exact Or.inr ⟨j, hpos, hlt, hn⟩
          · rw [hid] at hn
            cases hn
            exact Or.inl rfl

/-- Its holders are the workers of all the replica numbers. -/
theorem placement_spec (hvec : vec ≠ []) (partition : ℕ) {replicationFactor : ℕ}
    (hrf : 0 < replicationFactor) :
    ∃ e, placement vec partition replicationFactor = some e ∧
      replicaOf vec partition 0 = some e.master ∧
      ∀ n, n ∈ e.holders ↔ ∃ j, j < replicationFactor ∧ replicaOf vec partition j = some n := by
  obtain ⟨e, he, hmaster, hmem⟩ := placement_entry hvec partition hrf
  refine ⟨e, he, hmaster, fun n => ?_⟩
  rw [Partition.mem_holders, hmem]
  constructor
  · rintro (rfl | ⟨j, -, hlt, hn⟩)
    · exact ⟨0, hrf, hmaster⟩
    · exact ⟨j, hlt, hn⟩
  · rintro ⟨j, hlt, hn⟩
    rcases Nat.eq_zero_or_pos j with rfl | hpos
    · rw [hmaster] at hn
      cases hn
      exact Or.inl rfl
    · exact Or.inr ⟨j, hpos, hlt, hn⟩

/-- **Every partition gets an entry, and an entry names workers of the
list.** -/
theorem exists_newMapping (hvec : vec ≠ []) {replicationFactor : ℕ} (hrf : 0 < replicationFactor)
    (hp : p.id < partitionsAmount) :
    ∃ e, (newMapping partitionsAmount replicationFactor vec)[p]? = some e ∧
      ∀ n ∈ e.holders, n ∈ vec := by
  obtain ⟨e, he, -, hmem⟩ := placement_spec hvec p.id hrf
  refine ⟨e, by rw [getElem?_newMapping, if_pos hp, he], fun n hn => ?_⟩
  obtain ⟨j, -, hj⟩ := (hmem n).mp hn
  obtain ⟨id, hid, hin⟩ := exists_replicaOf hvec p.id j
  rw [hid] at hj
  cases hj
  exact hin

/-- And no other partition has one. -/
theorem newMapping_eq_none {replicationFactor : ℕ} (hp : ¬ p.id < partitionsAmount) :
    (newMapping partitionsAmount replicationFactor vec)[p]? = none := by
  rw [getElem?_newMapping, if_neg hp]

/-! ## The new replicas -/

theorem mem_addedHolders {new old : Partition} :
    n ∈ addedHolders new old ↔ n ∈ new.holders ∧ n ∉ old.holders := by
  simp only [addedHolders, Finset.mem_union, Finset.mem_filter, Partition.mem_holders, not_or]
  split
  · rename_i h
    simp only [Finset.mem_singleton]
    constructor
    · rintro (rfl | ⟨hr, hn⟩)
      · exact ⟨Or.inl rfl, h⟩
      · exact ⟨Or.inr hr, hn⟩
    · rintro ⟨rfl | hr, hn⟩
      · exact Or.inl rfl
      · exact Or.inr ⟨hr, hn⟩
  · rename_i h
    simp only [Finset.notMem_empty, false_or]
    constructor
    · rintro ⟨hr, hn⟩
      exact ⟨Or.inr hr, hn⟩
    · rintro ⟨rfl | hr, hn⟩
      · exact absurd hn h
      · exact ⟨hr, hn⟩

@[simp] theorem mapping_calculate (amount replicationFactor : ℕ) :
    (calculateNewMapping t amount replicationFactor vec).mapping =
      newMapping amount replicationFactor vec := rfl

@[simp] theorem oldReplicas_calculate (amount replicationFactor : ℕ) :
    (calculateNewMapping t amount replicationFactor vec).oldReplicas = t.oldReplicas := rfl

@[simp] theorem olds_calculate (amount replicationFactor : ℕ) (p : PartitionId) :
    (calculateNewMapping t amount replicationFactor vec).olds p = t.olds p := rfl

/-- The new replicas of a partition the previous mapping had: the holders
it gained. -/
theorem newReplicas_calculate_of_some {amount replicationFactor : ℕ} {old new : Partition}
    (hold : t.mapping[p]? = some old)
    (hnew : (newMapping amount replicationFactor vec)[p]? = some new) :
    (calculateNewMapping t amount replicationFactor vec).newReplicas[p]? =
      some (addedHolders new old) := by
  simp only [calculateNewMapping, Map.getElem?_foldl_alter (recordAdded _), hold, recordAdded,
    hnew]

/-- A partition new to the mapping keeps what was recorded of it. -/
theorem newReplicas_calculate_of_none {amount replicationFactor : ℕ}
    (hold : t.mapping[p]? = none) :
    (calculateNewMapping t amount replicationFactor vec).newReplicas[p]? = t.newReplicas[p]? := by
  simp only [calculateNewMapping, Map.getElem?_foldl_alter (recordAdded _), hold]

/-! ## A recomputation -/

/-- The table a worker list leads to from the table before: the copy of
the mapping to the old replicas, then the new mapping. -/
def recompute (t : Partitions) (replicationFactor : ℕ) (vec : List NodeId) : Partitions :=
  calculateNewMapping (copyCurrentMappingToOld t vec) partitionsAmount replicationFactor vec

@[simp] theorem mapping_recompute (rf : ℕ) :
    (recompute t rf vec).mapping = newMapping partitionsAmount rf vec := by
  rw [recompute, mapping_calculate]

@[simp] theorem olds_recompute (rf : ℕ) (p : PartitionId) :
    (recompute t rf vec).olds p = (copyCurrentMappingToOld t vec).olds p := by
  rw [recompute, olds_calculate]

end Manager

end NoSqlStore
