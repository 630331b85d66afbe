import NoSqlStore.Manager.Table
/-!
# Where the replicas of a partition go

`calc_replica_index` steps back from the master's index, around the worker
list (`calcReplicaIndex_eq`). The first `N` replica numbers lead to `N`
workers, and those after them to the same again, so a factor above the
number of workers adds no holder (`replica_placement`) and makes the
master a replica of its own (`master_not_replica_iff`).
-/

namespace NoSqlStore

namespace Manager

variable {vec : List NodeId} {n : NodeId}

/-! ## The index arithmetic -/

/-- **The subtract-and-wrap loop is a subtraction modulo the length.** -/
theorem calcReplicaIndex_eq {total : ℕ} (h : 0 < total) (partition replica : ℕ) :
    (calcReplicaIndex total (partition % total) replica : ℤ) =
      ((partition : ℤ) - replica) % total := by
  have hp := Nat.mod_lt partition h
  have hr := Nat.mod_lt replica h
  have hmod : ((partition : ℤ) - replica) % total =
      (((partition % total : ℕ) : ℤ) - ((replica % total : ℕ) : ℤ)) % total := by
    push_cast
    rw [← Int.sub_emod]
  rw [hmod]
  simp only [calcReplicaIndex, wrapReplica_eq_mod h]
  generalize partition % total = p at hp ⊢
  generalize replica % total = r at hr ⊢
  split
  · rw [← Int.add_emod_right, Int.emod_eq_of_lt (by omega) (by omega)]
    omega
  · rw [Int.emod_eq_of_lt (by omega) (by omega)]
    omega

/-- The worker of a replica number. -/
theorem replicaOf_eq (hvec : vec ≠ []) (partition replica : ℕ) :
    replicaOf vec partition replica =
      vec[(((partition : ℤ) - replica) % (vec.length : ℤ)).toNat]? := by
  have hpos : 0 < vec.length := List.length_pos_iff.mpr hvec
  rw [replicaOf, ← calcReplicaIndex_eq hpos, Int.toNat_natCast]

/-- Replica numbers that agree modulo the length lead to one worker. -/
theorem replicaOf_mod (hvec : vec ≠ []) (partition replica : ℕ) :
    replicaOf vec partition (replica % vec.length) = replicaOf vec partition replica := by
  rw [replicaOf_eq hvec, replicaOf_eq hvec]
  push_cast
  rw [Int.sub_emod_emod]

/-- **Replica numbers below the length lead to different workers.** -/
theorem replicaOf_inj (hvec : vec ≠ []) (hnodup : vec.Nodup) {partition i j : ℕ}
    (hi : i < vec.length) (hj : j < vec.length)
    (h : replicaOf vec partition i = replicaOf vec partition j) : i = j := by
  have hpos : 0 < vec.length := List.length_pos_iff.mpr hvec
  have hlt := calcReplicaIndex_lt (Nat.mod_lt partition hpos) i
  have hindex : calcReplicaIndex vec.length (partition % vec.length) i =
      calcReplicaIndex vec.length (partition % vec.length) j := (List.getElem?_inj hlt hnodup).mp h
  have hmod : (partition : ℤ) - i ≡ partition - j [ZMOD vec.length] := by
    rw [Int.ModEq, ← calcReplicaIndex_eq hpos, ← calcReplicaIndex_eq hpos, hindex]
  have hnumbers : (i : ℤ) ≡ j [ZMOD vec.length] := by
    simpa using (Int.ModEq.refl (partition : ℤ)).sub hmod
  exact Nat.ModEq.eq_of_lt_of_lt (Int.natCast_modEq_iff.mp hnumbers) hi hj

/-! ## The entry of a partition -/

/-- **The master is a replica of its own exactly where the factor exceeds
the number of workers.** -/
theorem master_mem_placement_iff (hvec : vec ≠ []) (hnodup : vec.Nodup) {partition : ℕ}
    {replicationFactor : ℕ} (hrf : 0 < replicationFactor) {e : Partition}
    (he : placement vec partition replicationFactor = some e) :
    e.master ∈ e.replicas ↔ vec.length < replicationFactor := by
  have hpos : 0 < vec.length := List.length_pos_iff.mpr hvec
  obtain ⟨e', he', hmaster, hmem⟩ := placement_entry hvec partition hrf
  rw [he] at he'
  cases he'
  rw [hmem]
  constructor
  · rintro ⟨j, hj, hlt, hn⟩
    by_contra hle
    -- below the length, only replica zero is the master
    have hzero := replicaOf_inj hvec hnodup (by omega) hpos (hn.trans hmaster.symm)
    omega
  · intro hlt
    refine ⟨vec.length, hpos, hlt, ?_⟩
    rw [← replicaOf_mod hvec, Nat.mod_self]
    exact hmaster

/-- **The holders of a partition**: the workers of the first replica
numbers, as many as the factor and the worker list allow. -/
theorem holders_placement (hvec : vec ≠ []) (hnodup : vec.Nodup) (partition : ℕ)
    {replicationFactor : ℕ} (hrf : 0 < replicationFactor) :
    ∃ e, placement vec partition replicationFactor = some e ∧
      replicaOf vec partition 0 = some e.master ∧
      e.holders.card = min replicationFactor vec.length ∧
      ∀ n, n ∈ e.holders ↔ ∃ j, j < min replicationFactor vec.length ∧
        replicaOf vec partition j = some n := by
  have hpos : 0 < vec.length := List.length_pos_iff.mpr hvec
  obtain ⟨e, he, hmaster, hmem⟩ := placement_spec hvec partition hrf
  have hholders : ∀ n, n ∈ e.holders ↔ ∃ j, j < min replicationFactor vec.length ∧
      replicaOf vec partition j = some n := by
    intro n
    rw [hmem]
    constructor
    · rintro ⟨j, hj, hn⟩
      -- the replicas beyond the number of workers come round to the first ones
      have hmod := Nat.mod_lt j hpos
      have hle := Nat.mod_le j vec.length
      exact ⟨j % vec.length, by omega, (replicaOf_mod hvec partition j).trans hn⟩
    · rintro ⟨j, hj, hn⟩
      exact ⟨j, by omega, hn⟩
  refine ⟨e, he, hmaster, ?_, hholders⟩
  -- the workers of different numbers are different
  have himage : e.holders.image some =
      (Finset.range (min replicationFactor vec.length)).image (replicaOf vec partition) := by
    ext o
    simp only [Finset.mem_image, Finset.mem_range, hholders]
    constructor
    · rintro ⟨n, ⟨j, hj, hn⟩, rfl⟩
      exact ⟨j, hj, hn⟩
    · rintro ⟨j, hj, rfl⟩
      obtain ⟨id, hid, -⟩ := exists_replicaOf hvec partition j
      exact ⟨id, ⟨j, hj, hid⟩, hid.symm⟩
  have hinj : Set.InjOn (replicaOf vec partition)
      (Finset.range (min replicationFactor vec.length)) := by
    intro i hi j hj h
    rw [Finset.coe_range, Set.mem_Iio] at hi hj
    exact replicaOf_inj hvec hnodup (by omega) (by omega) h
  have hcard := congrArg Finset.card himage
  rw [Finset.card_image_of_injective _ (Option.some_injective _), Finset.card_image_of_injOn hinj,
    Finset.card_range] at hcard
  exact hcard

/-! ## The mapping -/

variable {t : Partitions}

/-- The partitions a worker is the master of. -/
def masterOf (t : Partitions) (w : NodeId) : Finset ℕ :=
  (Finset.range partitionsAmount).filter fun p =>
    t.mapping[(⟨p⟩ : PartitionId)]?.map Partition.master = some w

/-- A worker is the master of the partitions that its index leaves as the
remainder. -/
theorem masterOf_calculate (hvec : vec ≠ []) (hnodup : vec.Nodup) {replicationFactor : ℕ}
    (hrf : 0 < replicationFactor) {w : NodeId} {i : ℕ} (hw : vec[i]? = some w) :
    (masterOf (calculateNewMapping t partitionsAmount replicationFactor vec) w).card =
      partitionsAmount / vec.length + if i < partitionsAmount % vec.length then 1 else 0 := by
  have hpos : 0 < vec.length := List.length_pos_iff.mpr hvec
  have hi : i < vec.length := (List.getElem?_eq_some_iff.mp hw).1
  have hcount := Nat.count_modEq_card partitionsAmount hpos i
  rw [Nat.mod_eq_of_lt hi, Nat.count_eq_card_filter_range] at hcount
  rw [← hcount, masterOf]
  congr 1
  refine Finset.filter_congr fun p hp => ?_
  obtain ⟨e, he, hmaster, -⟩ := placement_entry hvec p hrf
  have hentry : (calculateNewMapping t partitionsAmount replicationFactor vec).mapping[
      (⟨p⟩ : PartitionId)]? = some e := by
    rw [mapping_calculate, getElem?_newMapping, if_pos (Finset.mem_range.mp hp), he]
  have hlt := Nat.mod_lt p hpos
  rw [replicaOf, calcReplicaIndex_zero hlt] at hmaster
  rw [hentry, Option.map_some, ← hmaster, ← hw, List.getElem?_inj hlt hnodup]
  simp only [Nat.ModEq, Nat.mod_eq_of_lt hi]

/-- **The placement of a worker list under a factor.** Every partition has
an entry, its master is the worker its number leaves as the remainder, its
holders are the workers of as many indices going back from there as the
factor and the list allow, all different; the masters are spread evenly;
and what is recorded as new of a partition are the holders it gained. -/
theorem replica_placement (t : Partitions) (vec : List NodeId) (replicationFactor : ℕ)
    (hvec : vec ≠ []) (hsorted : vec.Pairwise (· < ·)) (hrf : 1 ≤ replicationFactor) :
    (∀ p : PartitionId, p.id < partitionsAmount → ∃ e,
      (calculateNewMapping t partitionsAmount replicationFactor vec).mapping[p]? = some e ∧
      vec[p.id % vec.length]? = some e.master ∧
      e.holders.card = min replicationFactor vec.length ∧
      ∀ n, n ∈ e.holders ↔ ∃ j, j < min replicationFactor vec.length ∧
        vec[(((p.id : ℤ) - j) % (vec.length : ℤ)).toNat]? = some n) ∧
    (∀ p : PartitionId, ¬ p.id < partitionsAmount →
      (calculateNewMapping t partitionsAmount replicationFactor vec).mapping[p]? = none) ∧
    (∀ w ∈ vec,
      (masterOf (calculateNewMapping t partitionsAmount replicationFactor vec) w).card =
        partitionsAmount / vec.length ∨
      (masterOf (calculateNewMapping t partitionsAmount replicationFactor vec) w).card =
        (partitionsAmount + vec.length - 1) / vec.length) ∧
    ∀ p : PartitionId, p.id < partitionsAmount → p ∈ t.mapping →
      (calculateNewMapping t partitionsAmount replicationFactor vec).newReplicas[p]? =
        some ((calculateNewMapping t partitionsAmount replicationFactor vec).holders p \
          t.holders p) := by
  have hpos : 0 < vec.length := List.length_pos_iff.mpr hvec
  have hnodup : vec.Nodup := hsorted.imp fun h => ne_of_lt h
  refine ⟨fun p hp => ?_, fun p hp => newMapping_eq_none hp, fun w hw => ?_, fun p hp hmem => ?_⟩
  · obtain ⟨e, he, hmaster, hcard, hholders⟩ := holders_placement hvec hnodup p.id hrf
    refine ⟨e, by rw [mapping_calculate, getElem?_newMapping, if_pos hp, he], ?_, hcard,
      fun n => ?_⟩
    · rw [replicaOf, calcReplicaIndex_zero (Nat.mod_lt _ hpos)] at hmaster
      exact hmaster
    · simp only [hholders, replicaOf_eq hvec]
  · obtain ⟨i, hi⟩ := List.mem_iff_getElem?.mp hw
    rw [masterOf_calculate hvec hnodup hrf hi]
    -- the quotient rounded up is the one rounded down, and one more where something is left
    have hceil : (partitionsAmount + vec.length - 1) / vec.length =
        partitionsAmount / vec.length + if 0 < partitionsAmount % vec.length then 1 else 0 := by
      have hless : vec.length - 1 < vec.length := by omega
      have hwrap : vec.length ≤ partitionsAmount % vec.length + (vec.length - 1) ↔
          0 < partitionsAmount % vec.length := by omega
      rw [Nat.add_sub_assoc hpos, Nat.add_div hpos, Nat.div_eq_of_lt hless, Nat.mod_eq_of_lt hless,
        Nat.add_zero]
      simp only [hwrap]
    rw [hceil]
    split
    · rw [if_pos (by omega)]
      exact Or.inr rfl
    · exact Or.inl rfl
  · obtain ⟨e, he, -⟩ := exists_newMapping hvec hrf hp
    rw [Std.ExtTreeMap.mem_iff_isSome_getElem?] at hmem
    obtain ⟨old, hold⟩ := Option.isSome_iff_exists.mp hmem
    rw [newReplicas_calculate_of_some hold he]
    congr 1
    ext n
    rw [mem_addedHolders, Finset.mem_sdiff, Partitions.holders, Partitions.holders,
      mapping_calculate, he, hold]
    rfl

/-- Three workers under a factor of five: every worker holds partition 7. -/
theorem replica_placement_five_over_three :
    ∃ e, (calculateNewMapping default partitionsAmount 5 [⟨1⟩, ⟨2⟩, ⟨3⟩]).mapping[
      (⟨7⟩ : PartitionId)]? = some e ∧ e.master = ⟨2⟩ ∧ e.holders.card = 3 := by
  obtain ⟨e, he, hmaster, hcard, -⟩ := (replica_placement default [⟨1⟩, ⟨2⟩, ⟨3⟩] 5 (by decide)
    (by decide) (by decide)).1 ⟨7⟩ (by simp [partitionsAmount])
  exact ⟨e, he, (Option.some.inj hmaster).symm, hcard⟩

/-- **The master is no replica of its own exactly where there are workers
enough for the factor.** -/
theorem master_not_replica_iff (t : Partitions) (vec : List NodeId) (replicationFactor : ℕ)
    (hvec : vec ≠ []) (hsorted : vec.Pairwise (· < ·)) (hrf : 1 ≤ replicationFactor)
    (p : PartitionId) (hp : p.id < partitionsAmount) :
    ∃ e, (calculateNewMapping t partitionsAmount replicationFactor vec).mapping[p]? = some e ∧
      (e.master ∉ e.replicas ↔ replicationFactor ≤ vec.length) := by
  have hnodup : vec.Nodup := hsorted.imp fun h => ne_of_lt h
  obtain ⟨e, he, -⟩ := placement_entry hvec p.id hrf
  refine ⟨e, by rw [mapping_calculate, getElem?_newMapping, if_pos hp, he], ?_⟩
  rw [master_mem_placement_iff hvec hnodup hrf he, not_lt]

theorem master_not_replica_two_over_three :
    ∃ e, (calculateNewMapping default partitionsAmount 2 [⟨1⟩, ⟨2⟩, ⟨3⟩]).mapping[
      (⟨7⟩ : PartitionId)]? = some e ∧ e.master ∉ e.replicas := by
  obtain ⟨e, he, hiff⟩ := master_not_replica_iff default [⟨1⟩, ⟨2⟩, ⟨3⟩] 2 (by decide) (by decide)
    (by decide) ⟨7⟩ (by simp [partitionsAmount])
  exact ⟨e, he, hiff.mpr (by decide)⟩

/-- **Two workers under a factor of three**: the master of partition 0 is
among its own replicas. -/
theorem master_is_replica_three_over_two :
    ∃ e, (calculateNewMapping default partitionsAmount 3 [⟨1⟩, ⟨2⟩]).mapping[
      (⟨0⟩ : PartitionId)]? = some e ∧ e.master ∈ e.replicas := by
  have hvec : [(⟨1⟩ : NodeId), ⟨2⟩] ≠ [] := by decide
  obtain ⟨e, he, -⟩ := placement_entry hvec 0 (by decide : 0 < 3)
  refine ⟨e, ?_, (master_mem_placement_iff hvec (by decide) (by decide) he).mpr (by decide)⟩
  rw [mapping_calculate, getElem?_newMapping, if_pos partitionsAmount_pos, he]

end Manager

end NoSqlStore
