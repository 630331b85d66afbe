import NoSqlStore.Manager.Custody
import NoSqlStore.Model.Worker
/-!
# Every new holder has a source

The leader computes three maps, and each worker reads from them whom to
send a partition to. A recomputation makes every connected worker that may
hold the records an old replica, so each of them sends to every holder;
when the last of these has been struck off, the holders the mapping kept
send to the ones it gained. `Tidy` is the one fact about whole sequences
of recomputations: what is recorded as new is held.
-/

namespace NoSqlStore

namespace Manager

open Runs

variable {t : Partitions} {p : PartitionId} {n w : NodeId} {vec : List NodeId} {rf : ℕ}

/-- **The tables a leader reaches**: from the empty one, by recomputations
over the workers connected, by losing all of them, and by
acknowledgements. -/
inductive Reachable : Partitions → Prop
  | empty : Reachable default
  | recomputed (t : Partitions) (rf : ℕ) (vec : List NodeId) (ht : Reachable t) (hvec : vec ≠ [])
      (hrf : 1 ≤ rf) : Reachable (recompute t rf vec)
  | noWorkers (t : Partitions) (ht : Reachable t) : Reachable (copyCurrentMappingToOld t [])
  | acknowledged (t : Partitions) (w : NodeId) (p : PartitionId) (ht : Reachable t) :
      Reachable (removeOldReplica t w p)

/-- A turn of a leader stays within the reachable tables. -/
theorem reachable_turn {s : Service} {input : Option ManagerProtocol × Readings}
    (hlead : StaysLeader s input) (h : Reachable s.state.partitions) :
    Reachable (s.turn input).state.partitions := by
  have hb : Reachable (betweenTable s input) := by
    unfold betweenTable
    split
    · exact .acknowledged _ _ _ h
    · exact h
  rcases turn_table hlead with ht | ⟨hw, ht⟩ | ⟨-, ht⟩
  · rw [ht]
    exact hb
  · rw [ht]
    exact .recomputed _ _ _ hb hw hlead.factor
  · rw [ht]
    exact .noWorkers _ hb

/-- **The tables of a leader's run are reachable ones.** -/
theorem reachable_run {s₀ : Service} {inputs : List (Option ManagerProtocol × Readings)}
    (h : Reachable s₀.state.partitions) (hok : Along Service.turn StaysLeader s₀ inputs) :
    Reachable (run Service.turn s₀ inputs).state.partitions :=
  run_inv (I := fun s : Service => Reachable s.state.partitions)
    (fun _ _ hs hi => reachable_turn hi hs) h hok

/-- The holders a recomputation adds to a partition. -/
def gained (t : Partitions) (rf : ℕ) (vec : List NodeId) (p : PartitionId) : Finset NodeId :=
  (recompute t rf vec).holders p \ t.holders p

theorem holders_of_mapping {e : Partition} (h : t.mapping[p]? = some e) :
    t.holders p = e.holders := by
  simp [Partitions.holders, h]

/-- After a recomputation, a partition the previous mapping had records
the holders gained. -/
theorem newReplicas_recompute {old : Partition} (hvec : vec ≠ []) (hrf : 1 ≤ rf)
    (hp : p.id < partitionsAmount) (hold : t.mapping[p]? = some old) :
    (recompute t rf vec).newReplicas[p]? = some (gained t rf vec p) := by
  obtain ⟨new, hnew, -⟩ := exists_newMapping hvec hrf hp
  have hmap : (recompute t rf vec).mapping[p]? = some new := by rw [mapping_recompute, hnew]
  rw [recompute, newReplicas_calculate_of_some (by rw [mapping_copy, hold]) hnew]
  congr 1
  ext n
  rw [mem_addedHolders, gained, Finset.mem_sdiff, holders_of_mapping hmap,
    holders_of_mapping hold]

/-- A partition the mapping did not have keeps what was recorded of it. -/
theorem newReplicas_recompute_of_none (hnone : t.mapping[p]? = none) :
    (recompute t rf vec).newReplicas[p]? = t.newReplicas[p]? := by
  rw [recompute, newReplicas_calculate_of_none (by rw [mapping_copy, hnone]), newReplicas_copy]

/-- **A tidy table**: it maps partitions of the key space only, and what
it records as new of a partition holds it. -/
structure Tidy (t : Partitions) : Prop where
  bounded : ∀ p : PartitionId, p ∈ t.mapping → p.id < partitionsAmount
  held : ∀ (p : PartitionId) (new : Finset NodeId), t.newReplicas[p]? = some new →
    p ∈ t.mapping ∧ new ⊆ t.holders p

theorem mem_mapping_of_some {e : Partition} (h : t.mapping[p]? = some e) : p ∈ t.mapping := by
  rw [Std.ExtTreeMap.mem_iff_isSome_getElem?, h]
  rfl

/-- Tables with one mapping and one record of new replicas are tidy
together. -/
theorem Tidy.congr {t' : Partitions} (h : Tidy t) (hm : t'.mapping = t.mapping)
    (hn : t'.newReplicas = t.newReplicas) : Tidy t' := by
  refine ⟨fun p hp => h.bounded p (hm ▸ hp), fun p new hnew => ?_⟩
  rw [hn] at hnew
  rw [hm, Partitions.holders, hm]
  exact h.held p new hnew

theorem tidy_recompute (h : Tidy t) (hvec : vec ≠ []) (hrf : 1 ≤ rf) :
    Tidy (recompute t rf vec) := by
  constructor
  · intro p hp
    by_contra hlt
    rw [Std.ExtTreeMap.mem_iff_isSome_getElem?, mapping_recompute, newMapping_eq_none hlt] at hp
    cases hp
  · intro p new hnew
    cases hm : t.mapping[p]? with
    | none =>
      rw [newReplicas_recompute_of_none hm] at hnew
      have hmem := (h.held p new hnew).1
      rw [Std.ExtTreeMap.mem_iff_isSome_getElem?, hm] at hmem
      cases hmem
    | some old =>
      have hp := h.bounded p (mem_mapping_of_some hm)
      rw [newReplicas_recompute hvec hrf hp hm] at hnew
      cases hnew
      obtain ⟨e, he, -⟩ := exists_newMapping hvec hrf hp
      exact ⟨mem_mapping_of_some (by rw [mapping_recompute, he]), Finset.sdiff_subset⟩

/-- **Every reachable table is tidy.** -/
theorem tidy_of_reachable (h : Reachable t) : Tidy t := by
  induction h with
  | empty =>
    refine ⟨fun p hp => ?_, fun p new hnew => ?_⟩
    · exact absurd hp Std.ExtTreeMap.not_mem_empty
    · cases hnew
  | recomputed t rf vec _ hvec hrf ih => exact tidy_recompute ih hvec hrf
  | noWorkers t _ ih => exact ih.congr mapping_copy newReplicas_copy
  | acknowledged t w p _ ih => exact ih.congr mapping_removeOldReplica newReplicas_removeOldReplica

/-! ## The recipients -/

theorem any_old_iff {me : NodeId} :
    (t.oldReplicas[p]?.any fun old => me ∈ old) = true ↔ me ∈ t.olds p := by
  cases h : t.oldReplicas[p]? <;> simp [Partitions.olds, h]

theorem all_old_iff : (t.oldReplicas[p]?.all fun old => old = ∅) = true ↔ t.olds p = ∅ := by
  cases h : t.oldReplicas[p]? <;> simp [Partitions.olds, h]

open Worker in
/-- **Whom a worker sends a partition to**, by membership: as an old
replica to the other holders, and once there is no old replica, as a
holder that is not new, to the new ones not yet completed. -/
theorem mem_recipients {me : NodeId} {nodes : Map NodeId Node} {synced : Option (Finset NodeId)} :
    n ∈ getNodeIdsCurrNodeHasToSyncThePartitionTo p me t nodes synced ↔
      n ∈ nodes ∧ ((me ∈ t.olds p ∧ n ∈ t.holders p ∧ n ≠ me) ∨
        (t.olds p = ∅ ∧ me ∈ t.holders p ∧ ∃ new, t.newReplicas[p]? = some new ∧ me ∉ new ∧
          n ∈ new ∧ n ∉ synced.getD ∅)) := by
  rw [getNodeIdsCurrNodeHasToSyncThePartitionTo, Finset.mem_filter, and_comm]
  refine and_congr_right fun _ => ?_
  simp only [any_old_iff, all_old_iff]
  -- an old replica sends to all the other holders
  by_cases hold : me ∈ t.olds p
  · have hne : t.olds p ≠ ∅ := Finset.ne_empty_of_mem hold
    simp only [hold, hne, if_true, true_and, false_and, or_false]
    cases hm : t.mapping[p]? with
    | none => simp [Partitions.holders, hm]
    | some e =>
      rw [holders_of_mapping hm, Partition.mem_holders]
      by_cases hmaster : e.master = me
      · subst hmaster
        simp only [ne_eq, not_true_eq_false, if_false, Finset.empty_union, Finset.mem_filter]
        constructor
        · rintro ⟨hr, hn⟩
          exact ⟨Or.inr hr, hn⟩
        · rintro ⟨hr | hr, hn⟩
          · exact absurd hr hn
          · exact ⟨hr, hn⟩
      · simp only [ne_eq, hmaster, not_false_eq_true, if_true, Finset.mem_union,
          Finset.mem_singleton, Finset.mem_filter]
        constructor
        · rintro (rfl | ⟨hr, hn⟩)
          · exact ⟨Or.inl rfl, hmaster⟩
          · exact ⟨Or.inr hr, hn⟩
        · rintro ⟨hr | hr, hn⟩
          · exact Or.inl hr
          · exact Or.inr ⟨hr, hn⟩
  · -- any other node sends only where there is no old replica, and to the new ones
    simp only [hold, if_false, false_and, false_or]
    by_cases hempty : t.olds p = ∅
    · simp only [hempty, if_true, true_and]
      cases hm : t.mapping[p]? with
      | none => simp [Partitions.holders, hm]
      | some e =>
        rw [holders_of_mapping hm, Partition.mem_holders]
        cases hnew : t.newReplicas[p]? with
        | none => simp
        | some new =>
          by_cases hsend : (e.master = me ∨ me ∈ e.replicas) ∧ me ∉ new
          · simp only [hsend, if_true, Option.some.injEq, exists_eq_left', not_false_eq_true,
              true_and, eq_comm (a := me)]
            cases synced <;> simp
          · simp only [hsend, if_false, Finset.notMem_empty, Option.some.injEq, exists_eq_left',
              false_iff, eq_comm (a := me)]
            rintro ⟨hme, hnot, -⟩
            exact hsend ⟨hme, hnot⟩
    · simp [hempty]

/-! ## After a recomputation -/

/-- The acknowledgements that follow a recomputation. -/
def acknowledge (t : Partitions) (acks : List (NodeId × PartitionId)) : Partitions :=
  acks.foldl (fun t ack => removeOldReplica t ack.1 ack.2) t

theorem mapping_acknowledge (t : Partitions) (acks : List (NodeId × PartitionId)) :
    (acknowledge t acks).mapping = t.mapping := by
  induction acks generalizing t with
  | nil => rfl
  | cons ack acks ih => exact (ih _).trans mapping_removeOldReplica

theorem newReplicas_acknowledge (t : Partitions) (acks : List (NodeId × PartitionId)) :
    (acknowledge t acks).newReplicas = t.newReplicas := by
  induction acks generalizing t with
  | nil => rfl
  | cons ack acks ih => exact (ih _).trans newReplicas_removeOldReplica

theorem holders_acknowledge (t : Partitions) (acks : List (NodeId × PartitionId))
    (p : PartitionId) : (acknowledge t acks).holders p = t.holders p := by
  rw [Partitions.holders, mapping_acknowledge, Partitions.holders]

open Worker in
/-- **Every connected worker that may have the records sends them to every
other holder it knows.** -/
theorem recipients_of_source {s : NodeId} {nodes : Map NodeId Node}
    {synced : Option (Finset NodeId)} (hs : s ∈ vec) (hsource : s ∈ t.holders p ∨ s ∈ t.olds p)
    (hn : n ∈ (recompute t rf vec).holders p) (hne : n ≠ s) (hknown : n ∈ nodes) :
    n ∈ getNodeIdsCurrNodeHasToSyncThePartitionTo p s (recompute t rf vec) nodes synced := by
  have hold : s ∈ (recompute t rf vec).olds p := by
    rw [olds_recompute, mem_olds_copy]
    exact ⟨hsource.symm, hs⟩
  exact mem_recipients.mpr ⟨hknown, Or.inl ⟨hold, hn, hne⟩⟩

open Worker in
/-- **Only holders are recipients.** -/
theorem recipients_subset (htidy : Tidy t) (me : NodeId) (nodes : Map NodeId Node)
    (synced : Option (Finset NodeId)) :
    getNodeIdsCurrNodeHasToSyncThePartitionTo p me t nodes synced ⊆ (t.holders p).erase me := by
  intro n hn
  rw [Finset.mem_erase]
  rcases (mem_recipients.mp hn).2 with ⟨-, hh, hne⟩ | ⟨-, -, new, hnew, hme, hin, -⟩
  · exact ⟨hne, hh⟩
  · refine ⟨?_, (htidy.held p new hnew).2 hin⟩
    rintro rfl
    exact hme hin

open Worker in
/-- **The second phase.** Without old replicas, a holder the mapping kept
sends to the known holders it gained, but those recorded as synced; any
other worker sends to nobody. -/
theorem recipients_of_no_old {t' : Partitions} (htidy : Tidy t) (hvec : vec ≠ []) (hrf : 1 ≤ rf)
    (hm : t'.mapping = (recompute t rf vec).mapping)
    (hnr : t'.newReplicas = (recompute t rf vec).newReplicas) (hempty : t'.olds p = ∅)
    (nodes : Map NodeId Node) (synced : Option (Finset NodeId)) (s : NodeId) :
    getNodeIdsCurrNodeHasToSyncThePartitionTo p s t' nodes synced =
      if s ∈ t'.holders p ∧ s ∈ t.holders p
      then (gained t rf vec p \ synced.getD ∅).filter (· ∈ nodes) else ∅ := by
  have hholders : t'.holders p = (recompute t rf vec).holders p := by
    rw [Partitions.holders, hm, Partitions.holders]
  ext n
  rw [mem_recipients, hempty, hholders, hnr]
  simp only [Finset.notMem_empty, false_and, false_or, true_and]
  cases hold : t.mapping[p]? with
  | none =>
    -- a partition new to the mapping: nothing is recorded as new of it
    have hnone : (recompute t rf vec).newReplicas[p]? = none := by
      rw [newReplicas_recompute_of_none hold]
      by_contra hne
      obtain ⟨new, hnew⟩ := Option.ne_none_iff_exists'.mp hne
      have hmem := (htidy.held p new hnew).1
      rw [Std.ExtTreeMap.mem_iff_isSome_getElem?, hold] at hmem
      cases hmem
    simp [hnone, Partitions.holders, hold]
  | some old =>
    rw [newReplicas_recompute hvec hrf (htidy.bounded p (mem_mapping_of_some hold)) hold]
    by_cases hs : s ∈ (recompute t rf vec).holders p ∧ s ∈ t.holders p
    · have hnot : s ∉ gained t rf vec p := fun h => (Finset.mem_sdiff.mp h).2 hs.2
      simp only [hs, and_self, if_true, Finset.mem_filter, Finset.mem_sdiff, true_and,
        Option.some.injEq, exists_eq_left', hnot, not_false_eq_true]
      exact and_comm
    · simp only [hs, if_false, Finset.notMem_empty, iff_false, Option.some.injEq,
        exists_eq_left']
      rintro ⟨-, hin, hnot, -⟩
      exact hnot (Finset.mem_sdiff.mpr ⟨hin, fun h => hs ⟨hin, h⟩⟩)

open Worker in
/-- **Every new holder has a source, and only holders are recipients.** Of
every table a leader reaches, and after a recomputation of it: every
connected worker that held a partition or was an old replica of it sends
to every other holder it knows; whatever acknowledgements follow, nobody
sends to a worker that is not another holder; and once the old replicas
of the partition are gone, the holders the mapping kept send to exactly
the known holders it gained that are not recorded as synced, which is
what `new_replicas` records, and the others to nobody. -/
theorem recipients_after_recomputation (t : Partitions) (ht : Reachable t) (rf : ℕ)
    (hrf : 1 ≤ rf) (vec : List NodeId) (hvec : vec ≠ []) (p : PartitionId)
    (nodes : Map NodeId Node) (synced : Option (Finset NodeId)) :
    (∀ s ∈ vec, s ∈ t.holders p ∨ s ∈ t.olds p →
      ∀ h ∈ (recompute t rf vec).holders p, h ≠ s → h ∈ nodes →
        h ∈ getNodeIdsCurrNodeHasToSyncThePartitionTo p s (recompute t rf vec) nodes synced) ∧
    ∀ acks : List (NodeId × PartitionId),
      let t' := acknowledge (recompute t rf vec) acks
      (∀ w, getNodeIdsCurrNodeHasToSyncThePartitionTo p w t' nodes synced ⊆
        (t'.holders p).erase w) ∧
      (t'.olds p = ∅ →
        (∀ s, s ∈ t'.holders p → s ∈ t.holders p →
          t'.newReplicas[p]? = some (t'.holders p \ t.holders p) ∧
          getNodeIdsCurrNodeHasToSyncThePartitionTo p s t' nodes synced =
            ((t'.holders p \ t.holders p) \ synced.getD ∅).filter (· ∈ nodes)) ∧
        ∀ s, s ∉ t'.holders p ∨ s ∉ t.holders p →
          getNodeIdsCurrNodeHasToSyncThePartitionTo p s t' nodes synced = ∅) := by
  have htidy := tidy_of_reachable ht
  refine ⟨fun s hs hsource h hh hne hknown => recipients_of_source hs hsource hh hne hknown, ?_⟩
  intro acks t'
  have hm := mapping_acknowledge (recompute t rf vec) acks
  have hnr := newReplicas_acknowledge (recompute t rf vec) acks
  have hholders := holders_acknowledge (recompute t rf vec) acks p
  have hgained : t'.holders p \ t.holders p = gained t rf vec p := by
    rw [gained, hholders]
  refine ⟨fun w => recipients_subset ((tidy_recompute htidy hvec hrf).congr hm hnr) w nodes
    synced, fun hempty => ⟨fun s hs hold => ⟨?_, ?_⟩, fun s hs => ?_⟩⟩
  · obtain ⟨e, he, -⟩ := Partitions.mem_holders.mp hold
    rw [hnr, hgained, newReplicas_recompute hvec hrf
      (htidy.bounded p (mem_mapping_of_some he)) he]
  · rw [recipients_of_no_old htidy hvec hrf hm hnr hempty, if_pos ⟨hs, hold⟩, hgained]
  · rw [recipients_of_no_old htidy hvec hrf hm hnr hempty, if_neg]
    rintro ⟨h1, h2⟩
    rcases hs with h | h
    · exact h h1
    · exact h h2

/-- With a replication factor of one, the first worker of the list holds
partition 0. -/
theorem first_holds_zero (t : Partitions) (w : NodeId) (ws : List NodeId) :
    w ∈ (recompute t 1 (w :: ws)).holders ⟨0⟩ := by
  have hne : w :: ws ≠ [] := by simp
  obtain ⟨e, he, hmaster, -⟩ := placement_spec hne 0 (le_refl 1)
  rw [replicaOf, calcReplicaIndex_zero (Nat.mod_lt _ (by simp))] at hmaster
  have hw : w = e.master := by simpa using hmaster
  rw [Partitions.mem_holders, mapping_recompute, getElem?_newMapping]
  exact ⟨e, by rw [if_pos partitionsAmount_pos, he], by rw [Partition.mem_holders]; exact Or.inl hw⟩

theorem recipients_after_recomputation_joined :
    (⟨2⟩ : NodeId) ∈ Worker.getNodeIdsCurrNodeHasToSyncThePartitionTo ⟨0⟩ ⟨3⟩
      (recompute (recompute default 1 [⟨3⟩]) 1 [⟨2⟩, ⟨3⟩])
      ((∅ : Map NodeId Node).insert ⟨2⟩ ⟨"b", 2, 0, .worker⟩) none :=
  (recipients_after_recomputation (recompute default 1 [⟨3⟩])
    (.recomputed _ _ _ .empty (by simp) le_rfl) 1 le_rfl [⟨2⟩, ⟨3⟩] (by simp) ⟨0⟩ _ none).1
    ⟨3⟩ (by simp) (Or.inl (first_holds_zero _ _ _)) ⟨2⟩ (first_holds_zero _ _ _) (by decide)
    (by simp)

end Manager

end NoSqlStore
