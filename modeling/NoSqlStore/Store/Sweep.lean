import NoSqlStore.Store.Expiry
/-!
# The two expiry paths

A put that has expired is erased by the next read of its key or by the
background scan, whichever comes first. The scan takes from every
partition what has expired by its clock, counts it, and drops the
partitions that hold nothing any more (`records_removeExpired`). A read at
that time or later shows only what it would have shown without the scan,
since what the scan has taken it would have taken itself: a store and its
swept copy are `Alike`, and reads keep them so (`expiry_paths_agree`).
-/

namespace NoSqlStore

open Runs

/-- **A put whose expiration time is set and not after `now`.** -/
def Mutation.Expires (now : ℕ) (m : Mutation) : Prop :=
  ∃ record, m = .put record ∧ 0 < record.expirationTimeMs ∧ record.expirationTimeMs ≤ now

theorem Mutation.expired_iff {now : ℕ} {m : Mutation} : m.expired now = true ↔ m.Expires now := by
  cases m with
  | put record => simp [expired, Expires, Nat.pos_iff_ne_zero]
  | delete deletionTimeMs => simp [expired, Expires]

/-- What has expired stays expired. -/
theorem Mutation.expired_mono {now later : ℕ} {m : Mutation} (hle : now ≤ later)
    (h : m.expired now = true) : m.expired later = true := by
  obtain ⟨record, rfl, hpos, hexp⟩ := expired_iff.mp h
  exact expired_iff.mpr ⟨record, rfl, hpos, hexp.trans hle⟩

/-- What a clock leaves of a mutation. -/
def unexpired (now : ℕ) (m : Option Mutation) : Option Mutation := m.filter fun m => !m.expired now

@[simp] theorem unexpired_none (now : ℕ) : unexpired now none = none := rfl

theorem unexpired_some_of_expired {now : ℕ} {m : Mutation} (h : m.expired now = true) :
    unexpired now (some m) = none := by
  rw [unexpired, Option.filter_some, h]
  rfl

theorem unexpired_some_of_not_expired {now : ℕ} {m : Mutation} (h : m.expired now = false) :
    unexpired now (some m) = some m := by
  rw [unexpired, Option.filter_some, h]
  rfl

theorem unexpired_eq_some {now : ℕ} {m : Mutation} {stored : Option Mutation} :
    unexpired now stored = some m ↔ stored = some m ∧ ¬ m.Expires now := by
  rw [unexpired, Option.filter_eq_some_iff, ← Mutation.expired_iff]
  simp

/-- A later clock takes all that an earlier one does. -/
theorem unexpired_unexpired {now later : ℕ} (hle : now ≤ later) (m : Option Mutation) :
    unexpired later (unexpired now m) = unexpired later m := by
  cases m with
  | none => rfl
  | some m =>
    by_cases hexp : m.expired now = true
    · rw [unexpired_some_of_expired hexp,
        unexpired_some_of_expired (Mutation.expired_mono hle hexp)]
      rfl
    · rw [unexpired_some_of_not_expired (Bool.eq_false_iff.mpr hexp)]

namespace RuntimeStore

variable {store store' : RuntimeStore} {p q : PartitionId} {k : Key} {m : Mutation} {now : ℕ}

/-! ## The scan of one partition -/

/-- The records of a partition that is there. -/
def recordsAt (store : RuntimeStore) (p : PartitionId) : Option (Map Key Mutation) :=
  store.cache[p]?.map PartitionStore.records

theorem partition_records (store : RuntimeStore) (p : PartitionId) :
    (store.partition p).records = (store.recordsAt p).getD ∅ := by
  rw [partition, recordsAt]
  cases store.cache[p]? <;> rfl

/-- What one expiry makes of the records of its partition. -/
def dropExpired (now : ℕ) (records : Map Key Mutation) (k : Key) : Map Key Mutation :=
  if records[k]?.any (Mutation.expired now) then records.erase k else records

theorem getElem?_dropExpired (records : Map Key Mutation) (key k : Key) :
    (dropExpired now records key)[k]? =
      if key = k then unexpired now records[k]? else records[k]? := by
  unfold dropExpired
  by_cases hk : key = k
  · subst hk
    rw [if_pos rfl]
    cases hm : records[key]? with
    | none => simp [hm]
    | some m =>
      cases hexp : m.expired now with
      | true => simp [hexp, unexpired_some_of_expired]
      | false => simp [hm, hexp, unexpired_some_of_not_expired]
  · split <;> simp [Std.ExtTreeMap.getElem?_erase, hk]

theorem recordsAt_expire (store : RuntimeStore) (k : Key) (now : ℕ) (p : PartitionId) :
    (store.expire k now).recordsAt p =
      if k.partition = p then (store.recordsAt p).map fun records => dropExpired now records k
      else store.recordsAt p := by
  simp only [recordsAt, expire, dropWriter, removeEntry, enterWriter, modify,
    Std.ExtTreeMap.getElem?_alter, compare_eq_iff_eq]
  split
  · rename_i hp
    subst hp
    cases store.cache[k.partition]? with
    | none => simp
    | some s =>
      simp only [if_true, Option.map_some, dropExpired]
      split <;> rfl
  · rfl

/-- Expiries of keys of one partition. -/
theorem recordsAt_foldl_expire {l : List (Key × Mutation)} (hl : ∀ e ∈ l, e.1.partition = q)
    (store : RuntimeStore) (p : PartitionId) :
    (l.foldl (fun store e => store.expire e.1 now) store).recordsAt p =
      if q = p then (store.recordsAt p).map fun records =>
        l.foldl (fun records e => dropExpired now records e.1) records
      else store.recordsAt p := by
  induction l generalizing store with
  | nil => split <;> simp
  | cons e l ih =>
    have hq : e.1.partition = q := hl e List.mem_cons_self
    rw [List.foldl_cons, ih (fun e he => hl e (List.mem_cons_of_mem _ he)), recordsAt_expire, hq]
    split
    · rw [Option.map_map]
      rfl
    · rfl

theorem getElem?_foldl_dropExpired (l : List (Key × Mutation)) (records : Map Key Mutation)
    (k : Key) :
    (l.foldl (fun records e => dropExpired now records e.1) records)[k]? =
      if k ∈ l.map Prod.fst then unexpired now records[k]? else records[k]? := by
  induction l generalizing records with
  | nil => rfl
  | cons e l ih =>
    rw [List.foldl_cons, ih, getElem?_dropExpired]
    by_cases hk : e.1 = k
    · have hin : k ∈ (e :: l).map Prod.fst := List.mem_cons.mpr (Or.inl hk.symm)
      rw [if_pos hk, if_pos hin, unexpired_unexpired le_rfl, ite_self]
    · have hin : k ∈ (e :: l).map Prod.fst ↔ k ∈ l.map Prod.fst := by
        rw [List.map_cons, List.mem_cons, or_iff_right (Ne.symm hk)]
      rw [if_neg hk]
      simp only [hin]

/-- The records that have not expired. -/
def unexpiredRecords (now : ℕ) (records : Map Key Mutation) : Map Key Mutation :=
  records.filter fun _ m => !m.expired now

theorem getElem?_unexpiredRecords (records : Map Key Mutation) (k : Key) :
    (unexpiredRecords now records)[k]? = unexpired now records[k]? :=
  Std.ExtTreeMap.getElem?_filter'

/-- **The keys that have expired are taken, and no other.** -/
theorem foldl_dropExpired (records : Map Key Mutation) :
    (records.toList.filter fun e => e.2.expired now).foldl
        (fun records e => dropExpired now records e.1) records = unexpiredRecords now records := by
  refine Std.ExtTreeMap.ext_getElem? fun k => ?_
  rw [getElem?_foldl_dropExpired, getElem?_unexpiredRecords]
  split
  · rfl
  · rename_i hk
    cases hm : records[k]? with
    | none => rfl
    | some m =>
      refine (unexpired_some_of_not_expired ?_).symm
      -- left out of the list, it had not expired
      by_contra hexp
      have hin : (k, m) ∈ records.toList.filter fun e => e.2.expired now :=
        List.mem_filter.mpr ⟨Map.mem_toList.mpr hm, by simpa using hexp⟩
      exact hk (List.mem_map.mpr ⟨(k, m), hin, rfl⟩)

theorem recordsAt_removePartitionIfEmpty (store : RuntimeStore) (q p : PartitionId) :
    (store.removePartitionIfEmpty q).recordsAt p =
      if q = p then (store.recordsAt p).filter fun records => !records.isEmpty
      else store.recordsAt p := by
  unfold removePartitionIfEmpty
  by_cases hq : q = p
  · subst hq
    rw [if_pos rfl]
    cases hc : store.cache[q]? with
    | none => simp [recordsAt, hc]
    | some s =>
      cases hempty : s.records.isEmpty with
      | true => simp [recordsAt, hc, hempty, removePartition, Option.filter]
      | false => simp [recordsAt, hc, hempty, Option.filter]
  · rw [if_neg hq]
    split
    · rw [recordsAt, removePartition, Std.ExtTreeMap.getElem?_erase,
        if_neg fun heq => hq (compare_eq_iff_eq.mp heq), recordsAt]
    · rfl

/-- What a scan leaves of the records of a partition, and whether it leaves
the partition. -/
def swept (now : ℕ) (records : Option (Map Key Mutation)) : Option (Map Key Mutation) :=
  (records.map (unexpiredRecords now)).filter fun records => !records.isEmpty

theorem recordsAt_removeExpiredOf (hw : store.WellFormed) (q p : PartitionId) (now : ℕ) :
    (store.removeExpiredOf q now).recordsAt p =
      if q = p then swept now (store.recordsAt p) else store.recordsAt p := by
  -- every expiry of the loop is of a key of this partition
  have hkeys : ∀ e ∈ (store.partition q).records.toList.filter fun e => e.2.expired now,
      e.1.partition = q := by
    intro e he
    exact hw.keys q e.1 e.2 (Map.mem_toList.mp (List.mem_filter.mp he).1)
  rw [removeExpiredOf, recordsAt_removePartitionIfEmpty, recordsAt_foldl_expire hkeys]
  split
  · rename_i hq
    subst hq
    rw [swept]
    congr 1
    cases hr : store.recordsAt q with
    | none => rfl
    | some records =>
      rw [partition_records, hr, Option.getD_some, Option.map_some, Option.map_some,
        foldl_dropExpired]
  · rfl

/-- Scanning twice takes no more. -/
theorem swept_swept (now : ℕ) (records : Option (Map Key Mutation)) :
    swept now (swept now records) = swept now records := by
  cases records with
  | none => rfl
  | some records =>
    have htwice : unexpiredRecords now (unexpiredRecords now records) =
        unexpiredRecords now records := by
      refine Std.ExtTreeMap.ext_getElem? fun k => ?_
      rw [getElem?_unexpiredRecords, getElem?_unexpiredRecords, unexpired_unexpired le_rfl]
    simp only [swept, Option.map_some, Option.filter_some]
    split
    · rename_i hleft
      rw [Option.map_some, htwice, Option.filter_some, if_pos hleft]
    · rfl

/-! ## The whole scan -/

theorem recordsAt_foldl_removeExpiredOf (l : List PartitionId) (hw : store.WellFormed)
    (p : PartitionId) (now : ℕ) :
    (l.foldl (fun store q => store.removeExpiredOf q now) store).recordsAt p =
      if p ∈ l then swept now (store.recordsAt p) else store.recordsAt p := by
  induction l generalizing store with
  | nil => rfl
  | cons q l ih =>
    rw [List.foldl_cons, ih (evolution_removeExpiredOf q now hw).1, recordsAt_removeExpiredOf hw]
    by_cases hq : q = p
    · rw [if_pos hq, if_pos (List.mem_cons.mpr (Or.inl hq.symm)), swept_swept, ite_self]
    · have hin : p ∈ q :: l ↔ p ∈ l := by rw [List.mem_cons, or_iff_right (Ne.symm hq)]
      rw [if_neg hq]
      simp only [hin]

/-- **The scan sweeps every partition.** -/
theorem recordsAt_removeExpired (hw : store.WellFormed) (p : PartitionId) (now : ℕ) :
    (store.removeExpired now).recordsAt p = swept now (store.recordsAt p) := by
  rw [removeExpired, recordsAt_foldl_removeExpiredOf _ hw]
  split
  · rfl
  · rename_i hp
    -- a partition that is not there is not scanned, and none comes of it
    have hnone : store.recordsAt p = none := by
      rw [recordsAt, Std.ExtTreeMap.getElem?_eq_none (by simpa using hp)]
      rfl
    rw [hnone]
    rfl

theorem records_removeExpired (hw : store.WellFormed) (p : PartitionId) (k : Key) (now : ℕ) :
    ((store.removeExpired now).partition p).records[k]? =
      unexpired now (store.partition p).records[k]? := by
  rw [partition_records, recordsAt_removeExpired hw, partition_records, swept]
  cases store.recordsAt p with
  | none => rfl
  | some records =>
    rw [Option.map_some, Option.filter_some, Option.getD_some, ← getElem?_unexpiredRecords]
    split
    · rfl
    · rename_i hempty
      rw [Bool.not_eq_true, Bool.not_eq_false', Std.ExtTreeMap.isEmpty_iff] at hempty
      rw [hempty]
      rfl

/-- **The partitions left without records are dropped, and no other.** -/
theorem mem_cache_removeExpired (hw : store.WellFormed) (p : PartitionId) (now : ℕ) :
    p ∈ (store.removeExpired now).cache ↔
      ∃ (k : Key) (m : Mutation),
        ((store.removeExpired now).partition p).records[k]? = some m := by
  have hswept := recordsAt_removeExpired hw p now
  have hmem : p ∈ (store.removeExpired now).cache ↔
      ∃ records, (store.removeExpired now).recordsAt p = some records := by
    rw [← Std.ExtTreeMap.isSome_getElem?_iff_mem, ← Option.isSome_iff_exists, recordsAt,
      Option.isSome_map]
  rw [hmem]
  constructor
  · rintro ⟨records, hrecords⟩
    have hleft : records.isEmpty = false := by
      rw [hswept, swept, Option.filter_eq_some_iff] at hrecords
      simpa using hrecords.2
    -- what the scan leaves is not empty, so it has a key
    have hne : ¬ ∀ k : Key, records[k]? = none := fun hnone =>
      Std.ExtTreeMap.isEmpty_eq_false_iff.mp hleft
        (Std.ExtTreeMap.ext_getElem? fun k => by rw [hnone k, Std.ExtTreeMap.getElem?_empty])
    obtain ⟨k, hk⟩ := not_forall.mp hne
    obtain ⟨m, hm⟩ := Option.ne_none_iff_exists'.mp hk
    refine ⟨k, m, ?_⟩
    rw [partition_records, hrecords]
    exact hm
  · rintro ⟨k, m, hm⟩
    rw [partition_records] at hm
    cases hrecords : (store.removeExpired now).recordsAt p with
    | none =>
      rw [hrecords] at hm
      cases hm
    | some records => exact ⟨records, rfl⟩

/-- How many records of a partition have expired. -/
def expiredIn (store : RuntimeStore) (now : ℕ) (p : PartitionId) : ℕ :=
  ((store.partition p).records.toList.filter fun e => e.2.expired now).length

theorem expiredIn_removeExpiredOf (hw : store.WellFormed) (hne : q ≠ p) :
    (store.removeExpiredOf q now).expiredIn now p = store.expiredIn now p := by
  rw [expiredIn, partition_records, recordsAt_removeExpiredOf hw, if_neg hne, ← partition_records]
  rfl

/-- The loop of the scan, over some of the partitions. -/
theorem foldl_removeExpiredCounted {l : List PartitionId} (hl : l.Nodup) (hw : store.WellFormed)
    (removed : ℕ) :
    l.foldl (fun (removed, store) partition =>
      let expired := (store.partition partition).records.toList.filter fun e => e.2.expired now
      (removed + expired.length, store.removeExpiredOf partition now)) (removed, store) =
    (removed + (l.map (store.expiredIn now)).sum,
      l.foldl (fun store q => store.removeExpiredOf q now) store) := by
  induction l generalizing store removed with
  | nil => rfl
  | cons q l ih =>
    obtain ⟨hq, hl⟩ := List.nodup_cons.mp hl
    -- a partition is counted when its turn comes; the turns before leave its count
    have hothers : l.map ((store.removeExpiredOf q now).expiredIn now) =
        l.map (store.expiredIn now) :=
      List.map_congr_left fun p hp => expiredIn_removeExpiredOf hw fun heq => hq (heq ▸ hp)
    rw [List.foldl_cons, ih hl (evolution_removeExpiredOf q now hw).1, hothers, List.map_cons,
      List.sum_cons, ← Nat.add_assoc]
    rfl

/-- **The scan counts what it takes.** -/
theorem removeExpiredCounted_eq (hw : store.WellFormed) (now : ℕ) :
    store.removeExpiredCounted now =
      ((store.cache.keys.map (store.expiredIn now)).sum, store.removeExpired now) := by
  rw [removeExpiredCounted, foldl_removeExpiredCounted Std.ExtTreeMap.nodup_keys hw, Nat.zero_add]
  rfl

/-! ## Reads -/

theorem getVersioned_fst (store : RuntimeStore) (k : Key) (now : ℕ) :
    (store.getVersioned k now).1 = unexpired now (store.stored k) := by
  rw [getVersioned, stored]
  cases (store.partition k.partition).records[k]? with
  | none => rfl
  | some m =>
    dsimp only
    split
    · rename_i hexp
      rw [unexpired_some_of_expired hexp]
    · rename_i hexp
      rw [unexpired_some_of_not_expired (Bool.eq_false_iff.mpr hexp)]

theorem stored_expire (store : RuntimeStore) (key k : Key) (now : ℕ) :
    (store.expire key now).stored k =
      if key = k then unexpired now (store.stored k) else store.stored k := by
  rw [stored, partition_records, recordsAt_expire, stored, partition_records]
  by_cases hp : key.partition = k.partition
  · rw [if_pos hp]
    cases store.recordsAt k.partition with
    | none => split <;> rfl
    | some records => exact getElem?_dropExpired records key k
  · rw [if_neg hp, if_neg fun heq => hp (congrArg Key.partition heq)]

/-- A read takes the record of its key, if that has expired. -/
theorem stored_getVersioned (store : RuntimeStore) (key k : Key) (now : ℕ) :
    (store.getVersioned key now).2.stored k =
      if key = k then unexpired now (store.stored k) else store.stored k := by
  have hunchanged : (∀ m, store.stored key = some m → m.expired now = false) →
      store.stored k = if key = k then unexpired now (store.stored k) else store.stored k := by
    intro hkept
    split
    · rename_i hk
      subst hk
      cases hm : store.stored key with
      | none => rfl
      | some m => rw [unexpired_some_of_not_expired (hkept m hm)]
    · rfl
  rw [getVersioned]
  split
  · rename_i m hm
    split
    · rw [stored_removePartitionIfEmpty, stored_expire]
    · rename_i hexp
      refine hunchanged fun m' hm' => ?_
      rw [Option.some.inj (hm'.symm.trans hm)]
      exact Bool.eq_false_iff.mpr hexp
  · rename_i hnone
    exact hunchanged fun m hm => absurd (hm.symm.trans hnone) (Option.some_ne_none m)

/-- The results of some reads, each with its reading of the clock. -/
def readAll (store : RuntimeStore) : List (Key × ℕ) → List (Option Mutation)
  | [] => []
  | (k, now) :: reads =>
    (store.getVersioned k now).1 :: (store.getVersioned k now).2.readAll reads

/-- **Two stores a clock cannot tell apart.** -/
def Alike (now : ℕ) (store store' : RuntimeStore) : Prop :=
  ∀ k, unexpired now (store.stored k) = unexpired now (store'.stored k)

/-- Nor can a later one. -/
theorem Alike.mono {later : ℕ} (h : Alike now store store') (hle : now ≤ later) :
    Alike later store store' := by
  intro k
  rw [← unexpired_unexpired hle, h k, unexpired_unexpired hle]

theorem Alike.getVersioned {later : ℕ} (h : Alike now store store') (hle : now ≤ later)
    (key : Key) :
    Alike now (store.getVersioned key later).2 (store'.getVersioned key later).2 := by
  intro k
  rw [stored_getVersioned, stored_getVersioned]
  split
  · rw [h.mono hle k]
  · exact h k

theorem Alike.readAll {reads : List (Key × ℕ)} (h : Alike now store store')
    (hreads : ∀ e ∈ reads, now ≤ e.2) : store.readAll reads = store'.readAll reads := by
  induction reads generalizing store store' with
  | nil => rfl
  | cons e reads ih =>
    have hle : now ≤ e.2 := hreads e List.mem_cons_self
    rw [RuntimeStore.readAll, RuntimeStore.readAll, getVersioned_fst, getVersioned_fst,
      h.mono hle e.1,
      ih (h.getVersioned hle e.1) fun e he => hreads e (List.mem_cons_of_mem _ he)]

theorem alike_removeExpired (hw : store.WellFormed) (now : ℕ) :
    Alike now (store.removeExpired now) store := by
  intro k
  rw [stored, records_removeExpired hw, unexpired_unexpired le_rfl, stored]

/-- **The two expiry paths agree.** -/
theorem expiry_paths_agree (ops : List StoreOperation) (now : ℕ) (reads : List (Key × ℕ))
    (hreads : ∀ e ∈ reads, now ≤ e.2) :
    let store := run operate default ops
    (∀ (p : PartitionId) (k : Key) (m : Mutation),
      ((store.removeExpired now).partition p).records[k]? = some m ↔
        (store.partition p).records[k]? = some m ∧ ¬ m.Expires now) ∧
    (∀ p : PartitionId, p ∈ (store.removeExpired now).cache ↔
      ∃ (k : Key) (m : Mutation),
        ((store.removeExpired now).partition p).records[k]? = some m) ∧
    store.removeExpiredCounted now =
      ((store.cache.keys.map (store.expiredIn now)).sum, store.removeExpired now) ∧
    (store.removeExpired now).readAll reads = store.readAll reads := by
  intro store
  have hw : store.WellFormed := wellFormed_operations ops
  refine ⟨fun p k m => ?_, fun p => mem_cache_removeExpired hw p now,
    removeExpiredCounted_eq hw now, (alike_removeExpired hw now).readAll hreads⟩
  rw [records_removeExpired hw, unexpired_eq_some]

/-- A put that has expired, one that has not and a deletion, in two
partitions; the reads come at the time of the scan and after it. -/
def sweptOperations : List StoreOperation :=
  [.event (.put ⟨0⟩ ⟨10, 5, [1]⟩), .event (.put ⟨1⟩ ⟨10, 5, [2]⟩), .event (.deleteAt ⟨1⟩ 6),
    .event (.put ⟨4096⟩ ⟨11, 5, [3]⟩)]

theorem expiry_paths_agree_swept :
    (((run operate default sweptOperations).removeExpired 10).partition ⟨0⟩).records[(⟨0⟩ : Key)]? =
      none ∧
    ((run operate default sweptOperations).removeExpired 10).readAll
      [(⟨0⟩, 10), (⟨4096⟩, 10), (⟨1⟩, 20), (⟨4096⟩, 11)] =
        [none, some (.put ⟨11, 5, [3]⟩), some (.delete 6), none] := by
  have hreads : ∀ e ∈ [((⟨0⟩ : Key), 10), (⟨4096⟩, 10), (⟨1⟩, 20), (⟨4096⟩, 11)], 10 ≤ e.2 := by
    decide
  have hstored : ((run operate default sweptOperations).partition ⟨0⟩).records[(⟨0⟩ : Key)]? =
      some (.put ⟨10, 5, [1]⟩) := by decide +kernel
  obtain ⟨hrecords, -, -, hagree⟩ := expiry_paths_agree sweptOperations 10 _ hreads
  refine ⟨?_, by rw [hagree]; decide +kernel⟩
  cases hm : (((run operate default sweptOperations).removeExpired 10).partition ⟨0⟩).records[
      (⟨0⟩ : Key)]? with
  | none => rfl
  | some m =>
    obtain ⟨hwas, hkept⟩ := (hrecords ⟨0⟩ ⟨0⟩ m).mp hm
    rw [hstored] at hwas
    cases hwas
    exact absurd ⟨_, rfl, by decide, by decide⟩ hkept

end RuntimeStore

end NoSqlStore
