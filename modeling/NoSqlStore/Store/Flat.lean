import NoSqlStore.Common.Replies
import NoSqlStore.Store.Sweep
import NoSqlStore.Sync.Tick
/-!
# The store as one ordered map

What the runtime store is for, said without its partitions, journals,
revisions and writers: one ordered map from keys to mutations, in which a
newer mutation of a key replaces an older one, a put past its time is gone
when it is looked at or scanned for, and a partition is the keys of one
residue. `Flat.call` is that map with the calls of the store. The store
refines it (`refines_flat`): a flat map holds what the store has under
every key, and each call keeps it so and replies the same. So the journal
and the writers a call leaves behind, the partitions that appear with a
first record and vanish with the last, and where a record lies, are not to
be seen in any reply (`store_is_one_map`). The two calls left out,
`stable_partition_revision` and `get_partition_changes`, read the journal
itself.
-/

namespace NoSqlStore

open Replies

/-- The calls of a store, and the parts of an expiry. -/
inductive Call
  | put (key : Key) (record : Record)
  | deleteAt (key : Key) (deletionTimeMs : ℕ)
  | syncBatch (request : Worker.SyncBatchRequest)
  | getVersioned (key : Key) (nowMs : ℕ)
  | removeExpired (nowMs : ℕ)
  | getPartitionMutations (partition : PartitionId) (amount : ℕ) (afterKey : Option Key)
  | removePartition (partition : PartitionId)
  | removePartitionIfEmpty (partition : PartitionId)
  | prunePartitionChanges (partition : PartitionId) (throughRevision : ℕ)
  | enterWriter (partition : PartitionId)
  | removeEntry (key : Key) (nowMs : ℕ)
  | dropWriter (partition : PartitionId)

/-- What a call returns. -/
inductive Reply
  | done
  | answered (response : Worker.WorkerProtocol)
  | found (mutation : Option Mutation)
  | removed (amount : ℕ)
  | listed (records : List (Key × Mutation))

/-- The store under a call. -/
def RuntimeStore.call (store : RuntimeStore) : Call → Reply × RuntimeStore
  | .put key record => (.done, store.put key record)
  | .deleteAt key deletionTimeMs => (.done, store.deleteAt key deletionTimeMs)
  | .syncBatch request =>
    let (store, response) := Worker.handleSyncBatch store request
    (.answered response, store)
  | .getVersioned key nowMs =>
    let (mutation, store) := store.getVersioned key nowMs
    (.found mutation, store)
  | .removeExpired nowMs =>
    let (amount, store) := store.removeExpiredCounted nowMs
    (.removed amount, store)
  | .getPartitionMutations partition amount afterKey =>
    (.listed (store.getPartitionMutations partition amount afterKey), store)
  | .removePartition partition => (.done, store.removePartition partition)
  | .removePartitionIfEmpty partition => (.done, store.removePartitionIfEmpty partition)
  | .prunePartitionChanges partition throughRevision =>
    (.done, store.prunePartitionChanges partition throughRevision)
  | .enterWriter partition => (.done, store.enterWriter partition)
  | .removeEntry key nowMs => (.done, store.removeEntry key nowMs)
  | .dropWriter partition => (.done, store.dropWriter partition)

/-! ## The map -/

/-- One ordered map from keys to mutations. -/
abbrev Flat := Map Key Mutation

namespace Flat

variable (flat : Flat)

/-- A mutation is written over one that is no newer. -/
def write (key : Key) (mutation : Mutation) : Flat :=
  flat.alter key fun old => LastWrite.write Mutation.version old mutation

/-- A put past its time is gone. -/
def age (key : Key) (nowMs : ℕ) : Flat := flat.alter key (unexpired nowMs)

/-- The keys of a partition. -/
def part (partition : PartitionId) : Flat := flat.filter fun key _ => key.partition = partition

/-- The map under a call. -/
def call (flat : Flat) : Call → Reply × Flat
  | .put key record => (.done, flat.write key (.put record))
  | .deleteAt key deletionTimeMs => (.done, flat.write key (.delete deletionTimeMs))
  | .syncBatch request =>
    (.answered (.syncBatchResponse request.senderId (Worker.maxAppliedKeys request.records)),
      request.records.foldl (fun flat record => flat.write record.key record.mutation) flat)
  | .getVersioned key nowMs => (.found (unexpired nowMs flat[key]?), flat.age key nowMs)
  | .removeExpired nowMs =>
    (.removed (flat.toList.filter fun e => e.2.expired nowMs).length,
      RuntimeStore.unexpiredRecords nowMs flat)
  | .getPartitionMutations partition amount afterKey =>
    (.listed ((flat.part partition).pageAfter afterKey amount), flat)
  | .removePartition partition => (.done, flat.filter fun key _ => key.partition ≠ partition)
  | .removeEntry key nowMs => (.done, flat.age key nowMs)
  | .removePartitionIfEmpty _ | .prunePartitionChanges _ _ | .enterWriter _ | .dropWriter _ =>
    (.done, flat)

end Flat

namespace RuntimeStore

variable {store : RuntimeStore} {flat : Flat} {k : Key} {m : Mutation} {now : ℕ}

/-- What a flat map says a store has under each key. -/
structure Stores (store : RuntimeStore) (flat : Flat) : Prop where
  wellFormed : store.WellFormed
  stored : ∀ k, store.stored k = flat[k]?

theorem stores_default : Stores default ∅ := by
  refine ⟨wellFormed_default, fun k => ?_⟩
  rw [RuntimeStore.stored, partition_default]
  simp [default]

/-! ## Writes -/

theorem Stores.applyMutation (h : Stores store flat) (key : Key) (mutation : Mutation) :
    Stores (store.applyMutation key mutation) (flat.write key mutation) := by
  refine ⟨(evolution_applyMutation key mutation h.wellFormed).1, fun k => ?_⟩
  have hk := h.stored k
  rw [RuntimeStore.stored] at hk
  rw [RuntimeStore.stored, records_applyMutation, Flat.write, Std.ExtTreeMap.getElem?_alter, hk]
  by_cases hkey : key = k
  · subst hkey
    simp
  · rw [if_neg fun hc => hkey hc.1, if_neg fun hc => hkey (compare_eq_iff_eq.1 hc)]

theorem Stores.syncBatch (h : Stores store flat) (request : Worker.SyncBatchRequest) :
    Stores (Worker.handleSyncBatch store request).1
      (request.records.foldl (fun flat record => flat.write record.key record.mutation) flat) := by
  have hall : (Worker.handleSyncBatch store request).1 =
      store.applyAll (request.records.map fun record => (record.key, record.mutation)) :=
    write_eq_applyAll store (.syncBatch request)
  rw [hall, applyAll, List.foldl_map]
  clear hall
  generalize request.records = records
  induction records generalizing store flat with
  | nil => exact h
  | cons record records ih =>
    exact ih (h.applyMutation record.key record.mutation)

/-! ## Expiry -/

theorem getElem?_age (flat : Flat) (key k : Key) (now : ℕ) :
    (flat.age key now)[k]? = if key = k then unexpired now flat[k]? else flat[k]? := by
  rw [Flat.age, Std.ExtTreeMap.getElem?_alter]
  by_cases hkey : key = k
  · subst hkey
    simp
  · rw [if_neg fun hc => hkey (compare_eq_iff_eq.1 hc), if_neg hkey]

theorem stored_removeEntry (store : RuntimeStore) (key k : Key) (now : ℕ) :
    (store.removeEntry key now).stored k =
      if key = k then unexpired now (store.stored k) else store.stored k := by
  by_cases hp : key.partition = k.partition
  · have hrecords : ((store.removeEntry key now).partition k.partition).records =
        dropExpired now (store.partition k.partition).records key := by
      rw [partition_removeEntry, dropExpired]
      by_cases hexp : (store.partition k.partition).records[key]?.any (Mutation.expired now) = true
      · rw [if_pos ⟨hp, hexp⟩, if_pos hexp]
      · rw [if_neg fun hc => hexp hc.2, if_neg hexp]
    rw [stored, hrecords, getElem?_dropExpired, ← stored]
  · rw [stored, partition_removeEntry, if_neg fun hc => hp hc.1, ← stored,
      if_neg fun heq => hp (congrArg Key.partition heq)]

/-- A call that ages one key ages it in the map. -/
theorem Stores.age {store' : RuntimeStore} (h : Stores store flat) (hw : store'.WellFormed)
    {key : Key} (hstored : ∀ k, store'.stored k =
      if key = k then unexpired now (store.stored k) else store.stored k) :
    Stores store' (flat.age key now) := by
  refine ⟨hw, fun k => ?_⟩
  rw [hstored, getElem?_age, h.stored]

/-- A call that leaves what is stored leaves the map. -/
theorem Stores.keep {store' : RuntimeStore} (h : Stores store flat) (hw : store'.WellFormed)
    (hstored : ∀ k, store'.stored k = store.stored k) : Stores store' flat :=
  ⟨hw, fun k => by rw [hstored, h.stored]⟩

/-! ## The scans -/

theorem mem_keys_of_records {p : PartitionId} (hk : (store.partition p).records[k]? = some m) :
    p ∈ store.cache.keys := by
  rw [Std.ExtTreeMap.mem_keys]
  by_contra hp
  rw [partition, Std.ExtTreeMap.getElem?_eq_none hp] at hk
  simp [default] at hk

theorem Stores.mem_toList (h : Stores store flat) {e : Key × Mutation} {p : PartitionId} :
    e ∈ (store.partition p).records.toList ↔ e ∈ flat.toList ∧ e.1.partition = p := by
  obtain ⟨k, m⟩ := e
  rw [Map.mem_toList, Map.mem_toList, ← h.stored]
  constructor
  · intro hk
    have hp := h.wellFormed.keys p k m hk
    rw [← hp] at hk
    exact ⟨hk, hp⟩
  · rintro ⟨hk, rfl⟩
    exact hk

/-- **The expired records**, partition by partition and all at once. -/
theorem Stores.expired_perm (h : Stores store flat) (now : ℕ) :
    (store.cache.keys.flatMap fun p =>
      (store.partition p).records.toList.filter fun e => e.2.expired now).Perm
      (flat.toList.filter fun e => e.2.expired now) := by
  refine (List.perm_ext_iff_of_nodup ?_ ?_).2 fun e => ?_
  · rw [List.nodup_flatMap]
    refine ⟨fun p _ => (Map.nodup_of_sorted (Map.sorted_toList _)).filter _, ?_⟩
    refine List.Pairwise.imp ?_ Std.ExtTreeMap.nodup_keys
    -- An entry lies in the partition of its key only.
    intro p q hne e hp hq
    rw [List.mem_filter, h.mem_toList] at hp hq
    exact hne (hp.1.2.symm.trans hq.1.2)
  · exact (Map.nodup_of_sorted (Map.sorted_toList _)).filter _
  · rw [List.mem_flatMap, List.mem_filter]
    constructor
    · rintro ⟨p, -, he⟩
      rw [List.mem_filter, h.mem_toList] at he
      exact ⟨he.1.1, he.2⟩
    · rintro ⟨he, hexp⟩
      have hmem : e ∈ (store.partition e.1.partition).records.toList := h.mem_toList.2 ⟨he, rfl⟩
      exact ⟨e.1.partition, mem_keys_of_records (Map.mem_toList.1 hmem),
        List.mem_filter.2 ⟨hmem, hexp⟩⟩

theorem Stores.removeExpired (h : Stores store flat) (now : ℕ) :
    Stores (store.removeExpired now) (unexpiredRecords now flat) := by
  refine ⟨(evolution_apply store (.removeExpired now) h.wellFormed).1, fun k => ?_⟩
  have hk := h.stored k
  rw [RuntimeStore.stored] at hk
  rw [RuntimeStore.stored, records_removeExpired h.wellFormed, getElem?_unexpiredRecords, hk]

/-- **The number a sweep returns** is the number of the map's expired
records. -/
theorem Stores.removeExpiredCounted (h : Stores store flat) (now : ℕ) :
    (store.removeExpiredCounted now).1 = (flat.toList.filter fun e => e.2.expired now).length := by
  rw [removeExpiredCounted_eq h.wellFormed, ← (h.expired_perm now).length_eq, List.length_flatMap]
  rfl

/-- **A page of a partition** is a page of the keys of its residue. -/
theorem Stores.records_eq (h : Stores store flat) (p : PartitionId) :
    (store.partition p).records = flat.part p := by
  refine Std.ExtTreeMap.ext_getElem? fun k => Option.ext fun m => ?_
  rw [← Map.mem_toList, h.mem_toList, Map.mem_toList, Flat.part, Std.ExtTreeMap.getElem?_filter']
  simp [Option.filter_eq_some_iff]

theorem Stores.removePartition (h : Stores store flat) (p : PartitionId) :
    Stores (store.removePartition p) (flat.filter fun key _ => key.partition ≠ p) := by
  refine ⟨(evolution_removePartition p h.wellFormed).1, fun k => ?_⟩
  have hk := h.stored k
  rw [RuntimeStore.stored] at hk
  rw [RuntimeStore.stored, partition_removePartition, Std.ExtTreeMap.getElem?_filter']
  by_cases hp : p = k.partition
  · subst hp
    simp [default]
  · rw [if_neg hp, hk]
    cases flat[k]? <;> simp [Ne.symm hp, Option.filter]

/-! ## The calls -/

theorem reply_flat (h : Stores store flat) (c : Call) :
    (store.call c).1 = (flat.call c).1 := by
  cases c with
  | getVersioned key nowMs =>
    show Reply.found (store.getVersioned key nowMs).1 = _
    rw [getVersioned_fst, h.stored]
    rfl
  | removeExpired nowMs =>
    show Reply.removed (store.removeExpiredCounted nowMs).1 = _
    rw [h.removeExpiredCounted]
    rfl
  | getPartitionMutations p amount afterKey =>
    show Reply.listed (store.getPartitionMutations p amount afterKey) = _
    rw [Worker.getPartitionMutations_eq, h.records_eq]
    rfl
  | _ => rfl

theorem stores_call (h : Stores store flat) (c : Call) :
    Stores (store.call c).2 (flat.call c).2 := by
  have hw := h.wellFormed
  cases c with
  | put key record => exact h.applyMutation key (.put record)
  | deleteAt key deletionTimeMs => exact h.applyMutation key (.delete deletionTimeMs)
  | syncBatch request => exact h.syncBatch request
  | getVersioned key nowMs =>
    exact h.age (evolution_apply store (.getVersioned key nowMs) hw).1
      fun k => stored_getVersioned store key k nowMs
  | removeExpired nowMs =>
    show Stores (store.removeExpiredCounted nowMs).2 _
    rw [removeExpiredCounted_eq hw]
    exact h.removeExpired nowMs
  | getPartitionMutations p amount afterKey => exact h
  | removePartition p => exact h.removePartition p
  | removePartitionIfEmpty p =>
    exact h.keep (evolution_removePartitionIfEmpty p hw).1
      fun k => stored_removePartitionIfEmpty p
  | prunePartitionChanges p r =>
    refine h.keep (wellFormed_prune hw r) fun k => ?_
    show (store.prunePartitionChanges p r).stored k = _
    rw [stored, partition_prune, stored]
    split <;> rfl
  | enterWriter p => exact h.keep (evolution_enterWriter p hw).1 fun k => stored_enterWriter p
  | removeEntry key nowMs =>
    exact h.age (evolution_removeEntry key nowMs hw).1
      fun k => stored_removeEntry store key k nowMs
  | dropWriter p => exact h.keep (evolution_dropWriter p hw).1 fun k => stored_dropWriter p

/-- **The store refines the map**, call by call. -/
theorem refines_flat : Refines call Flat.call Stores :=
  ⟨fun _ _ c h => reply_flat h c, fun _ _ c h => stores_call h c⟩

end RuntimeStore

/-- **The store is one map.** Whatever the calls and in whatever order,
their replies are those of an ordered map. -/
theorem store_is_one_map (calls : List Call) :
    replies RuntimeStore.call default calls = replies Flat.call ∅ calls :=
  RuntimeStore.refines_flat.replies_eq RuntimeStore.stores_default calls

end NoSqlStore
