import NoSqlStore.Common.LastWrite
import NoSqlStore.Common.Runs
import NoSqlStore.Model.Sync
import NoSqlStore.Sync.Store
/-!
# What a sequence of writes leaves

Client writes and the records of a migration go through one conditional
insert, so every key of a store is a register of `Common/LastWrite.lean`:
it holds the last of the mutations of the greatest version it was given
(`last_write_wins`). Two stores given the same mutations hold the same
versions, and the same mutations but where two carry one version, which
the order of arrival then decides (`replicas_converge`).
-/

namespace NoSqlStore

open LastWrite Runs

/-- The mutation a record on the wire stands for. -/
def Worker.SyncRecord.mutation (record : Worker.SyncRecord) : Mutation :=
  if record.deleted then .delete record.creationTimeMs
  else .put ⟨record.ttl, record.creationTimeMs, record.value⟩

/-- A call that writes to a store. -/
inductive Write
  | put (key : Key) (record : Record)
  | deleteAt (key : Key) (deletionTimeMs : ℕ)
  | syncBatch (request : Worker.SyncBatchRequest)

/-- The mutations a call applies, in order. -/
def Write.mutations : Write → List (Key × Mutation)
  | .put key record => [(key, .put record)]
  | .deleteAt key deletionTimeMs => [(key, .delete deletionTimeMs)]
  | .syncBatch request => request.records.map fun record => (record.key, record.mutation)

namespace RuntimeStore

variable {store : RuntimeStore} {k : Key}

/-- What a store holds under a key. -/
def stored (store : RuntimeStore) (k : Key) : Option Mutation :=
  (store.partition k.partition).records[k]?

def write (store : RuntimeStore) : Write → RuntimeStore
  | .put key record => store.put key record
  | .deleteAt key deletionTimeMs => store.deleteAt key deletionTimeMs
  | .syncBatch request => (Worker.handleSyncBatch store request).1

/-- The mutations of one key, in a list of mutations. -/
def mutationsOf (k : Key) (mutations : List (Key × Mutation)) : List Mutation :=
  (mutations.filter (·.1 = k)).map Prod.snd

/-- A list of mutations, applied one after the other. -/
def applyAll (store : RuntimeStore) (mutations : List (Key × Mutation)) : RuntimeStore :=
  mutations.foldl (fun store e => store.applyMutation e.1 e.2) store

theorem getElem?_compareInsert_self (records : Map Key Mutation) (key : Key)
    (mutation : Mutation) :
    (compareInsert records key mutation)[key]? =
      LastWrite.write Mutation.version records[key]? mutation := by
  unfold compareInsert LastWrite.write
  cases h : records[key]? with
  | none => simp
  | some old =>
    by_cases hle : old.version ≤ mutation.version
    · simp [hle]
    · simp [hle, h]

/-- One mutation, read at one place. -/
theorem records_applyMutation (p : PartitionId) (k key : Key) (mutation : Mutation) :
    ((store.applyMutation key mutation).partition p).records[k]? =
      if key = k ∧ k.partition = p then
        LastWrite.write Mutation.version (store.partition p).records[k]? mutation
      else (store.partition p).records[k]? := by
  rw [partition_applyMutation]
  by_cases hk : key = k
  · subst hk
    by_cases hp : key.partition = p
    · simp only [hp, and_self, if_true]
      exact getElem?_compareInsert_self _ _ _
    · simp [hp]
  · simp only [hk, false_and, if_false]
    split
    · exact getElem?_compareInsert hk
    · rfl

/-- **A key is a register**: a list of mutations writes to it those that
are its own. -/
theorem records_applyAll (store : RuntimeStore) (p : PartitionId) (k : Key)
    (mutations : List (Key × Mutation)) :
    ((store.applyAll mutations).partition p).records[k]? =
      if k.partition = p then
        (mutationsOf k mutations).foldl (LastWrite.write Mutation.version)
          (store.partition p).records[k]?
      else (store.partition p).records[k]? := by
  induction mutations generalizing store with
  | nil => simp [applyAll, mutationsOf]
  | cons e mutations ih =>
    have hstep : store.applyAll (e :: mutations) =
        (store.applyMutation e.1 e.2).applyAll mutations := rfl
    rw [hstep, ih, records_applyMutation]
    by_cases hp : k.partition = p
    · by_cases hk : e.1 = k
      · simp [hp, hk, mutationsOf]
      · simp [hp, hk, mutationsOf]
    · simp [hp]

theorem stored_applyAll (store : RuntimeStore) (mutations : List (Key × Mutation)) (k : Key) :
    (store.applyAll mutations).stored k =
      (mutationsOf k mutations).foldl (LastWrite.write Mutation.version) (store.stored k) := by
  rw [stored, records_applyAll, if_pos rfl, stored]

/-! ## Calls -/

/-- Every call applies its mutations. -/
theorem write_eq_applyAll (store : RuntimeStore) (w : Write) :
    store.write w = store.applyAll w.mutations := by
  cases w with
  | put key record => rfl
  | deleteAt key deletionTimeMs => rfl
  | syncBatch request =>
    simp only [write, Worker.handleSyncBatch, applyAll, Write.mutations, List.foldl_map]
    congr 1
    funext store record
    simp only [Worker.applyRecord, Worker.SyncRecord.mutation]
    split <;> rfl

theorem applyAll_append (store : RuntimeStore) (ms ms' : List (Key × Mutation)) :
    store.applyAll (ms ++ ms') = (store.applyAll ms).applyAll ms' := List.foldl_append

/-- And so does a sequence of calls. -/
theorem run_write_eq_applyAll (store : RuntimeStore) (writes : List Write) :
    run write store writes = store.applyAll (writes.flatMap Write.mutations) := by
  induction writes generalizing store with
  | nil => rfl
  | cons w writes ih =>
    rw [run_cons, ih, write_eq_applyAll, List.flatMap_cons, applyAll_append]

/-- A read shows nothing but what is stored. -/
theorem stored_of_getVersioned {now : ℕ} {m : Mutation}
    (h : (store.getVersioned k now).1 = some m) : store.stored k = some m := by
  unfold getVersioned at h
  split at h
  · rename_i m' hm'
    split at h
    · cases h
    · cases h
      exact hm'
  · cases h

/-- The mutations a sequence of calls applies to a key. -/
def appliedTo (k : Key) (writes : List Write) : List Mutation :=
  mutationsOf k (writes.flatMap Write.mutations)

/-- **Last write wins.** After any sequence of puts, deletions and
batches, each key holds the last of the mutations of the greatest version
among what it held and what was applied to it; keys not mentioned are as
before; a put older than a deletion of its key is not seen; and a batch
applied a second time at once changes no record. -/
theorem last_write_wins (store : RuntimeStore) (writes : List Write) :
    let store' := run write store writes
    (∀ k m, store'.stored k = some m ↔
      Winner Mutation.version ((store.stored k).toList ++ appliedTo k writes) m) ∧
    (∀ p k, k.partition ≠ p ∨ appliedTo k writes = [] →
      (store'.partition p).records[k]? = (store.partition p).records[k]?) ∧
    (∀ k deletionTimeMs record now,
      .delete deletionTimeMs ∈ (store.stored k).toList ++ appliedTo k writes →
      record.creationTimeMs < deletionTimeMs →
      (store'.getVersioned k now).1 ≠ some (.put record)) ∧
    ∀ request p,
      (((store'.write (.syncBatch request)).write (.syncBatch request)).partition p).records =
        ((store'.write (.syncBatch request)).partition p).records := by
  intro store'
  have hrun : store' = store.applyAll (writes.flatMap Write.mutations) :=
    run_write_eq_applyAll store writes
  have hwinner : ∀ k m, store'.stored k = some m ↔
      Winner Mutation.version ((store.stored k).toList ++ appliedTo k writes) m := by
    intro k m
    rw [hrun, stored_applyAll, foldl_write_toList, foldl_write_eq_some]
    rfl
  refine ⟨hwinner, fun p k hk => ?_, fun k d record now hd hlt hget => ?_, fun request p => ?_⟩
  · rw [hrun, records_applyAll]
    rcases hk with hp | hnone
    · rw [if_neg hp]
    · have hnil : mutationsOf k (writes.flatMap Write.mutations) = [] := hnone
      rw [hnil]
      split <;> rfl
  · have hwin := (hwinner k _).mp (stored_of_getVersioned hget)
    have hle : d ≤ record.creationTimeMs := hwin.le hd
    omega
  · refine Std.ExtTreeMap.ext_getElem? fun k => ?_
    rw [write_eq_applyAll, write_eq_applyAll, records_applyAll, records_applyAll]
    split
    · exact foldl_write_replay _ _
    · rfl

/-! ## Two replicas -/

/-- A client's `put` or `delete_at`. -/
def mutate (store : RuntimeStore) : Key × Mutation → RuntimeStore
  | (key, .put record) => store.put key record
  | (key, .delete deletionTimeMs) => store.deleteAt key deletionTimeMs

theorem run_mutate_eq_applyAll (store : RuntimeStore) (mutations : List (Key × Mutation)) :
    run mutate store mutations = store.applyAll mutations := by
  have hstep : mutate = fun store e => store.applyMutation e.1 e.2 := by
    funext store e
    obtain ⟨key, mutation⟩ := e
    cases mutation <;> rfl
  rw [hstep]
  rfl

theorem mem_mutationsOf {m : Mutation} {mutations : List (Key × Mutation)} :
    m ∈ mutationsOf k mutations ↔ (k, m) ∈ mutations := by
  simp [mutationsOf]

/-- **Replicas converge** as far as the versions tell mutations apart: two
empty stores given the same mutations, in any two orders and with any
repetitions, end with mutations of one version under every key, and with
one mutation under every key whose greatest version one mutation carries. -/
theorem replicas_converge (mutations mutations' : List (Key × Mutation))
    (hsame : ∀ e, e ∈ mutations ↔ e ∈ mutations') (k : Key) :
    ((run mutate default mutations).stored k).map Mutation.version =
        ((run mutate default mutations').stored k).map Mutation.version ∧
    ((∀ a b, (k, a) ∈ mutations → (k, b) ∈ mutations → a.version = b.version →
        (∀ c, (k, c) ∈ mutations → c.version ≤ a.version) → a = b) →
      (run mutate default mutations).stored k = (run mutate default mutations').stored k) := by
  have hsame' : ∀ m, m ∈ mutationsOf k mutations ↔ m ∈ mutationsOf k mutations' := by
    intro m
    rw [mem_mutationsOf, mem_mutationsOf]
    exact hsame (k, m)
  rw [run_mutate_eq_applyAll, run_mutate_eq_applyAll, stored_applyAll, stored_applyAll]
  have hempty : (default : RuntimeStore).stored k = none := rfl
  rw [hempty]
  cases h : (mutationsOf k mutations).foldl (LastWrite.write Mutation.version) none with
  | none =>
    -- no mutation of the key in one list, and so none in the other
    have hnil := foldl_write_eq_none h
    have hnil' : mutationsOf k mutations' = [] := by
      refine List.eq_nil_iff_forall_not_mem.mpr fun m hm => ?_
      rw [← hsame' m, hnil] at hm
      cases hm
    rw [hnil']
    exact ⟨rfl, fun _ => rfl⟩
  | some m =>
    have hwin := foldl_write_eq_some.mp h
    cases h' : (mutationsOf k mutations').foldl (LastWrite.write Mutation.version) none with
    | none =>
      have hm := (hsame' m).mp hwin.mem
      rw [foldl_write_eq_none h'] at hm
      cases hm
    | some m' =>
      have hwin' := foldl_write_eq_some.mp h'
      refine ⟨?_, fun hone => ?_⟩
      · rw [Option.map_some, Option.map_some, hwin.version_eq hwin' hsame']
      · rw [hwin.eq_of_same hwin' hsame' fun a ha b hb heq hall => ?_]
        refine hone a b (mem_mutationsOf.mp ha) (mem_mutationsOf.mp hb) heq fun c hc => ?_
        exact hall c (mem_mutationsOf.mpr hc)

/-- A put and a later deletion, in two orders. -/
theorem replicas_converge_put_delete :
    (run mutate default [(⟨0⟩, .put ⟨0, 1, [1]⟩), (⟨0⟩, .delete 2)]).stored ⟨0⟩ =
      (run mutate default [(⟨0⟩, .delete 2), (⟨0⟩, .put ⟨0, 1, [1]⟩)]).stored ⟨0⟩ := by
  refine (replicas_converge _ _ (fun e => by simp [or_comm]) ⟨0⟩).2 fun a b ha hb heq hall => ?_
  have hdelete := hall (.delete 2) (by simp)
  simp only [List.mem_cons, Prod.mk.injEq, true_and, List.not_mem_nil, or_false] at ha hb
  rcases ha with rfl | rfl
  · exact absurd hdelete (by decide)
  · rcases hb with rfl | rfl
    · exact absurd heq (by decide)
    · rfl

/-- **Two puts of one millisecond**: each replica keeps the one that came
last. -/
theorem equal_timestamps_diverge :
    [((⟨0⟩ : Key), Mutation.put ⟨0, 1, [1]⟩), (⟨0⟩, .put ⟨0, 1, [2]⟩)].Perm
      [(⟨0⟩, .put ⟨0, 1, [2]⟩), (⟨0⟩, .put ⟨0, 1, [1]⟩)] ∧
    (run mutate default [(⟨0⟩, .put ⟨0, 1, [1]⟩), (⟨0⟩, .put ⟨0, 1, [2]⟩)]).stored ⟨0⟩ ≠
      (run mutate default [(⟨0⟩, .put ⟨0, 1, [2]⟩), (⟨0⟩, .put ⟨0, 1, [1]⟩)]).stored ⟨0⟩ := by
  refine ⟨List.Perm.swap _ _ _, ?_⟩
  decide +kernel

end RuntimeStore

end NoSqlStore
