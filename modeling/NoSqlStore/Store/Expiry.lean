import NoSqlStore.Store.LastWrite
/-!
# Expiry and the versions that are read

An expired put is erased, by a read or by the background scan, and leaves
no mark: the version of the erased record is forgotten with it. So a read
goes back to an older version only past such an erasure
(`reads_go_back_only_past_expiry`), and past one it may
(`expired_version_is_forgotten`).
-/

namespace NoSqlStore

open LastWrite Runs

/-- The reading of the clock an event may erase by. -/
def StoreEvent.clock : StoreEvent → Option ℕ
  | .getVersioned _ nowMs | .removeExpired nowMs | .removeEntry _ nowMs => some nowMs
  | _ => none

/-- A use of a store: a batch, or what clients and the expiry task do. -/
inductive Use
  | event (e : StoreEvent)
  | syncBatch (request : Worker.SyncBatchRequest)

/-- The mutations a use applies. -/
def Use.mutations : Use → List (Key × Mutation)
  | .event (.put key record) => (Write.put key record).mutations
  | .event (.deleteAt key deletionTimeMs) => (Write.deleteAt key deletionTimeMs).mutations
  | .event _ => []
  | .syncBatch request => (Write.syncBatch request).mutations

def Use.clock : Use → Option ℕ
  | .event e => e.clock
  | .syncBatch _ => none

namespace RuntimeStore

variable {store store' store'' : RuntimeStore} {k : Key} {m m' : Mutation} {now : ℕ}

def use (store : RuntimeStore) : Use → RuntimeStore
  | .event e => store.apply e
  | .syncBatch request => (Worker.handleSyncBatch store request).1

/-! ## What an erasure does -/

/-- **What time does to a store**: each key keeps what it holds, or loses
an expired put. -/
def Ages (now : ℕ) (store store' : RuntimeStore) : Prop :=
  ∀ k, store'.stored k = store.stored k ∨
    (store'.stored k = none ∧ ∃ m, store.stored k = some m ∧ m.expired now = true)

theorem Ages.refl (now : ℕ) (store : RuntimeStore) : Ages now store store := fun _ => Or.inl rfl

theorem Ages.trans (h₁ : Ages now store store') (h₂ : Ages now store' store'') :
    Ages now store store'' := by
  intro k
  rcases h₁ k with heq | ⟨hnone, hm⟩
  · rw [← heq]
    exact h₂ k
  · refine Or.inr ⟨?_, hm⟩
    rcases h₂ k with heq | ⟨hnone', -⟩
    · rw [heq, hnone]
    · exact hnone'

theorem Ages.foldl {ι : Type} {step : RuntimeStore → ι → RuntimeStore}
    (hstep : ∀ store i, Ages now store (step store i)) (l : List ι) (store : RuntimeStore) :
    Ages now store (l.foldl step store) :=
  Runs.run_rel_of_step (Ages.refl now) (fun _ _ _ => Ages.trans) hstep store l

theorem Ages.of_stored_eq (h : ∀ k, store'.stored k = store.stored k) : Ages now store store' :=
  fun k => Or.inl (h k)

@[simp] theorem stored_enterWriter (q : PartitionId) :
    (store.enterWriter q).stored k = store.stored k := by
  rw [stored, enterWriter, partition_modify, stored, partition]
  split
  · cases store.cache[k.partition]? <;> rfl
  · rfl

@[simp] theorem stored_dropWriter (q : PartitionId) :
    (store.dropWriter q).stored k = store.stored k := by
  rw [stored, (partition_dropWriter store q k.partition).1, stored]

/-- A partition that goes for being empty held nothing. -/
@[simp] theorem stored_removePartitionIfEmpty (q : PartitionId) :
    (store.removePartitionIfEmpty q).stored k = store.stored k := by
  unfold removePartitionIfEmpty
  split
  · rename_i hempty
    rw [stored, partition_removePartition, stored]
    split
    · rename_i hq
      subst hq
      cases hc : store.cache[k.partition]? with
      | none => simp [partition, hc]
      | some entry =>
        have hrecords : entry.records = ∅ := by simpa [hc] using hempty
        simp only [partition, hc, Option.getD_some, hrecords]
        rfl
    · rfl
  · rfl

theorem ages_removeEntry (key : Key) : Ages now store (store.removeEntry key now) := by
  intro k
  rw [stored, partition_removeEntry]
  split
  · rename_i h
    obtain ⟨hp, hexpired⟩ := h
    by_cases hk : key = k
    · subst hk
      cases hm : (store.partition key.partition).records[key]? with
      | none =>
        rw [hm] at hexpired
        cases hexpired
      | some m =>
        rw [hm] at hexpired
        exact Or.inr ⟨by simp, m, hm, hexpired⟩
    · refine Or.inl ?_
      rw [Std.ExtTreeMap.getElem?_erase, if_neg (by rwa [compare_eq_iff_eq])]
      rfl
  · exact Or.inl rfl

theorem ages_expire (key : Key) : Ages now store (store.expire key now) := by
  have h₁ : Ages now store (store.enterWriter key.partition) :=
    .of_stored_eq fun k => stored_enterWriter _
  have h₂ : Ages now (store.enterWriter key.partition)
    ((store.enterWriter key.partition).removeEntry key now) := ages_removeEntry key
  exact (h₁.trans h₂).trans (.of_stored_eq fun k => stored_dropWriter _)

theorem ages_removeExpired : Ages now store (store.removeExpired now) := by
  refine Ages.foldl (fun store q => ?_) store.cache.keys store
  have hstep : ∀ (store : RuntimeStore) (e : Key × Mutation),
      Ages now store (store.expire e.1 now) := fun store e => ages_expire e.1
  have hfold := Ages.foldl hstep
    ((store.partition q).records.toList.filter fun e => e.2.expired now) store
  exact hfold.trans (.of_stored_eq fun k => stored_removePartitionIfEmpty q)

/-! ## What one use does -/

/-- A list of mutations never takes a key back. -/
theorem le_stored_applyAll (mutations : List (Key × Mutation))
    (h : m ∈ (store.stored k).toList ∨ (k, m) ∈ mutations) :
    ∃ m', (store.applyAll mutations).stored k = some m' ∧ m.version ≤ m'.version := by
  have hmem : m ∈ (store.stored k).toList ++ mutationsOf k mutations := by
    rw [List.mem_append, mem_mutationsOf]
    exact h
  cases hlast : (store.applyAll mutations).stored k with
  | none =>
    rw [stored_applyAll, foldl_write_toList] at hlast
    rw [foldl_write_eq_none hlast] at hmem
    cases hmem
  | some m' =>
    rw [stored_applyAll, foldl_write_toList, foldl_write_eq_some] at hlast
    exact ⟨m', rfl, hlast.le hmem⟩

/-- What ageing leaves of a key. -/
theorem Ages.stored_cases (h : Ages now store store') (hm : store.stored k = some m) :
    (∃ m', store'.stored k = some m' ∧ m.version ≤ m'.version) ∨
      (store'.stored k = none ∧ m.expired now = true) := by
  rcases h k with heq | ⟨hnone, m', hm', hexpired⟩
  · exact Or.inl ⟨m, heq.trans hm, le_rfl⟩
  · rw [hm] at hm'
    cases hm'
    exact Or.inr ⟨hnone, hexpired⟩

/-- **What a use is**: it applies its mutations, or leaves every record, or
lets the store age by the clock it reads. -/
theorem use_cases (store : RuntimeStore) (u : Use) :
    store.use u = store.applyAll u.mutations ∨
      (u.mutations = [] ∧ ∀ k, (store.use u).stored k = store.stored k) ∨
      (u.mutations = [] ∧ ∃ clock, u.clock = some clock ∧ Ages clock store (store.use u)) := by
  cases u with
  | syncBatch request => exact Or.inl (write_eq_applyAll store (.syncBatch request))
  | event e =>
    cases e with
    | put key record => exact Or.inl (write_eq_applyAll store (.put key record))
    | deleteAt key deletionTimeMs =>
      exact Or.inl (write_eq_applyAll store (.deleteAt key deletionTimeMs))
    | getVersioned key nowMs =>
      refine Or.inr (Or.inr ⟨rfl, nowMs, rfl, ?_⟩)
      simp only [use, apply, getVersioned]
      split
      · split
        · exact (ages_expire key).trans (.of_stored_eq fun k => stored_removePartitionIfEmpty _)
        · exact .refl nowMs store
      · exact .refl nowMs store
    | removeExpired nowMs => exact Or.inr (Or.inr ⟨rfl, nowMs, rfl, ages_removeExpired⟩)
    | removeEntry key nowMs => exact Or.inr (Or.inr ⟨rfl, nowMs, rfl, ages_removeEntry key⟩)
    | enterWriter q => exact Or.inr (Or.inl ⟨rfl, fun k => stored_enterWriter q⟩)
    | dropWriter q => exact Or.inr (Or.inl ⟨rfl, fun k => stored_dropWriter q⟩)
    | removePartitionIfEmpty q =>
      exact Or.inr (Or.inl ⟨rfl, fun k => stored_removePartitionIfEmpty q⟩)

/-- **What one use does to a key**: it never takes the key back, and it
clears the key only if what it holds has expired by the clock the use
reads. -/
theorem stored_use (hm : store.stored k = some m) (u : Use) :
    (∃ m', (store.use u).stored k = some m' ∧ m.version ≤ m'.version) ∨
      ((store.use u).stored k = none ∧
        ∃ clock, u.clock = some clock ∧ m.expired clock = true) := by
  rcases use_cases store u with hwrite | ⟨-, hsame⟩ | ⟨-, clock, hclock, hages⟩
  · rw [hwrite]
    exact Or.inl (le_stored_applyAll u.mutations (Or.inl (by simp [hm])))
  · exact Or.inl ⟨m, (hsame k).trans hm, le_rfl⟩
  · rcases hages.stored_cases hm with hkept | ⟨hnone, hexpired⟩
    · exact Or.inl hkept
    · exact Or.inr ⟨hnone, clock, hclock, hexpired⟩

/-- A use leaves what it applied, or something newer. -/
theorem stored_use_of_mem (store : RuntimeStore) {u : Use} (hm : (k, m) ∈ u.mutations) :
    ∃ m', (store.use u).stored k = some m' ∧ m.version ≤ m'.version := by
  rcases use_cases store u with hwrite | ⟨hnil, -⟩ | ⟨hnil, -⟩
  · rw [hwrite]
    exact le_stored_applyAll u.mutations (Or.inr hm)
  · rw [hnil] at hm
    cases hm
  · rw [hnil] at hm
    cases hm

/-! ## Whole runs -/

/-- The use clears the key of an expired put, by the clock it reads. -/
def Erases (store : RuntimeStore) (u : Use) (k : Key) (record : Record) : Prop :=
  store.stored k = some (.put record) ∧ (store.use u).stored k = none ∧
    ∃ clock, u.clock = some clock ∧ (Mutation.put record).expired clock = true

/-- Only puts expire. -/
theorem exists_put_of_expired (h : m.expired now = true) : ∃ record, m = .put record := by
  cases m with
  | put record => exact ⟨record, rfl⟩
  | delete deletionTimeMs => cases h

/-- **A key along a run**: it goes on holding something at least as recent
as a mutation it once held, up to the first erasure. -/
theorem stored_run (hm : store.stored k = some m) (uses : List Use) :
    (∃ m', (run use store uses).stored k = some m' ∧ m.version ≤ m'.version) ∨
      ∃ mid u rest record, uses = mid ++ u :: rest ∧ Erases (run use store mid) u k record ∧
        m.version ≤ record.creationTimeMs := by
  induction uses generalizing store m with
  | nil => exact Or.inl ⟨m, hm, le_rfl⟩
  | cons u uses ih =>
    rcases stored_use hm u with ⟨m₁, hm₁, hle⟩ | ⟨hnone, clock, hclock, hexpired⟩
    · rcases ih hm₁ with ⟨m', hm', hle'⟩ | ⟨mid, u', rest, record, rfl, herases, hle'⟩
      · exact Or.inl ⟨m', hm', hle.trans hle'⟩
      · exact Or.inr ⟨u :: mid, u', rest, record, rfl, herases, hle.trans hle'⟩
    · obtain ⟨record, rfl⟩ := exists_put_of_expired hexpired
      exact Or.inr ⟨[], u, uses, record, rfl, ⟨hm, hnone, clock, hclock, hexpired⟩, le_rfl⟩

/-- **Reads go back only past an expiry.** In every run of puts,
deletions, batches, reads and expiry scans, a read of a key returns a
mutation at least as recent as one applied earlier, unless in between an
expired put of the key, itself at least as recent, was erased. -/
theorem reads_go_back_only_past_expiry (store : RuntimeStore) (before after : List Use) (u : Use)
    (k : Key) (m m' : Mutation) (now : ℕ) (hm : (k, m) ∈ u.mutations)
    (hget : ((run use store (before ++ u :: after)).getVersioned k now).1 = some m') :
    m.version ≤ m'.version ∨
      ∃ mid u' rest record, after = mid ++ u' :: rest ∧
        Erases (run use store (before ++ u :: mid)) u' k record ∧
        m.version ≤ record.creationTimeMs := by
  obtain ⟨m₁, hm₁, hle⟩ := stored_use_of_mem (run use store before) hm
  have hlast := stored_of_getVersioned hget
  rw [run_append, run_cons] at hlast
  rcases stored_run hm₁ after with ⟨m₂, hm₂, hle'⟩ | ⟨mid, u', rest, record, rfl, herases, hle'⟩
  · rw [hlast] at hm₂
    cases hm₂
    exact Or.inl (hle.trans hle')
  · refine Or.inr ⟨mid, u', rest, record, rfl, ?_, hle.trans hle'⟩
    rw [run_append, run_cons]
    exact herases

/-- A put that expires at time 10, a read at time 9 and an older put. -/
theorem reads_go_back_only_past_expiry_unexpired :
    ((run use default ([] ++ .event (.put ⟨0⟩ ⟨10, 5, [5]⟩) ::
      [.event (.getVersioned ⟨0⟩ 9), .event (.put ⟨0⟩ ⟨0, 3, [3]⟩)])).getVersioned ⟨0⟩ 9).1 =
        some (.put ⟨10, 5, [5]⟩) ∧
    ((Mutation.put ⟨10, 5, [5]⟩).version ≤ (Mutation.put ⟨10, 5, [5]⟩).version ∨
      ∃ mid u' rest record,
        [Use.event (.getVersioned ⟨0⟩ 9), .event (.put ⟨0⟩ ⟨0, 3, [3]⟩)] = mid ++ u' :: rest ∧
        Erases (run use default ([] ++ .event (.put ⟨0⟩ ⟨10, 5, [5]⟩) :: mid)) u' ⟨0⟩ record ∧
        (Mutation.put ⟨10, 5, [5]⟩).version ≤ record.creationTimeMs) := by
  have hget : ((run use default ([] ++ .event (.put ⟨0⟩ ⟨10, 5, [5]⟩) ::
      [.event (.getVersioned ⟨0⟩ 9), .event (.put ⟨0⟩ ⟨0, 3, [3]⟩)])).getVersioned ⟨0⟩ 9).1 =
        some (.put ⟨10, 5, [5]⟩) := by decide +kernel
  exact ⟨hget, reads_go_back_only_past_expiry default [] _ _ ⟨0⟩ _ _ 9
    (by simp [Use.mutations, Write.mutations]) hget⟩

/-- **The version of an erased record is forgotten.** An older put is
accepted after a read has erased the expired one, and refused as long as
that is still there. -/
theorem expired_version_is_forgotten :
    ((run use default [.event (.put ⟨0⟩ ⟨10, 5, [5]⟩), .event (.getVersioned ⟨0⟩ 20),
      .event (.put ⟨0⟩ ⟨0, 3, [3]⟩)]).getVersioned ⟨0⟩ 30).1 = some (.put ⟨0, 3, [3]⟩) ∧
    ((run use default [.event (.put ⟨0⟩ ⟨10, 5, [5]⟩),
      .event (.put ⟨0⟩ ⟨0, 3, [3]⟩)]).getVersioned ⟨0⟩ 30).1 = none ∧
    ¬ (Mutation.put ⟨10, 5, [5]⟩).version ≤ (Mutation.put ⟨0, 3, [3]⟩).version := by
  decide +kernel

end RuntimeStore

end NoSqlStore
