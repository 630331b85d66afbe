import NoSqlStore.Common.Coverage
import NoSqlStore.Common.Runs
import NoSqlStore.Model.RuntimeStore
/-!
# The runtime store as a source

Each partition of a worker's store is a source in the sense of
`Common/Coverage.lean`: its records, its journal and the store's revision
counter. Whatever clients and the expiry task do, every partition evolves
(`evolution_apply`). Three finer facts are used where a decision is taken
from two reads: an event that does not write a partition only removes
records, one that brings no writer to it leaves none at work, and a
partition that was found empty stays so unless its revision moves
(`emptyOrNewer_apply`).
-/

namespace NoSqlStore

open Coverage Runs

/-- The event is a client's write to the partition. -/
def StoreEvent.writes (p : PartitionId) : StoreEvent → Bool
  | .put key _ | .deleteAt key _ => key.partition = p
  | _ => false

/-- The event writes the partition, or leaves a writer at work on it. -/
def StoreEvent.disturbs (p : PartitionId) : StoreEvent → Bool
  | .put key _ | .deleteAt key _ => key.partition = p
  | .enterWriter q => q = p
  | _ => false

theorem StoreEvent.writes_of_not_disturbs {p : PartitionId} {event : StoreEvent}
    (h : event.disturbs p = false) : event.writes p = false := by
  cases event with
  | put key record => exact h
  | deleteAt key deletionTimeMs => exact h
  | _ => rfl

namespace RuntimeStore

variable {store store' store'' : RuntimeStore} {p q : PartitionId}
  {f : PartitionStore → PartitionStore}

/-- A partition as a source. -/
def source (store : RuntimeStore) (p : PartitionId) : Source Key Mutation :=
  ⟨(store.partition p).records, (store.partition p).changes, store.nextRevision⟩

/-- **A store the program can be in**: records lie in the partition of
their key, and no revision in use is above the counter. -/
structure WellFormed (store : RuntimeStore) : Prop where
  keys : ∀ (p : PartitionId) (k : Key) (m : Mutation),
    (store.partition p).records[k]? = some m → k.partition = p
  journal : ∀ (p : PartitionId) (r : ℕ) (k : Key),
    (store.partition p).changes[r]? = some k → r ≤ store.nextRevision
  revision : ∀ p : PartitionId, (store.partition p).revision ≤ store.nextRevision

theorem partition_default (p : PartitionId) : (default : RuntimeStore).partition p = default := rfl

theorem wellFormed_default : WellFormed default := by
  refine ⟨fun p k m h => ?_, fun p r k h => ?_, fun p => le_rfl⟩
  · rw [partition_default] at h
    cases h
  · rw [partition_default] at h
    cases h

/-! ## The operations, read at one partition -/

theorem partition_applyMutation (key : Key) (mutation : Mutation) :
    (store.applyMutation key mutation).partition p =
      if key.partition = p then
        { store.partition p with
          records := compareInsert (store.partition p).records key mutation
          changes := (store.partition p).changes.insert (store.nextRevision + 1) key
          revision := store.nextRevision + 1 }
      else store.partition p := by
  simp only [applyMutation, partition, Std.ExtTreeMap.getElem?_insert, compare_eq_iff_eq]
  split
  · rename_i h
    subst h
    rfl
  · rfl

theorem partition_modify :
    (store.modify q f).partition p =
      if q = p then (store.cache[p]?.map f).getD default else store.partition p := by
  simp only [modify, partition, Std.ExtTreeMap.getElem?_alter, compare_eq_iff_eq]
  split
  · rename_i h
    subst h
    rfl
  · rfl

/-- A rewriting of a partition that is there reads as one of an empty
partition too, if it leaves that alone. -/
theorem partition_modify_eq (hf : f default = default) :
    (store.modify q f).partition p =
      if q = p then f (store.partition p) else store.partition p := by
  rw [partition_modify]
  split
  · rw [partition]
    cases store.cache[p]? <;> simp [hf]
  · rfl

theorem partition_removePartition :
    (store.removePartition q).partition p = if q = p then default else store.partition p := by
  simp only [removePartition, partition, Std.ExtTreeMap.getElem?_erase, compare_eq_iff_eq]
  split <;> rfl

theorem getElem?_compareInsert {records : Map Key Mutation} {key k : Key} {mutation : Mutation}
    (h : key ≠ k) : (compareInsert records key mutation)[k]? = records[k]? := by
  have hne : ¬ compare key k = .eq := by rwa [compare_eq_iff_eq]
  unfold compareInsert
  split
  · split
    · rw [Std.ExtTreeMap.getElem?_insert, if_neg hne]
    · rfl
  · rw [Std.ExtTreeMap.getElem?_insert, if_neg hne]

/-! ## Every operation evolves every partition -/

/-- **A step of the store**: from a well-formed store to a well-formed
store, with every partition evolving. -/
def Evolution (store store' : RuntimeStore) : Prop :=
  WellFormed store → WellFormed store' ∧ ∀ p, Evolves (store.source p) (store'.source p)

theorem Evolution.refl (store : RuntimeStore) : Evolution store store :=
  fun h => ⟨h, fun _ => .refl _⟩

theorem Evolution.trans (h₁ : Evolution store store') (h₂ : Evolution store' store'') :
    Evolution store store'' := by
  intro h
  obtain ⟨hw, he⟩ := h₁ h
  obtain ⟨hw', he'⟩ := h₂ hw
  exact ⟨hw', fun p => (he p).trans (he' p)⟩

theorem Evolution.foldl {ι : Type} (step : RuntimeStore → ι → RuntimeStore)
    (h : ∀ store i, Evolution store (step store i)) (l : List ι) (store : RuntimeStore) :
    Evolution store (l.foldl step store) :=
  run_rel_of_step Evolution.refl (fun _ _ _ => Evolution.trans) h store l

theorem evolution_applyMutation (key : Key) (mutation : Mutation) :
    Evolution store (store.applyMutation key mutation) := by
  intro hw
  have hnext : (store.applyMutation key mutation).nextRevision = store.nextRevision + 1 := rfl
  constructor
  · refine ⟨fun p k m hk => ?_, fun p r k hr => ?_, fun p => ?_⟩
    · rw [partition_applyMutation] at hk
      split at hk
      · rename_i hp
        by_cases hkey : key = k
        · rw [← hkey, hp]
        · rw [getElem?_compareInsert hkey] at hk
          exact hw.keys p k m hk
      · exact hw.keys p k m hk
    · rw [hnext]
      rw [partition_applyMutation] at hr
      split at hr
      · rw [Std.ExtTreeMap.getElem?_insert] at hr
        split at hr
        · rename_i heq
          exact (compare_eq_iff_eq.mp heq).ge
        · exact (hw.journal p r k hr).trans (Nat.le_succ _)
      · exact (hw.journal p r k hr).trans (Nat.le_succ _)
    · rw [hnext, partition_applyMutation]
      split
      · exact le_rfl
      · exact (hw.revision p).trans (Nat.le_succ _)
  · intro p
    refine ⟨by rw [source, source, hnext]; exact Nat.le_succ _, fun k m hk => ?_,
      fun r k hr hk => ?_⟩
    · simp only [source, partition_applyMutation] at hk ⊢
      split at hk
      · rename_i hp
        simp only [hp, if_true]
        by_cases hkey : key = k
        · subst hkey
          -- the key written has the new entry of the journal
          exact Or.inr ⟨store.nextRevision + 1, Nat.lt_succ_self _, by simp⟩
        · rw [getElem?_compareInsert hkey] at hk
          refine Or.inl ⟨hk, fun r hr => ?_⟩
          have hle := hw.journal p r k hr
          rw [Std.ExtTreeMap.getElem?_insert, if_neg]
          · exact hr
          · rw [compare_eq_iff_eq]
            omega
      · rename_i hp
        simp only [hp, if_false]
        exact Or.inl ⟨hk, fun r hr => hr⟩
    · simp only [source, partition_applyMutation] at hr hk ⊢
      split at hk
      · rw [Std.ExtTreeMap.getElem?_insert, if_neg] at hk
        · exact hk
        · rw [compare_eq_iff_eq]
          omega
      · exact hk

/-- An operation that only removes records, with or without the journal of
an emptied partition, is a step. -/
theorem evolution_of_shrinks (hnext : store.nextRevision ≤ store'.nextRevision)
    (hrecords : ∀ (p : PartitionId) (k : Key) (m : Mutation),
      (store'.partition p).records[k]? = some m → (store.partition p).records[k]? = some m ∧
        (store'.partition p).changes = (store.partition p).changes)
    (hchanges : ∀ (p : PartitionId) (r : ℕ) (k : Key), (store'.partition p).changes[r]? = some k →
      (store.partition p).changes[r]? = some k)
    (hrevision : ∀ p : PartitionId, (store.partition p).revision ≤ store.nextRevision →
      (store'.partition p).revision ≤ store'.nextRevision) : Evolution store store' := by
  intro hw
  refine ⟨⟨fun p k m hk => hw.keys p k m (hrecords p k m hk).1, fun p r k hr =>
    (hw.journal p r k (hchanges p r k hr)).trans hnext, fun p => hrevision p (hw.revision p)⟩,
    fun p => ⟨hnext, fun k m hk => Or.inl ⟨(hrecords p k m hk).1, fun r hr => ?_⟩,
      fun r k _ hk => hchanges p r k hk⟩⟩
  simp only [source] at hr ⊢
  rw [(hrecords p k m hk).2]
  exact hr

theorem evolution_enterWriter (q : PartitionId) : Evolution store (store.enterWriter q) := by
  have hp : ∀ p, ((store.enterWriter q).partition p).records = (store.partition p).records ∧
      ((store.enterWriter q).partition p).changes = (store.partition p).changes ∧
      ((store.enterWriter q).partition p).revision = (store.partition p).revision := by
    intro p
    rw [enterWriter, partition_modify, partition]
    split
    · cases store.cache[p]? <;> exact ⟨rfl, rfl, rfl⟩
    · exact ⟨rfl, rfl, rfl⟩
  refine evolution_of_shrinks le_rfl (fun p k m hk => ?_) (fun p r k hr => ?_) (fun p hr => ?_)
  · rw [(hp p).1] at hk
    exact ⟨hk, (hp p).2.1⟩
  · rw [(hp p).2.1] at hr
    exact hr
  · rw [(hp p).2.2]
    exact hr

/-- What removing an expired entry leaves. -/
theorem partition_removeEntry (key : Key) (nowMs : ℕ) :
    (store.removeEntry key nowMs).partition p =
      if key.partition = p ∧ (store.partition p).records[key]?.any (Mutation.expired nowMs) then
        { store.partition p with records := (store.partition p).records.erase key }
      else store.partition p := by
  rw [removeEntry, partition_modify_eq]
  · by_cases hp : key.partition = p
    · simp [hp]
    · simp [hp]
  · rfl

theorem evolution_removeEntry (key : Key) (nowMs : ℕ) :
    Evolution store (store.removeEntry key nowMs) := by
  refine evolution_of_shrinks le_rfl (fun p k m hk => ?_) (fun p r k hr => ?_) (fun p hr => ?_)
  · rw [partition_removeEntry] at hk ⊢
    split at hk
    · rename_i hp
      rw [if_pos hp]
      rw [Std.ExtTreeMap.getElem?_erase] at hk
      split at hk
      · cases hk
      · exact ⟨hk, rfl⟩
    · rename_i hp
      rw [if_neg hp]
      exact ⟨hk, rfl⟩
  · rw [partition_removeEntry] at hr
    split at hr <;> exact hr
  · rw [partition_removeEntry]
    split <;> exact hr

theorem partition_dropWriter (store : RuntimeStore) (q p : PartitionId) :
    ((store.dropWriter q).partition p).records = (store.partition p).records ∧
      ((store.dropWriter q).partition p).changes = (store.partition p).changes ∧
      (((store.dropWriter q).partition p).revision = (store.partition p).revision ∨
        ((store.dropWriter q).partition p).revision = store.nextRevision + 1) := by
  have h : (store.dropWriter q).partition p = (store.modify q fun p =>
      { p with revision := store.nextRevision + 1, activeWriters := p.activeWriters - 1 }).partition
        p := rfl
  rw [h, partition_modify, partition]
  split
  · cases store.cache[p]?
    · exact ⟨rfl, rfl, Or.inl rfl⟩
    · exact ⟨rfl, rfl, Or.inr rfl⟩
  · exact ⟨rfl, rfl, Or.inl rfl⟩

theorem partition_dropWriter_of_ne (store : RuntimeStore) (h : q ≠ p) :
    (store.dropWriter q).partition p = store.partition p := by
  have hp : (store.modify q fun p => { p with
      revision := store.nextRevision + 1, activeWriters := p.activeWriters - 1 }).partition p =
      store.partition p := by
    rw [partition_modify, if_neg h]
  exact hp

theorem evolution_dropWriter (q : PartitionId) : Evolution store (store.dropWriter q) := by
  refine evolution_of_shrinks (Nat.le_succ _) (fun p k m hk => ?_) (fun p r k hr => ?_)
    (fun p hr => ?_)
  · rw [(partition_dropWriter store q p).1] at hk
    exact ⟨hk, (partition_dropWriter store q p).2.1⟩
  · rw [(partition_dropWriter store q p).2.1] at hr
    exact hr
  · rcases (partition_dropWriter store q p).2.2 with h | h
    · rw [h]
      exact hr.trans (Nat.le_succ _)
    · rw [h]
      exact le_rfl

theorem evolution_removePartition (q : PartitionId) :
    Evolution store (store.removePartition q) := by
  refine evolution_of_shrinks le_rfl (fun p k m hk => ?_) (fun p r k hr => ?_) (fun p hr => ?_)
  · rw [partition_removePartition] at hk ⊢
    split at hk
    · cases hk
    · rename_i hp
      rw [if_neg hp]
      exact ⟨hk, rfl⟩
  · rw [partition_removePartition] at hr
    split at hr
    · cases hr
    · exact hr
  · rw [partition_removePartition]
    split
    · exact Nat.zero_le _
    · exact hr

theorem evolution_removePartitionIfEmpty (q : PartitionId) :
    Evolution store (store.removePartitionIfEmpty q) := by
  unfold removePartitionIfEmpty
  split
  · exact evolution_removePartition q
  · exact .refl store

theorem evolution_expire (key : Key) (nowMs : ℕ) : Evolution store (store.expire key nowMs) := by
  have h₁ : Evolution store (store.enterWriter key.partition) := evolution_enterWriter _
  have h₂ : Evolution (store.enterWriter key.partition)
    ((store.enterWriter key.partition).removeEntry key nowMs) := evolution_removeEntry key nowMs
  exact (h₁.trans h₂).trans (evolution_dropWriter key.partition)

theorem evolution_removeExpiredOf (q : PartitionId) (nowMs : ℕ) :
    Evolution store (store.removeExpiredOf q nowMs) := by
  have hfold := Evolution.foldl (fun store (e : Key × Mutation) => store.expire e.1 nowMs)
    (fun store e => evolution_expire e.1 nowMs)
    ((store.partition q).records.toList.filter fun e => e.2.expired nowMs) store
  exact hfold.trans (evolution_removePartitionIfEmpty q)

/-- **Whatever happens to the store, every partition evolves.** -/
theorem evolution_apply (store : RuntimeStore) (event : StoreEvent) :
    Evolution store (store.apply event) := by
  cases event with
  | put key record => exact evolution_applyMutation key _
  | deleteAt key deletionTimeMs => exact evolution_applyMutation key _
  | getVersioned key nowMs =>
    simp only [apply, getVersioned]
    split
    · split
      · exact (evolution_expire key nowMs).trans (evolution_removePartitionIfEmpty _)
      · exact .refl store
    · exact .refl store
  | removeExpired nowMs =>
    exact Evolution.foldl (fun store q => store.removeExpiredOf q nowMs)
      (fun store q => evolution_removeExpiredOf q nowMs) store.cache.keys store
  | enterWriter partition => exact evolution_enterWriter partition
  | removeEntry key nowMs => exact evolution_removeEntry key nowMs
  | dropWriter partition => exact evolution_dropWriter partition
  | removePartitionIfEmpty partition => exact evolution_removePartitionIfEmpty partition

/-! ## The stores a worker can have -/

theorem partition_prune {through : ℕ} :
    (store.prunePartitionChanges p through).partition q =
      if p = q then { store.partition q with
        changes := (store.partition q).changes.filter fun r _ => through < r }
      else store.partition q := by
  unfold prunePartitionChanges
  exact partition_modify_eq rfl

/-- Pruning moves no record and adds no entry. -/
theorem wellFormed_prune (hw : store.WellFormed) (through : ℕ) :
    (store.prunePartitionChanges p through).WellFormed := by
  refine ⟨fun q k m hk => hw.keys q k m ?_, fun q r k hr => hw.journal q r k ?_, fun q => ?_⟩
  · rw [partition_prune] at hk
    split at hk <;> exact hk
  · rw [partition_prune] at hr
    split at hr
    · rw [Std.ExtTreeMap.getElem?_filter', Option.filter_eq_some_iff] at hr
      exact hr.1
    · exact hr
  · have hle := hw.revision q
    rw [partition_prune]
    split <;> exact hle

theorem wellFormed_operate (hw : store.WellFormed) (op : StoreOperation) :
    (store.operate op).WellFormed := by
  cases op with
  | event event => exact (evolution_apply store event hw).1
  | prunePartitionChanges partition throughRevision => exact wellFormed_prune hw throughRevision
  | removePartition partition => exact (evolution_removePartition partition hw).1

/-- **Every store a worker can have is well formed.** -/
theorem wellFormed_operations (ops : List StoreOperation) :
    (run operate default ops).WellFormed :=
  run_keeps (I := WellFormed) (fun _ op hw => wellFormed_operate hw op) wellFormed_default ops

/-! ## Events and one partition -/

theorem partition_expire_of_ne {key : Key} {nowMs : ℕ} (h : key.partition ≠ p) :
    (store.expire key nowMs).partition p = store.partition p := by
  rw [expire, partition_dropWriter_of_ne _ h, partition_removeEntry, if_neg (fun hh => h hh.1),
    enterWriter,
    partition_modify, if_neg h]

theorem partition_removePartitionIfEmpty_of_ne (h : q ≠ p) :
    (store.removePartitionIfEmpty q).partition p = store.partition p := by
  unfold removePartitionIfEmpty
  split
  · rw [partition_removePartition, if_neg h]
  · rfl

/-! ## Writers at work -/

theorem activeWriters_expire (h : (store.partition p).activeWriters = 0) (key : Key) (nowMs : ℕ) :
    ((store.expire key nowMs).partition p).activeWriters = 0 := by
  by_cases hp : key.partition = p
  · subst hp
    have henter : ((store.enterWriter key.partition).partition key.partition).activeWriters ≤
        (store.partition key.partition).activeWriters + 1 := by
      rw [enterWriter, partition_modify, if_pos rfl, partition]
      cases store.cache[key.partition]? <;> simp
    have hremove : (((store.enterWriter key.partition).removeEntry key nowMs).partition
        key.partition).activeWriters ≤ 1 := by
      have hle : ((store.enterWriter key.partition).partition key.partition).activeWriters ≤ 1 := by
        omega
      rw [partition_removeEntry]
      split <;> exact hle
    have hdrop : ∀ store : RuntimeStore, ((store.dropWriter key.partition).partition
        key.partition).activeWriters ≤ (store.partition key.partition).activeWriters - 1 := by
      intro store
      have heq : (store.dropWriter key.partition).partition key.partition =
          (store.modify key.partition fun p => { p with
            revision := store.nextRevision + 1, activeWriters := p.activeWriters - 1 }).partition
            key.partition := rfl
      rw [heq, partition_modify, if_pos rfl, partition]
      cases store.cache[key.partition]? with
      | none => exact Nat.zero_le _
      | some s => exact le_rfl
    have hle := hdrop ((store.enterWriter key.partition).removeEntry key nowMs)
    rw [expire]
    omega
  · rw [partition_expire_of_ne hp]
    exact h

theorem activeWriters_removePartitionIfEmpty (h : (store.partition p).activeWriters = 0)
    (q : PartitionId) : ((store.removePartitionIfEmpty q).partition p).activeWriters = 0 := by
  by_cases hq : q = p
  · subst hq
    unfold removePartitionIfEmpty
    split
    · rw [partition_removePartition, if_pos rfl]
      rfl
    · exact h
  · rw [partition_removePartitionIfEmpty_of_ne hq]
    exact h

/-- **Only a writer that enters is at work.** -/
theorem activeWriters_apply {event : StoreEvent} (h : (store.partition p).activeWriters = 0)
    (he : event.disturbs p = false) : ((store.apply event).partition p).activeWriters = 0 := by
  cases event with
  | put key record =>
    have hne : key.partition ≠ p := by simpa [StoreEvent.disturbs] using he
    rw [apply, put, partition_applyMutation, if_neg hne]
    exact h
  | deleteAt key deletionTimeMs =>
    have hne : key.partition ≠ p := by simpa [StoreEvent.disturbs] using he
    rw [apply, deleteAt, partition_applyMutation, if_neg hne]
    exact h
  | getVersioned key nowMs =>
    simp only [apply, getVersioned]
    split
    · split
      · exact activeWriters_removePartitionIfEmpty (activeWriters_expire h key nowMs) _
      · exact h
    · exact h
  | removeExpired nowMs =>
    refine run_keeps (I := fun store : RuntimeStore => (store.partition p).activeWriters = 0)
      (fun store q hs => activeWriters_removePartitionIfEmpty ?_ q) h store.cache.keys
    exact run_keeps (I := fun store : RuntimeStore => (store.partition p).activeWriters = 0)
      (fun _ (e : Key × Mutation) hs => activeWriters_expire hs e.1 nowMs) hs _
  | enterWriter q =>
    have hne : q ≠ p := by simpa [StoreEvent.disturbs] using he
    rw [apply, enterWriter, partition_modify, if_neg hne]
    exact h
  | removeEntry key nowMs =>
    rw [apply, partition_removeEntry]
    split <;> exact h
  | dropWriter q =>
    by_cases hq : q = p
    · subst hq
      have heq : (store.dropWriter q).partition q = (store.modify q fun p => { p with
          revision := store.nextRevision + 1, activeWriters := p.activeWriters - 1 }).partition q :=
        rfl
      rw [partition] at h
      rw [apply, heq, partition_modify, if_pos rfl]
      cases hc : store.cache[q]? with
      | none => rfl
      | some s =>
        rw [hc] at h
        have hzero : s.activeWriters = 0 := h
        simp [hzero]
    · rw [apply, partition_dropWriter_of_ne store hq]
      exact h
  | removePartitionIfEmpty q => exact activeWriters_removePartitionIfEmpty h q

/-! ## Events that write nothing -/

/-- **What an event that does not write a partition may do to it**: remove
records, and move the revision up, or drop the partition with all its
records. -/
def Loses (p : PartitionId) (store store' : RuntimeStore) : Prop :=
  (∀ (k : Key) (m : Mutation), (store'.partition p).records[k]? = some m →
    (store.partition p).records[k]? = some m) ∧
  ((store.partition p).revision ≤ (store'.partition p).revision ∨
    ∀ k : Key, (store'.partition p).records[k]? = none)

theorem Loses.refl (store : RuntimeStore) : Loses p store store :=
  ⟨fun _ _ h => h, Or.inl le_rfl⟩

theorem Loses.trans (h₁ : Loses p store store') (h₂ : Loses p store' store'') :
    Loses p store store'' := by
  refine ⟨fun k m hk => h₁.1 k m (h₂.1 k m hk), ?_⟩
  rcases h₂.2 with hle | hnone
  · rcases h₁.2 with hle' | hnone
    · exact Or.inl (hle'.trans hle)
    · refine Or.inr fun k => ?_
      by_contra hne
      obtain ⟨m, hm⟩ := Option.ne_none_iff_exists'.mp hne
      have := h₂.1 k m hm
      rw [hnone k] at this
      cases this
  · exact Or.inr hnone

theorem Loses.of_partition_eq (h : store'.partition p = store.partition p) :
    Loses p store store' := by
  refine ⟨fun k m hk => ?_, Or.inl ?_⟩
  · rw [h] at hk
    exact hk
  · rw [h]

theorem loses_removePartitionIfEmpty (q : PartitionId) :
    Loses p store (store.removePartitionIfEmpty q) := by
  by_cases hq : q = p
  · subst hq
    unfold removePartitionIfEmpty
    split
    · refine ⟨fun k m hk => ?_, Or.inr fun k => ?_⟩
      · rw [partition_removePartition, if_pos rfl] at hk
        cases hk
      · rw [partition_removePartition, if_pos rfl]
        rfl
    · exact .refl store
  · exact .of_partition_eq (partition_removePartitionIfEmpty_of_ne hq)

theorem loses_enterWriter (q : PartitionId) : Loses p store (store.enterWriter q) := by
  have hp : ((store.enterWriter q).partition p).records = (store.partition p).records ∧
      ((store.enterWriter q).partition p).revision = (store.partition p).revision := by
    rw [enterWriter, partition_modify, partition]
    split
    · cases store.cache[p]? <;> exact ⟨rfl, rfl⟩
    · exact ⟨rfl, rfl⟩
  exact ⟨fun k m hk => by rwa [hp.1] at hk, Or.inl hp.2.ge⟩

theorem loses_removeEntry (key : Key) (nowMs : ℕ) :
    Loses p store (store.removeEntry key nowMs) := by
  rw [Loses, partition_removeEntry]
  split
  · refine ⟨fun k m hk => ?_, Or.inl le_rfl⟩
    rw [Std.ExtTreeMap.getElem?_erase] at hk
    split at hk
    · cases hk
    · exact hk
  · exact ⟨fun _ _ h => h, Or.inl le_rfl⟩

theorem loses_dropWriter (hw : WellFormed store) (q : PartitionId) :
    Loses p store (store.dropWriter q) := by
  obtain ⟨hrec, -, hrev⟩ := partition_dropWriter store q p
  refine ⟨fun k m hk => by rwa [hrec] at hk, Or.inl ?_⟩
  have hle := hw.revision p
  rcases hrev with h | h <;> omega

theorem loses_expire (hw : WellFormed store) (key : Key) (nowMs : ℕ) :
    Loses p store (store.expire key nowMs) := by
  have h₁ : Loses p store (store.enterWriter key.partition) := loses_enterWriter _
  have h₂ : Loses p (store.enterWriter key.partition)
      ((store.enterWriter key.partition).removeEntry key nowMs) := loses_removeEntry key nowMs
  have hw₁ := (evolution_enterWriter key.partition hw).1
  have hw₂ := (evolution_removeEntry key nowMs hw₁).1
  exact (h₁.trans h₂).trans (loses_dropWriter hw₂ key.partition)

/-- A loop of steps that lose records loses records. -/
theorem Loses.foldl {ι : Type} (step : RuntimeStore → ι → RuntimeStore)
    (hstep : ∀ store i, WellFormed store → Loses p store (step store i))
    (hev : ∀ store i, Evolution store (step store i)) (l : List ι) (store : RuntimeStore)
    (hw : WellFormed store) : Loses p store (l.foldl step store) := by
  induction l generalizing store with
  | nil => exact .refl store
  | cons i l ih => exact (hstep store i hw).trans (ih _ (hev store i hw).1)

theorem loses_removeExpiredOf (hw : WellFormed store) (q : PartitionId) (nowMs : ℕ) :
    Loses p store (store.removeExpiredOf q nowMs) := by
  have hfold := Loses.foldl (p := p) (fun store (e : Key × Mutation) => store.expire e.1 nowMs)
    (fun store e hs => loses_expire hs e.1 nowMs) (fun store e => evolution_expire e.1 nowMs)
    ((store.partition q).records.toList.filter fun e => e.2.expired nowMs) store hw
  exact hfold.trans (loses_removePartitionIfEmpty q)

/-- **An event that does not write a partition only loses records.** -/
theorem loses_apply (hw : WellFormed store) {event : StoreEvent}
    (h : event.writes p = false) : Loses p store (store.apply event) := by
  cases event with
  | put key record =>
    have hne : key.partition ≠ p := by simpa [StoreEvent.writes] using h
    exact .of_partition_eq (by rw [apply, put, partition_applyMutation, if_neg hne])
  | deleteAt key deletionTimeMs =>
    have hne : key.partition ≠ p := by simpa [StoreEvent.writes] using h
    exact .of_partition_eq (by rw [apply, deleteAt, partition_applyMutation, if_neg hne])
  | getVersioned key nowMs =>
    simp only [apply, getVersioned]
    split
    · split
      · exact (loses_expire hw key nowMs).trans (loses_removePartitionIfEmpty _)
      · exact .refl store
    · exact .refl store
  | removeExpired nowMs =>
    exact Loses.foldl (fun store q => store.removeExpiredOf q nowMs)
      (fun store q hs => loses_removeExpiredOf hs q nowMs)
      (fun store q => evolution_removeExpiredOf q nowMs) store.cache.keys store hw
  | enterWriter q => exact loses_enterWriter q
  | removeEntry key nowMs => exact loses_removeEntry key nowMs
  | dropWriter q => exact loses_dropWriter hw q
  | removePartitionIfEmpty q => exact loses_removePartitionIfEmpty q

/-- Events that do not write a partition only lose records of it. -/
theorem loses_foldl (hw : WellFormed store) {events : List StoreEvent}
    (h : ∀ event ∈ events, event.writes p = false) :
    Loses p store (events.foldl apply store) := by
  induction events generalizing store with
  | nil => exact .refl store
  | cons event events ih =>
    exact (loses_apply hw (h event List.mem_cons_self)).trans
      (ih (evolution_apply store event hw).1 fun e he => h e (List.mem_cons_of_mem _ he))

/-- The partition has no record, or its revision is above `r`. -/
def EmptyOrNewer (r : ℕ) (p : PartitionId) (store : RuntimeStore) : Prop :=
  (∀ k : Key, (store.partition p).records[k]? = none) ∨ r < (store.partition p).revision

/-- **A partition found empty stays so unless its revision moves on.** -/
theorem emptyOrNewer_apply {r : ℕ} (hw : WellFormed store) (hr : r ≤ store.nextRevision)
    (h : EmptyOrNewer r p store) (event : StoreEvent) : EmptyOrNewer r p (store.apply event) := by
  by_cases hwrites : event.writes p = true
  · -- a write leaves the next revision behind
    refine Or.inr ?_
    cases event with
    | put key record =>
      have hp : key.partition = p := by simpa [StoreEvent.writes] using hwrites
      rw [apply, put, partition_applyMutation, if_pos hp]
      exact Nat.lt_succ_of_le hr
    | deleteAt key deletionTimeMs =>
      have hp : key.partition = p := by simpa [StoreEvent.writes] using hwrites
      rw [apply, deleteAt, partition_applyMutation, if_pos hp]
      exact Nat.lt_succ_of_le hr
    | _ => cases hwrites
  · obtain ⟨hrec, hrev⟩ := loses_apply (p := p) hw (by simpa using hwrites)
    rcases h with hnone | hlt
    · refine Or.inl fun k => ?_
      by_contra hne
      obtain ⟨m, hm⟩ := Option.ne_none_iff_exists'.mp hne
      have := hrec k m hm
      rw [hnone k] at this
      cases this
    · rcases hrev with hle | hnone
      · exact Or.inr (lt_of_lt_of_le hlt hle)
      · exact Or.inl hnone

theorem emptyOrNewer_foldl {r : ℕ} (hw : WellFormed store) (hr : r ≤ store.nextRevision)
    (h : EmptyOrNewer r p store) (events : List StoreEvent) :
    EmptyOrNewer r p (events.foldl apply store) := by
  induction events generalizing store with
  | nil => exact h
  | cons event events ih =>
    obtain ⟨hw', he⟩ := evolution_apply store event hw
    exact ih hw' (hr.trans (he p).next) (emptyOrNewer_apply hw hr h event)

/-- A stable revision is at most the counter. -/
theorem stable_le (hw : WellFormed store) {r : ℕ}
    (h : store.stablePartitionRevision p = some r) : r ≤ store.nextRevision := by
  have hle := hw.revision p
  unfold stablePartitionRevision at h
  unfold partition at hle
  split at h
  · rename_i s hs
    split at h
    · cases h
    · cases h
      rw [hs] at hle
      exact hle
  · cases h
    exact Nat.zero_le _

/-- A partition without a record above a stable revision has none. -/
theorem no_records_of_stable {r : ℕ} (h : EmptyOrNewer r p store)
    (hs : store.stablePartitionRevision p = some r) (k : Key) :
    (store.partition p).records[k]? = none := by
  rcases h with h | h
  · exact h k
  · unfold stablePartitionRevision at hs
    unfold partition at h ⊢
    split at hs
    · rename_i s hp
      split at hs
      · cases hs
      · cases hs
        rw [hp] at h
        exact absurd h (lt_irrefl _)
    · rename_i hp
      rw [hp]
      rfl

end RuntimeStore

end NoSqlStore
