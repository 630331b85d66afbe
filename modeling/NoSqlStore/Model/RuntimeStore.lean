import NoSqlStore.Model.Domain
/-!
# The runtime store of a worker

`worker/runtime_store.rs`: the records of each partition, the journal of
the keys written, and the revisions that number the writes. `put` and
`delete_at` hold the write lock of their partition's shard and are atomic.
An expiry holds a read lock only: other reads may see it between its
entrance as a writer, the removal and its end, so these are operations of
their own, and `get_versioned` and `remove_expired` are made of them.
-/

namespace NoSqlStore

structure Record where
  expirationTimeMs : ℕ
  creationTimeMs : ℕ
  value : List UInt8
  deriving DecidableEq

inductive Mutation
  | put (record : Record)
  | delete (deletionTimeMs : ℕ)
  deriving DecidableEq

def Mutation.version : Mutation → ℕ
  | .put record => record.creationTimeMs
  | .delete deletionTimeMs => deletionTimeMs

/-- Whether an expiry at `nowMs` removes the record. -/
def Mutation.expired (nowMs : ℕ) : Mutation → Bool
  | .put record => record.expirationTimeMs ≠ 0 ∧ record.expirationTimeMs ≤ nowMs
  | .delete _ => false

structure PartitionStore where
  records : Map Key Mutation
  /-- The journal: the key each revision wrote. -/
  changes : Map ℕ Key
  activeWriters : ℕ
  revision : ℕ

instance : Inhabited PartitionStore := ⟨⟨∅, ∅, 0, 0⟩⟩

structure RuntimeStore where
  cache : Map PartitionId PartitionStore
  nextRevision : ℕ

instance : Inhabited RuntimeStore := ⟨⟨∅, 0⟩⟩

/-- `SkipMap::compare_insert` under the version order: an older mutation
does not replace a newer one. -/
def compareInsert (records : Map Key Mutation) (key : Key) (mutation : Mutation) :
    Map Key Mutation :=
  match records[key]? with
  | some old =>
    if old.version ≤ mutation.version then records.insert key mutation else records
  | none => records.insert key mutation

namespace RuntimeStore

variable (store : RuntimeStore)

/-- A partition as the store has it; an absent one is empty. -/
def partition (p : PartitionId) : PartitionStore := store.cache[p]?.getD default

/-! ## Reads -/

def getPartitionMutations (partition : PartitionId) (amount : ℕ) (afterKey : Option Key) :
    List (Key × Mutation) :=
  match store.cache[partition]? with
  | none => []
  | some p => p.records.pageAfter afterKey amount

def stablePartitionRevision (partition : PartitionId) : Option ℕ :=
  match store.cache[partition]? with
  | some p => if p.activeWriters ≠ 0 then none else some p.revision
  | none => some 0

def getPartitionChanges (partition : PartitionId) (afterRevision amount : ℕ) :
    Option (ℕ × List (Key × Mutation)) :=
  match store.cache[partition]? with
  | none => none
  | some p =>
    let changes := p.changes.pageAfter (some afterRevision) amount
    match changes.getLast? with
    | none => none
    | some last =>
      some (last.1, changes.filterMap fun e => p.records[e.2]?.map fun m => (e.2, m))

/-! ## Writes -/

/-- The body `put` and `delete_at` share: the writer enters, the mutation
is inserted unless a newer one is there, and the writer leaves a journal
entry under the next revision either way. -/
def applyMutation (key : Key) (mutation : Mutation) : RuntimeStore :=
  let p := store.partition key.partition
  let revision := store.nextRevision + 1
  { cache := store.cache.insert key.partition
      { p with
        records := compareInsert p.records key mutation
        changes := p.changes.insert revision key
        revision }
    nextRevision := revision }

def put (key : Key) (record : Record) : RuntimeStore := store.applyMutation key (.put record)

def deleteAt (key : Key) (deletionTimeMs : ℕ) : RuntimeStore :=
  store.applyMutation key (.delete deletionTimeMs)

/-- Rewriting a partition that is there. -/
def modify (p : PartitionId) (f : PartitionStore → PartitionStore) : RuntimeStore :=
  { store with cache := store.cache.alter p fun entry => entry.map f }

def prunePartitionChanges (partition : PartitionId) (throughRevision : ℕ) : RuntimeStore :=
  store.modify partition fun p =>
    { p with changes := p.changes.filter fun revision _ => throughRevision < revision }

def removePartition (partition : PartitionId) : RuntimeStore :=
  { store with cache := store.cache.erase partition }

def removePartitionIfEmpty (partition : PartitionId) : RuntimeStore :=
  if store.cache[partition]?.any fun p => p.records.isEmpty then store.removePartition partition
  else store

/-! ## Expiry -/

/-- A writer that changes no key enters. -/
def enterWriter (partition : PartitionId) : RuntimeStore :=
  store.modify partition fun p => { p with activeWriters := p.activeWriters + 1 }

/-- The entry of an expired record is removed. -/
def removeEntry (key : Key) (nowMs : ℕ) : RuntimeStore :=
  store.modify key.partition fun p =>
    if p.records[key]?.any (Mutation.expired nowMs) then
      { p with records := p.records.erase key }
    else p

/-- A writer that changed no key leaves, under a revision of its own. -/
def dropWriter (partition : PartitionId) : RuntimeStore :=
  { store.modify partition fun p =>
      { p with revision := store.nextRevision + 1, activeWriters := p.activeWriters - 1 } with
    nextRevision := store.nextRevision + 1 }

/-- One expiry from its entrance to its end. -/
def expire (key : Key) (nowMs : ℕ) : RuntimeStore :=
  ((store.enterWriter key.partition).removeEntry key nowMs).dropWriter key.partition

def getVersioned (key : Key) (nowMs : ℕ) : Option Mutation × RuntimeStore :=
  match (store.partition key.partition).records[key]? with
  | some mutation =>
    if mutation.expired nowMs then
      (none, (store.expire key nowMs).removePartitionIfEmpty key.partition)
    else (some mutation, store)
  | none => (none, store)

/-- The scan of one partition. -/
def removeExpiredOf (partition : PartitionId) (nowMs : ℕ) : RuntimeStore :=
  let expired := (store.partition partition).records.toList.filter fun e => e.2.expired nowMs
  (expired.foldl (fun store e => store.expire e.1 nowMs) store).removePartitionIfEmpty partition

/-- The store `remove_expired` leaves. -/
def removeExpired (nowMs : ℕ) : RuntimeStore :=
  store.cache.keys.foldl (fun store partition => store.removeExpiredOf partition nowMs) store

/-- `remove_expired`, with the number it returns. -/
def removeExpiredCounted (nowMs : ℕ) : ℕ × RuntimeStore :=
  store.cache.keys.foldl (fun (removed, store) partition =>
    let expired := (store.partition partition).records.toList.filter fun e => e.2.expired nowMs
    (removed + expired.length, store.removeExpiredOf partition nowMs)) (0, store)

end RuntimeStore

/-- What clients and the expiry task do to the store while the service
runs: whole calls, and the parts of an expiry. -/
inductive StoreEvent
  | put (key : Key) (record : Record)
  | deleteAt (key : Key) (deletionTimeMs : ℕ)
  | getVersioned (key : Key) (nowMs : ℕ)
  | removeExpired (nowMs : ℕ)
  | enterWriter (partition : PartitionId)
  | removeEntry (key : Key) (nowMs : ℕ)
  | dropWriter (partition : PartitionId)
  | removePartitionIfEmpty (partition : PartitionId)

def RuntimeStore.apply (store : RuntimeStore) : StoreEvent → RuntimeStore
  | .put key record => store.put key record
  | .deleteAt key deletionTimeMs => store.deleteAt key deletionTimeMs
  | .getVersioned key nowMs => (store.getVersioned key nowMs).2
  | .removeExpired nowMs => store.removeExpired nowMs
  | .enterWriter partition => store.enterWriter partition
  | .removeEntry key nowMs => store.removeEntry key nowMs
  | .dropWriter partition => store.dropWriter partition
  | .removePartitionIfEmpty partition => store.removePartitionIfEmpty partition

/-- What can be done to the store of a worker. A batch of another worker
is a list of puts and deletions. -/
inductive StoreOperation
  | event (event : StoreEvent)
  | prunePartitionChanges (partition : PartitionId) (throughRevision : ℕ)
  | removePartition (partition : PartitionId)

def RuntimeStore.operate (store : RuntimeStore) : StoreOperation → RuntimeStore
  | .event event => store.apply event
  | .prunePartitionChanges partition throughRevision =>
    store.prunePartitionChanges partition throughRevision
  | .removePartition partition => store.removePartition partition

end NoSqlStore
