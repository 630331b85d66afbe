import NoSqlStore.Model.RuntimeStore
import NoSqlStore.Model.Worker
/-!
# The synchronisation of partitions

`worker/service/partitions.rs`. A tick calls the runtime store many times
while clients and the expiry task go on using it, so a `Tick` carries, with
the state and the store, what happens to the store before each of its
calls (`schedule`) and what each reading of the clock returns. Hash sets
are iterated in an order of the environment's choosing. `sent` and `trace`
record what happened and decide nothing.
-/

namespace NoSqlStore

namespace Worker

def syncTimeoutMs : ℕ := 60000

def syncBatchSize : ℕ := 1000

/-! ## Batches at the recipient -/

def mutationToDomain (key : Key) : Mutation → SyncRecord
  | .put record => ⟨key, record.value, record.expirationTimeMs, record.creationTimeMs, false⟩
  | .delete deletionTimeMs => ⟨key, [], 0, deletionTimeMs, true⟩

/-- What a recipient does with one record. -/
def applyRecord (store : RuntimeStore) (record : SyncRecord) : RuntimeStore :=
  if record.deleted then store.deleteAt record.key record.creationTimeMs
  else store.put record.key ⟨record.ttl, record.creationTimeMs, record.value⟩

/-- The highest key applied of each partition. -/
def maxAppliedKeys (records : List SyncRecord) : Map PartitionId Key :=
  records.foldl (fun keys record => keys.alter record.key.partition fun
    | some key => some (if key < record.key then record.key else key)
    | none => some record.key) ∅

def handleSyncBatch (store : RuntimeStore) (request : SyncBatchRequest) :
    RuntimeStore × WorkerProtocol :=
  (request.records.foldl applyRecord store,
    .syncBatchResponse request.senderId (maxAppliedKeys request.records))

def confirm (key : Key) (st : SyncState) : SyncState :=
  if st.currMaxKey = key then { st with confirmed := true } else st

def handleSyncBatchResponse (state : State) (keys : Map PartitionId Key) (senderId : NodeId) :
    State :=
  { state with
    sync := keys.toList.foldl (fun sync e => sync.alter e.1 fun states =>
      states.map fun states => states.alter senderId fun st => st.map (confirm e.2)) state.sync }

/-! ## One tick -/

/-- A batch sent, with the journal entries read for it and what was stored
under their keys then. -/
structure Sent where
  partition : PartitionId
  recipient : NodeId
  records : List SyncRecord
  reads : List (ℕ × Key × Option Mutation)

/-- What a tick does, beyond what it leaves. -/
inductive Trace
  /-- `continue_changes` found the journal exhausted; `events` happen
  before it asks for a stable revision. -/
  | gap (partition : PartitionId) (events : List StoreEvent)
  /-- A batch timed out; the journal then. -/
  | timedOut (partition : PartitionId) (recipient : NodeId) (phase : SyncPhase)
      (changes : Map ℕ Key)
  /-- A recipient is complete; what was stored then. -/
  | completed (partition : PartitionId) (recipient : NodeId) (records : Map Key Mutation)
  /-- The partition is deleted; what was stored then, and its holders. -/
  | removed (partition : PartitionId) (records : Map Key Mutation) (holders : Finset NodeId)

structure Tick where
  state : State
  store : RuntimeStore
  output : List WorkerProtocol
  schedule : List (List StoreEvent)
  clock : List ℕ
  sent : List Sent
  trace : List Trace

/-- An order in which a hash set of nodes is iterated, each of them once. -/
structure Enumeration where
  toList : Finset NodeId → List NodeId
  mem_toList : ∀ s n, n ∈ toList s ↔ n ∈ s
  nodup_toList : ∀ s, (toList s).Nodup

namespace Tick

/-- What happens to the store before the next call. -/
def interleave (t : Tick) : Tick :=
  { t with
    store := (t.schedule.headD []).foldl RuntimeStore.apply t.store
    schedule := t.schedule.tail }

/-- `now_millis`. -/
def now (t : Tick) : ℕ × Tick := (t.clock.headD 0, { t with clock := t.clock.tail })

/-- The state of a synchronisation, if one is under way. -/
def syncState (t : Tick) (p : PartitionId) (h : NodeId) : Option SyncState :=
  t.state.sync[p]?.bind fun states => states[h]?

/-- `state.sync.entry(p).or_default()`. -/
def touch (t : Tick) (p : PartitionId) : Tick :=
  { t with state := { t.state with
      sync := t.state.sync.alter p fun states => some (states.getD ∅) } }

def setSyncState (t : Tick) (p : PartitionId) (h : NodeId) (st : SyncState) : Tick :=
  { t with state := { t.state with
      sync := t.state.sync.alter p fun states => some ((states.getD ∅).insert h st) } }

/-- Pushing a batch. -/
def pushBatch (t : Tick) (me : Me) (p : PartitionId) (h : NodeId)
    (records : List (Key × Mutation)) (reads : List (ℕ × Key × Option Mutation)) : Tick :=
  let records := records.map fun e => mutationToDomain e.1 e.2
  { t with
    output := t.output ++ [.syncBatch h ⟨me.id, records⟩]
    sent := t.sent ++ [⟨p, h, records, reads⟩] }

def log (t : Tick) (event : Trace) : Tick := { t with trace := t.trace ++ [event] }

/-- What is stored of a partition. -/
def records (t : Tick) (p : PartitionId) : Map Key Mutation := (t.store.partition p).records

/-- The journal of a partition. -/
def changes (t : Tick) (p : PartitionId) : Map ℕ Key := (t.store.partition p).changes

/-- The revision counter when all that is scheduled has happened. -/
def finalRevision (t : Tick) : ℕ :=
  (t.schedule.flatten.foldl RuntimeStore.apply t.store).nextRevision

end Tick

variable (me : Me) (p : PartitionId) (h : NodeId)

def syncBatch (t : Tick) (afterKey : Option Key) : Option Key × Tick :=
  let t := t.interleave
  let vec := t.store.getPartitionMutations p syncBatchSize afterKey
  match vec.getLast? with
  | none => (none, t)
  | some last => (some last.1, t.pushBatch me p h vec [])

/-- The loop of `sync_change_batch`. A page of the journal whose keys are
no longer stored is skipped. Each round moves the cursor up, and no
revision exceeds `finalRevision`, so that many rounds are enough. -/
def changeLoop : ℕ → Tick → ℕ → List (ℕ × Key × Option Mutation) → Option (ℕ × Key) × Tick
  | 0, t, _, _ => (none, t)
  | fuel + 1, t, cursor, reads =>
    let t := t.interleave
    match t.store.getPartitionChanges p cursor syncBatchSize with
    | none => (none, t)
    | some (lastRevision, records) =>
      let reads := reads ++ ((t.changes p).pageAfter (some cursor) syncBatchSize).map fun e =>
        (e.1, e.2, (t.records p)[e.2]?)
      match (records.map Prod.fst).max? with
      | none => changeLoop fuel t lastRevision reads
      | some maxKey => (some (lastRevision, maxKey), t.pushBatch me p h records reads)

def syncChangeBatch (t : Tick) (afterRevision : ℕ) : Option (ℕ × Key) × Tick :=
  changeLoop me p h (t.finalRevision + 1) t afterRevision []

def startSync (t : Tick) : Bool × Tick :=
  let t := t.interleave
  match t.store.stablePartitionRevision p with
  | none => (false, t)
  | some startRevision =>
    match syncBatch me p h t none with
    | (some currMaxKey, t) =>
      let (now, t) := t.now
      (false, t.setSyncState p h
        { prevMaxKey := none, currMaxKey, phase := .snapshot startRevision, confirmed := false,
          lastStartTime := now })
    | (none, t) =>
      let t := t.interleave
      (t.store.stablePartitionRevision p = some startRevision, t)

def continueChanges (t : Tick) (st : SyncState) (confirmedRevision : ℕ) : Bool × Tick :=
  match syncChangeBatch me p h t confirmedRevision with
  | (some (pendingRevision, currMaxKey), t) =>
    let (now, t) := t.now
    (false, t.setSyncState p h
      { prevMaxKey := none, currMaxKey, phase := .changes confirmedRevision pendingRevision,
        confirmed := false, lastStartTime := now })
  | (none, t) =>
    let t := (t.log (.gap p (t.schedule.headD []))).interleave
    match t.store.stablePartitionRevision p with
    | some _ => (true, t.setSyncState p h { st with confirmed := true })
    | none => (false, t)

def continueConfirmedSync (t : Tick) (st : SyncState) : Bool × Tick :=
  match st.phase with
  | .snapshot revision =>
    match syncBatch me p h t (some st.currMaxKey) with
    | (some newMaxKey, t) =>
      let (now, t) := t.now
      (false, t.setSyncState p h
        { st with prevMaxKey := some st.currMaxKey, currMaxKey := newMaxKey, confirmed := false,
                  lastStartTime := now })
    | (none, t) => continueChanges me p h t st revision
  | .changes _ pendingRevision => continueChanges me p h t st pendingRevision

/-- The difference of two `u64` times, which wraps when the clock has gone
back. -/
def elapsed (now lastStartTime : ℕ) : ℕ := (now + 2 ^ 64 - lastStartTime) % 2 ^ 64

def retryTimedOutSync (t : Tick) (st : SyncState) : Tick :=
  let (now, t) := t.now
  if elapsed now st.lastStartTime < syncTimeoutMs then t
  else
    let t := t.log (.timedOut p h st.phase (t.changes p))
    let retried := match st.phase with
      | .snapshot _ => syncBatch me p h t st.prevMaxKey
      | .changes confirmedRevision _ =>
        let batch := syncChangeBatch me p h t confirmedRevision
        (batch.1.map Prod.snd, batch.2)
    match retried with
    | (some newMaxKey, t) =>
      let (now, t) := t.now
      t.setSyncState p h
        { st with currMaxKey := newMaxKey, confirmed := false, lastStartTime := now }
    | (none, t) => t

def syncPartitionToRecipient (t : Tick) : Bool × Tick :=
  match t.syncState p h with
  | none => startSync me p h t
  | some st =>
    if st.confirmed then continueConfirmedSync me p h t st
    else (false, retryTimedOutSync me p h t st)

def recordCompletedSync (t : Tick) : Tick :=
  let state := if nodeOwnsPartition t.state.partitions p me.id then
      { t.state with
        actualNodesSyncCompletion := t.state.actualNodesSyncCompletion.alter p fun times =>
          some ((times.getD ∅).insert h t.state.partitionsLastUpdateTime) }
    else t.state
  { t with
    state
    output := t.output ++ match state.electedLeaderId with
      | some leaderId => [.removePartitionFromReplica leaderId me.id p]
      | none => [] }

/-- One round of the recipients' loop of `sync_partition`. -/
def syncRecipient (t : Tick) : Tick :=
  match syncPartitionToRecipient me p h (t.touch p) with
  | (true, t) => recordCompletedSync me p h (t.log (.completed p h (t.records p)))
  | (false, t) => t

/-- The revision up to which a recipient has confirmed the journal. -/
def SyncPhase.confirmedRevision : SyncPhase → ℕ
  | .snapshot revision => revision
  | .changes confirmedRevision _ => confirmedRevision

/-- The journal is pruned up to what every recipient under way has
confirmed, and up to the last stable revision if there is none. -/
def pruneChanges (t : Tick) : Tick :=
  let least := t.state.sync[p]?.bind fun states =>
    (states.toList.map fun e => e.2.phase.confirmedRevision).min?
  match least with
  | some through =>
    let t := t.interleave
    { t with store := t.store.prunePartitionChanges p through }
  | none =>
    let t := t.interleave
    match t.store.stablePartitionRevision p with
    | some through =>
      let t := t.interleave
      { t with store := t.store.prunePartitionChanges p through }
    | none => t

/-- Keeping the recipients of `p` that satisfy `keep`. -/
def retainRecipients (t : Tick) (keep : NodeId → SyncState → Bool) : Tick :=
  { t with state := { t.state with
      sync := t.state.sync.alter p fun states => states.map fun states => states.filter keep } }

def syncPartition (t : Tick) (recipientIds : List NodeId) : Tick :=
  let t := retainRecipients p t fun id _ => id ∈ t.state.nodes
  let t := recipientIds.foldl (fun t h => syncRecipient me p h t) t
  let t := retainRecipients p t fun _ st => !st.confirmed
  pruneChanges p t

/-- One round of `state.sync.retain`: a partition without recipients under
way leaves the table, and is deleted unless this node owns it. -/
def removeCompletedSync (t : Tick) (e : PartitionId × Map NodeId SyncState) : Tick :=
  if e.2.isEmpty then
    let t := if nodeOwnsPartition t.state.partitions e.1 me.id then t
      else
        let t := t.interleave
        let t := t.log (.removed e.1 (t.records e.1) (t.state.partitions.holders e.1))
        { t with store := t.store.removePartition e.1 }
    { t with state := { t.state with sync := t.state.sync.erase e.1 } }
  else t

def removeCompletedSyncsAndObsoletePartitions (t : Tick) : Tick :=
  t.state.sync.toList.foldl (removeCompletedSync me) t

/-- The recipients of a partition, as the tick computes them. -/
def recipients (state : State) (synced : Map PartitionId (Finset NodeId)) : Finset NodeId :=
  getNodeIdsCurrNodeHasToSyncThePartitionTo p me.id state.partitions state.nodes synced[p]?

def syncPartitions (order : Enumeration) (t : Tick) : Tick :=
  let synced := t.state.getCurrentlySyncedActualNodes
  let t := (List.range partitionsAmount).foldl
    (fun t partition => syncPartition me ⟨partition⟩ t
      (order.toList (recipients me ⟨partition⟩ t.state synced))) t
  removeCompletedSyncsAndObsoletePartitions me t

end Worker

end NoSqlStore
