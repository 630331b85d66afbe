import NoSqlStore.Common.Runs
import NoSqlStore.Model.Sync
/-!
# A worker, its recipients and the batches between them

`worker/service.rs`: one turn of the service handles a message, if there
is one, and ends with a tick. Around the service stand the store, which
clients and the expiry task use at any time, and the recipients of its
batches. A batch, once sent, may be delivered at any later time, any
number of times or never, and so may the answer of a recipient that has
got it.
-/

namespace NoSqlStore

namespace Worker

variable (me : Me)

/-- What the environment decides about one turn: the order in which hash
sets are iterated, what happens to the store before each of its calls, and
the readings of the clock. -/
structure Env where
  order : Enumeration
  schedule : List (List StoreEvent)
  clock : List ℕ
  handleNow : ℕ
  heartbeatNow : ℕ

/-- The handlers of `WorkerService::process`. -/
def handle (state : State) (store : RuntimeStore) (now : ℕ) :
    WorkerProtocol → State × RuntimeStore × List WorkerProtocol
  | .newConnection id host port manager =>
    let (state, output) := handleNewConnection state id host port manager now
    (state, store, output)
  | .heartbeat _ heartbeatId ts =>
    let (state, output) := handleHeartbeat state me heartbeatId ts
    (state, store, output)
  | .getClusterState _ => (state, store, [])
  | .clusterState ⟨epoch, leaderId, nodes, partitions⟩ =>
    let (state, output) := handleClusterState state me epoch leaderId nodes partitions now
    (state, store, output)
  | .nodeDisconnected id => (handleNodeDisconnected state id, store, [])
  | .leader id epoch ts =>
    let (state, output) := handleLeader state me id epoch ts
    (state, store, output)
  | .removePartitionFromReplica _ replicaId _ =>
    (state, store, handleRemoveOldPartition state me replicaId)
  | .syncBatch _ request =>
    let (store, response) := handleSyncBatch store request
    (state, store, [response])
  | .syncBatchResponse senderId keys => (handleSyncBatchResponse state keys senderId, store, [])

/-- `WorkerService::tick`. -/
def tick (env : Env) (state : State) (store : RuntimeStore) (sent : List Sent) : Tick :=
  let (state, output) := heartbeats state me env.heartbeatNow
  syncPartitions me env.order
    { state, store, output, schedule := env.schedule, clock := env.clock, sent, trace := [] }

/-- The worker, its recipients, and what has passed between them.
`applied` lists every record a recipient has applied; `delivered` and
`answered` are the batches whose delivery, and whose answer, has
happened. -/
structure World where
  state : State
  store : RuntimeStore
  sent : List Sent
  delivered : List ℕ
  answered : List ℕ
  peers : NodeId → RuntimeStore
  applied : List (NodeId × SyncRecord)
  trace : List Trace

inductive Action
  /-- A client, or the expiry task, uses the store. -/
  | store (event : StoreEvent)
  /-- The ticker fires. -/
  | tick (env : Env)
  /-- A message other than a recipient's answer arrives. -/
  | message (msg : WorkerProtocol) (env : Env)
  /-- A batch reaches its recipient. -/
  | deliver (batch : ℕ)
  /-- The answer to a batch arrives. -/
  | respond (batch : ℕ) (env : Env)
  /-- A recipient's store is used by others. -/
  | peer (h : NodeId) (event : StoreEvent)

/-- The tick an action ends with. -/
def Action.env : Action → Option Env
  | .tick env => some env
  | .message _ env => some env
  | .respond _ env => some env
  | _ => none

namespace World

/-- `State::new` over this node alone, and an empty store. -/
def start (now : ℕ) : World :=
  { state := State.new ((∅ : Map NodeId Node).insert me.id ⟨me.host, me.port, now, .worker⟩)
    store := default, sent := [], delivered := [], answered := [], peers := fun _ => default
    applied := [], trace := [] }

/-- The state of a synchronisation, if one is under way. -/
def syncState (w : World) (p : PartitionId) (h : NodeId) : Option SyncState :=
  w.state.sync[p]?.bind fun states => states[h]?

/-- An action up to its tick. An answer exists once the batch has been
delivered, and names the recipient as its sender. -/
def receive (w : World) : Action → World
  | .store event => { w with store := w.store.apply event }
  | .tick _ => w
  | .message (.syncBatchResponse _ _) _ => w
  | .message msg env =>
    let (state, store, _) := handle me w.state w.store env.handleNow msg
    { w with state, store }
  | .deliver i =>
    match w.sent[i]? with
    | none => w
    | some b =>
      { w with
        peers := Function.update w.peers b.recipient
          (handleSyncBatch (w.peers b.recipient) ⟨me.id, b.records⟩).1
        applied := w.applied ++ b.records.map fun record => (b.recipient, record)
        delivered := w.delivered ++ [i] }
  | .respond i _ =>
    match w.sent[i]? with
    | none => w
    | some b =>
      if i ∈ w.delivered then
        { w with
          state := handleSyncBatchResponse w.state (maxAppliedKeys b.records) b.recipient
          answered := w.answered ++ [i] }
      else w
  | .peer h event => { w with peers := Function.update w.peers h ((w.peers h).apply event) }

/-- The tick an action ends with, run. -/
def ticked (w : World) (env : Env) : Tick := Worker.tick me env w.state w.store w.sent

def step (w : World) (action : Action) : World :=
  let w := w.receive me action
  match action.env with
  | none => w
  | some env =>
    let t := w.ticked me env
    { w with state := t.state, store := t.store, sent := t.sent, trace := w.trace ++ t.trace }

/-- What the tick of an action does. -/
def traceOf (w : World) (action : Action) : List Trace :=
  match action.env with
  | none => []
  | some env => ((w.receive me action).ticked me env).trace

/-- **A recipient has applied** a mutation of the key at least as recent. -/
def Has (w : World) (h : NodeId) (k : Key) (m : Mutation) : Prop :=
  ∃ record, (h, record) ∈ w.applied ∧ record.key = k ∧ m.version ≤ record.creationTimeMs

end World

/-- The last batch sent to a recipient of a partition, and its number. -/
def lastSent (sent : List Sent) (p : PartitionId) (h : NodeId) : Option (Sent × ℕ) :=
  (sent.zipIdx.filter fun e => e.1.partition = p ∧ e.1.recipient = h).getLast?

end Worker

end NoSqlStore
