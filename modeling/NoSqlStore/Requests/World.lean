import NoSqlStore.Common.Runs
import NoSqlStore.Model.Requests
import NoSqlStore.Store.Expiry
/-!
# Clients, their connections and the workers

The clients of a cluster whose topology does not change, the connections
between them and the workers, and the workers' stores. Tasks take their
steps in any order. A request in transit is served at any later time, also
when its task has given up waiting for it or its connection is closed on
the client's side; an attempt may fail at any time. Besides the requests,
migration batches, the expiry task and other clients use the stores, and a
worker may drop a partition it does not hold. What has been applied, read
off a clock, served, answered and returned is recorded and decides
nothing.
-/

namespace NoSqlStore

namespace Requests

open Correlation Runs

/-- Whose request it is. -/
structure Asker where
  task : ℕ
  operation : Operation
  deriving DecidableEq

/-- A request a worker has served: the record the response hands back, and
the readings of the worker's clock up to then. -/
structure Served where
  asker : Asker
  node : NodeId
  record : Option Wire.GrpcRecord
  readings : List ℕ

/-- A response on its way, with how it came about. -/
structure Reply where
  response : WorkerResponse
  served : Served

/-- `WorkerConnection`, and the stream to the worker. -/
structure Connection extends Channel Asker ClientRequest Reply where
  node : NodeId
  closed : Bool

/-- The counter of a client and its connections. -/
structure ClientState where
  nextRequestId : ℕ
  workers : Map NodeId ℕ

structure Returned where
  asker : Asker
  outcome : Outcome
  deriving DecidableEq

structure World where
  stores : NodeId → RuntimeStore
  clients : ℕ → ClientState
  connections : Map ℕ Connection
  nextConnection : ℕ
  tasks : Map ℕ Task
  nextTask : ℕ
  applied : List (NodeId × Key × Mutation)
  readings : NodeId → List ℕ
  served : List Served
  /-- Those whose response woke a call. -/
  answers : List Served
  returned : List Returned

/-- The store call a request becomes. -/
def requestEvent (now : ℕ) (request : ClientRequest) : StoreEvent :=
  match request.value, request.creationTime,
    decide (request.requestType = RequestType.put.toInt) with
  | some bytes, some creationTimeMs, true =>
    .put ⟨request.key⟩ ⟨request.ttl.getD 0, creationTimeMs, bytes⟩
  | _, creationTime, _ =>
    if request.requestType = RequestType.delete.toInt then
      .deleteAt ⟨request.key⟩ (creationTime.getD now)
    else .getVersioned ⟨request.key⟩ now

inductive Action
  /-- A client calls an operation. -/
  | begin (client : ℕ) (operation : Operation) (order : Worker.Enumeration)
  /-- A call draws its id. -/
  | draw (task : ℕ) (node : NodeId)
  /-- It looks for a connection among the client's. -/
  | lookup (task : ℕ) (node : NodeId)
  /-- It has dialled. -/
  | dial (task : ℕ) (node : NodeId) (dialled : Except String Unit)
  /-- It registers and sends its request, if the stream takes it. -/
  | send (task : ℕ) (node : NodeId) (taken : Bool)
  /-- The wait for an answer ends without one. -/
  | fail (task : ℕ) (node : NodeId) (reason : Reason)
  /-- The calls of a task's stage are done. -/
  | resume (task : ℕ)
  /-- `ensure_connections` has connected a client to a worker. -/
  | ensure (client : ℕ) (node : NodeId)
  /-- The worker serves the next request of a connection. -/
  | serve (connection now : ℕ)
  /-- The client takes the next response of a connection. -/
  | receive (connection : ℕ)
  /-- The stream ends on the client's side, and `drain` empties the table. -/
  | close (connection : ℕ)
  /-- The worker's store is used otherwise. -/
  | use (node : NodeId) (use : Use)
  /-- A journal is pruned. -/
  | prune (node : NodeId) (partition : PartitionId) (throughRevision : ℕ)
  /-- A worker drops a partition it has passed on. -/
  | removePartition (node : NodeId) (partition : PartitionId)

namespace World

/-- `AtomicI32::new(1)`, no connections and empty stores. -/
def start : World where
  stores := fun _ => default
  clients := fun _ => ⟨1, ∅⟩
  connections := ∅
  nextConnection := 0
  tasks := ∅
  nextTask := 0
  applied := []
  readings := fun _ => []
  served := []
  answers := []
  returned := []

variable (w : World)

/-- Where a call stands. -/
def call (task : ℕ) (node : NodeId) : Option Call :=
  w.tasks[task]?.bind fun t => t.calls[node]?

def setCall (task : ℕ) (node : NodeId) (call : Call) : World :=
  { w with tasks := w.tasks.alter task fun t =>
      t.map fun t => { t with calls := t.calls.insert node call } }

/-- The client of a task. -/
def clientOf (task : ℕ) : ℕ := (w.tasks[task]?.map Task.client).getD 0

def setClient (client : ℕ) (state : ClientState) : World :=
  { w with clients := Function.update w.clients client state }

/-- The end of an attempt: the client forgets its connection to the
worker, and the call starts over or gives up. -/
def failAttempt (attempts task : ℕ) (node : NodeId) (attempt : ℕ) (reason : Reason) : World :=
  let client := w.clientOf task
  let state := w.clients client
  (w.setClient client { state with workers := state.workers.erase node }).setCall task node
    (if attempt + 1 < attempts then ⟨attempt + 1, .idle⟩
      else ⟨attempt, .done (.error (.workerRequest node reason))⟩)

/-- A new connection, which the client keeps. -/
def connectTo (client : ℕ) (node : NodeId) : World :=
  let state := w.clients client
  { w with
    connections := w.connections.insert w.nextConnection ⟨⟨∅, [], []⟩, node, false⟩
    nextConnection := w.nextConnection + 1
    clients := Function.update w.clients client
      { state with workers := state.workers.insert node w.nextConnection } }

/-- The asker of a task. -/
def askerOf (task : ℕ) (t : Task) : Asker := ⟨task, t.operation⟩

/-- One use of a store. -/
def useStore (node : NodeId) (store : RuntimeStore) (u : Use) : World :=
  { w with
    stores := Function.update w.stores node store
    applied := u.mutations.map (Prod.mk node) ++ w.applied
    readings := Function.update w.readings node (u.clock.toList ++ w.readings node) }

def setConnection (c : ℕ) (x : Connection) : World :=
  { w with connections := w.connections.insert c x }

def returns (asker : Asker) (outcome : Outcome) : World :=
  { w with
    tasks := w.tasks.erase asker.task
    returned := ⟨asker, outcome⟩ :: w.returned }

variable (topology : Client.Topology) (attempts : ℕ)

/-! ## The steps of a call -/

/-- `next_request_id.fetch_add(1)`. -/
def draw (task : ℕ) (node : NodeId) : World :=
  match w.call task node with
  | some ⟨attempt, .idle⟩ =>
    let client := w.clientOf task
    let state := w.clients client
    (w.setClient client { state with nextRequestId := (state.nextRequestId + 1) % 2 ^ 32 }).setCall
      task node ⟨attempt, .drawn state.nextRequestId⟩
  | _ => w

def lookup (task : ℕ) (node : NodeId) : World :=
  match w.call task node with
  | some ⟨attempt, .drawn id⟩ =>
    match (w.clients (w.clientOf task)).workers[node]? with
    | some c => w.setCall task node ⟨attempt, .connected c id⟩
    | none =>
      if node ∈ topology.nodes then w.setCall task node ⟨attempt, .dialling id⟩
      else w.failAttempt attempts task node attempt (.worker (.unknownWorker node))
  | _ => w

def dial (task : ℕ) (node : NodeId) (dialled : Except String Unit) : World :=
  match w.call task node with
  | some ⟨attempt, .dialling id⟩ =>
    match dialled with
    | .ok () =>
      (w.connectTo (w.clientOf task) node).setCall task node
        ⟨attempt, .connected w.nextConnection id⟩
    | .error reason =>
      w.failAttempt attempts task node attempt (.worker (.workerRequest node reason))
  | _ => w

/-- `WorkerConnection::request`. A stream that does not take the request
loses whoever waits under its id. -/
def send (task : ℕ) (node : NodeId) (taken : Bool) : World :=
  match w.tasks[task]?, w.call task node with
  | some t, some ⟨attempt, .connected c id⟩ =>
    match w.connections[c]? with
    | some x =>
      if taken then
        (w.setConnection c { x with
          toChannel := x.toChannel.send id (askerOf task t) { t.request with id } }).setCall
            task node ⟨attempt, .waiting c id⟩
      else
        (w.setConnection c { x with pending := x.pending.erase id }).failAttempt attempts task node
          attempt .streamClosed
    | none => w
  | _, _ => w

def fail (task : ℕ) (node : NodeId) (reason : Reason) : World :=
  match w.call task node with
  | some ⟨attempt, .connected _ _⟩ => w.failAttempt attempts task node attempt reason
  | some ⟨attempt, .waiting _ _⟩ => w.failAttempt attempts task node attempt reason
  | _ => w

/-! ## The steps of a connection -/

def serve (c now : ℕ) : World :=
  match w.connections[c]? with
  | some x =>
    match x.outbound with
    | (asker, request) :: rest =>
      let (store, response) := openClientConnection (w.stores x.node) now request
      let w := w.useStore x.node store (.event (requestEvent now request))
      let served : Served := ⟨asker, x.node, responseRecord response, w.readings x.node⟩
      { w.setConnection c
          { x with toChannel := x.toChannel.answer asker rest ⟨response, served⟩ } with
        served := served :: w.served }
    | [] => w
  | none => w

/-- A response wakes the call that waits under its id. -/
def wake (c : ℕ) (node : NodeId) (reply : Reply) (asker : Asker) : World :=
  match w.call asker.task node with
  | some ⟨attempt, .waiting c' id⟩ =>
    if c' = c ∧ id = reply.response.requestId then
      { w.setCall asker.task node ⟨attempt, .done (.ok (responseRecord reply.response))⟩ with
        answers := reply.served :: w.answers }
    else w
  | _ => w

def receive (c : ℕ) : World :=
  match w.connections[c]? with
  | some x =>
    if x.closed then w
    else
      match x.inbound with
      | (_, reply) :: rest =>
        let id := reply.response.requestId
        let woken := match x.pending[id]? with
          | some asker => w.wake c x.node reply asker
          | none => w
        woken.setConnection c { x with toChannel := x.toChannel.receive id rest }
      | [] => w
  | none => w

def close (c : ℕ) : World :=
  match w.connections[c]? with
  | some x => w.setConnection c { x with pending := ∅, closed := true }
  | none => w

/-! ## Tasks -/

def begin (client : ℕ) (operation : Operation) (order : Worker.Enumeration) : World :=
  match Requests.begin topology client operation order with
  | .ok task => { w with tasks := w.tasks.insert w.nextTask task, nextTask := w.nextTask + 1 }
  | .error failure =>
    { w with
      returned := ⟨⟨w.nextTask, operation⟩, .failed failure⟩ :: w.returned
      nextTask := w.nextTask + 1 }

def resume (task : ℕ) : World :=
  match w.tasks[task]? with
  | some t =>
    match t.continue with
    | some (.returns outcome) => w.returns (askerOf task t) outcome
    | some (.asks t') => { w with tasks := w.tasks.insert task t' }
    | none => w
  | none => w

/-- One step. The topology and the number of attempts do not change. -/
def step (topology : Client.Topology) (attempts : ℕ) (w : World) : Action → World
  | .begin client operation order => w.begin topology client operation order
  | .draw task node => w.draw task node
  | .lookup task node => w.lookup topology attempts task node
  | .dial task node dialled => w.dial attempts task node dialled
  | .send task node taken => w.send attempts task node taken
  | .fail task node reason => w.fail attempts task node reason
  | .resume task => w.resume task
  | .ensure client node => w.connectTo client node
  | .serve c now => w.serve c now
  | .receive c => w.receive c
  | .close c => w.close c
  | .use node u => w.useStore node ((w.stores node).use u) u
  | .prune node p throughRevision =>
    let store := (w.stores node).prunePartitionChanges p throughRevision
    { w with stores := Function.update w.stores node store }
  | .removePartition node p =>
    if Worker.nodeOwnsPartition topology.partitions p node then w
    else { w with stores := Function.update w.stores node ((w.stores node).removePartition p) }

/-! ## Ids -/

/-- Whether somebody waits under the id a call is about to send under. -/
def awaited (task : ℕ) (node : NodeId) : Bool :=
  match w.call task node with
  | some ⟨_, .connected c id⟩ => w.connections[c]?.any fun x => x.pending.contains id
  | _ => false

/-- **The step takes no id somebody waits under** on the connection. -/
def Apart : Action → Prop
  | .send task node _ => w.awaited task node = false
  | _ => True

instance (a : Action) : Decidable (w.Apart a) := by
  cases a <;> unfold Apart <;> infer_instance

end World

end Requests

end NoSqlStore
