import NoSqlStore.Common.Correlation
import NoSqlStore.Model.Client
import NoSqlStore.Model.Sync
import NoSqlStore.Model.Wire
/-!
# The requests of clients

`Client::get`, `put` and `delete` with `write_all` and `request_with_retry`
of `no-sql-store-client`, its `connection.rs`, and the dispatch of
`open_client_connection` in `worker/grpc.rs`. An operation is a task that
makes one call of `request_with_retry` for each worker it asks; a call
draws a request id, finds or dials a connection, sends and waits, and
starts over when that fails. A request id is an `i32` the client's counter
hands out, so it comes round after `2 ^ 32` draws; it is modelled by its
bits.
-/

namespace NoSqlStore

namespace Requests

open Correlation Wire

/-! ## The messages -/

inductive RequestType
  | get
  | put
  | delete
  deriving DecidableEq

/-- `request_type as i32`. -/
def RequestType.toInt : RequestType → ℤ
  | .get => 0
  | .put => 1
  | .delete => 2

structure ClientRequest where
  id : ℕ
  requestType : ℤ
  key : ℕ
  creationTime : Option ℕ
  value : Option (List UInt8)
  ttl : Option ℕ
  deriving DecidableEq

structure WorkerResponse where
  requestId : ℕ
  record : Option GrpcRecord
  deletionTime : Option ℕ
  deriving DecidableEq

def request (requestType : RequestType) (key : Key) (value : Option (List UInt8))
    (creationTime ttl : Option ℕ) : ClientRequest where
  id := 0
  requestType := requestType.toInt
  key := key.val
  creationTime := creationTime
  value := value
  ttl := ttl

/-! ## The worker -/

/-- What a read shows of a stored mutation. -/
def getResponse (id key : ℕ) : Option Mutation → WorkerResponse
  | some (.put record) =>
    ⟨id, some ⟨key, record.value, record.expirationTimeMs, record.creationTimeMs, false⟩, none⟩
  | some (.delete deletionTimeMs) => ⟨id, none, some deletionTimeMs⟩
  | none => ⟨id, none, none⟩

/-- One round of `open_client_connection`. A put needs its value and its
creation time; what is neither a put nor a deletion is a read. -/
def openClientConnection (store : RuntimeStore) (now : ℕ) (request : ClientRequest) :
    RuntimeStore × WorkerResponse :=
  match request.value, request.creationTime,
    decide (request.requestType = RequestType.put.toInt) with
  | some bytes, some creationTimeMs, true =>
    (store.put ⟨request.key⟩ ⟨request.ttl.getD 0, creationTimeMs, bytes⟩, ⟨request.id, none, none⟩)
  | _, creationTime, _ =>
    if request.requestType = RequestType.delete.toInt then
      (store.deleteAt ⟨request.key⟩ (creationTime.getD now), ⟨request.id, none, none⟩)
    else
      let (mutation, store) := store.getVersioned ⟨request.key⟩ now
      (store, getResponse request.id request.key mutation)

/-! ## The client -/

/-- The record a connection hands on: a deletion time is a deleted record. -/
def responseRecord (response : WorkerResponse) : Option GrpcRecord :=
  response.record.or (response.deletionTime.map fun deletionTime => ⟨0, [], 0, deletionTime, true⟩)

/-- Why an attempt failed. The text of an error `worker` returned stands
for the error. -/
inductive Reason
  | worker (error : Client.Error)
  | streamClosed
  | stream (error : String)
  | requestTimeout
  deriving DecidableEq

/-- The errors of an operation. -/
inductive Failure
  | routing (error : Client.Error)
  | workerRequest (nodeId : NodeId) (reason : Reason)
  | timeout
  | invalidSystemTime
  | ttlOverflow
  deriving DecidableEq

/-- An operation with the reading of the client's clock it makes, which is
none before the epoch. Times to live are in milliseconds. -/
inductive Operation
  | get (key : Key)
  | put (key : Key) (value : List UInt8) (ttl : Option ℕ) (now : Option ℕ)
  | delete (key : Key) (now : Option ℕ)
  deriving DecidableEq

/-- When a put of this time to live expires; none if the sum overflows. -/
def expirationTime (creationTime : ℕ) : Option ℕ → Except Failure (Option ℕ)
  | none => .ok none
  | some ttl => if creationTime + ttl < 2 ^ 64 then .ok (some (creationTime + ttl))
    else .error .ttlOverflow

/-- The request an operation sends, under the id 0. -/
def Operation.request : Operation → Except Failure ClientRequest
  | .get key => .ok (Requests.request .get key none none none)
  | .put key value ttl (some creationTime) =>
    (expirationTime creationTime ttl).map fun expirationTime =>
      Requests.request .put key (some value) (some creationTime) expirationTime
  | .delete key (some deletionTime) =>
    .ok (Requests.request .delete key none (some deletionTime) none)
  | .put _ _ _ none | .delete _ none => .error .invalidSystemTime

abbrev CallResult := Except Failure (Option GrpcRecord)

/-- Where a call of `request_with_retry` stands. -/
inductive Phase
  /-- About to draw an id. -/
  | idle
  /-- About to look for a connection. -/
  | drawn (id : ℕ)
  /-- The client had no connection to the worker, and dials. -/
  | dialling (id : ℕ)
  | connected (connection id : ℕ)
  | waiting (connection id : ℕ)
  | done (result : CallResult)

structure Call where
  attempt : ℕ
  phase : Phase

/-- Whom a task asks: all the workers of a write, the master first and the
others of a read after it. -/
inductive Stage
  | write (targets : List NodeId)
  | primary (node : NodeId) (fallback : List NodeId)
  | fallback (node : NodeId) (fallback : List NodeId)

structure Task where
  client : ℕ
  operation : Operation
  request : ClientRequest
  stage : Stage
  calls : Map NodeId Call

/-- A call for each of some workers, added to those there are. -/
def addCalls (calls : Map NodeId Call) (nodes : List NodeId) : Map NodeId Call :=
  nodes.foldl (fun calls node => calls.insert node ⟨0, .idle⟩) calls

/-- How an operation begins. `order` is that in which the hash set of the
workers is iterated. -/
def begin (topology : Client.Topology) (client : ℕ) (operation : Operation)
    (order : Worker.Enumeration) : Except Failure Task := do
  let request ← operation.request
  match operation with
  | .get key =>
    let (primary, fallback) ← (Client.readTargets topology key).mapError .routing
    return ⟨client, operation, request, .primary primary (order.toList fallback),
      addCalls ∅ [primary]⟩
  | .put key _ _ _ | .delete key _ =>
    let targets ← (Client.writeTargets topology key).mapError .routing
    return ⟨client, operation, request, .write (order.toList targets),
      addCalls ∅ (order.toList targets)⟩

inductive Outcome
  | written
  | read (value : Option (List UInt8))
  | failed (failure : Failure)
  deriving DecidableEq

/-- The value of a record that is no deletion. -/
def shown (record : GrpcRecord) : Option (List UInt8) :=
  if record.deleted then none else some record.value

/-- The last loop of `write_all`. -/
def writeOutcome : List CallResult → Outcome
  | [] => .written
  | .error failure :: _ => .failed failure
  | .ok _ :: results => writeOutcome results

/-- The last loop of `get`: the newest record, whether a call succeeded,
and the last error. -/
def newest (results : List CallResult) : Option GrpcRecord × Bool × Option Failure :=
  results.foldl (fun acc result =>
    match result with
    | .ok (some record) =>
      (if acc.1.all fun current => current.creationTime < record.creationTime then some record
        else acc.1, true, acc.2.2)
    | .ok none => (acc.1, true, acc.2.2)
    | .error failure => (acc.1, acc.2.1, some failure)) (none, false, none)

def readOutcome (results : List CallResult) : Outcome :=
  match newest results with
  | (newest, true, _) => .read (newest.bind shown)
  | (_, false, lastError) => .failed (lastError.getD .timeout)

/-- The result of a call that is done. -/
def Task.result (task : Task) (node : NodeId) : Option CallResult :=
  task.calls[node]?.bind fun call =>
    match call.phase with
    | .done result => some result
    | _ => none

/-- A task goes on when the calls of its stage are done: it returns, or
asks the workers a read falls back to. -/
inductive Continuation
  | returns (outcome : Outcome)
  | asks (task : Task)

def Task.continue (task : Task) : Option Continuation :=
  match task.stage with
  | .write targets =>
    (targets.mapM task.result).map fun results => .returns (writeOutcome results)
  | .primary node fallback =>
    (task.result node).map fun
      | .error failure => .returns (.failed failure)
      | .ok (some record) => .returns (.read (shown record))
      | .ok none =>
        if fallback = [] then .returns (.read none)
        else .asks { task with
          stage := .fallback node fallback, calls := addCalls task.calls fallback }
  | .fallback _ fallback =>
    (fallback.mapM task.result).map fun results => .returns (readOutcome results)

end Requests

end NoSqlStore
