import NoSqlStore.Model.Manager
import NoSqlStore.Model.Grpc
/-!
# The sessions of one peer

`open_connection`, `open_worker_connection` and the two dialling functions
of `manager/grpc` and `worker/grpc`, seen from one peer. Whether a stream
is accepted or dialled, its handshake puts its sender into the session
map, which is keyed by the peer's id alone; its task announces the peer to
the service, reads until the stream ends, removes the key and reports the
peer disconnected. An accepted stream whose `ConnectResponse` cannot be
sent goes on to the removal without having announced anything. Beside the
tasks, the output task's `handle_common` evicts a session it finds closed.
All of them run concurrently; the service reads their messages in the
order in which they were sent.
-/

namespace NoSqlStore

namespace Sessions

/-- How far the task of a stream has come. -/
inductive Stage
  | unborn
  | registered
  | announced
  | removed
  | reported
  deriving DecidableEq

/-- How far the output task has come with a session it found closed. -/
inductive OutputStage
  | idle
  | foundClosed
  | evicted
  deriving DecidableEq

/-- What a task tells the service of the peer. -/
inductive Notice
  | connected (host : String) (port : ℕ)
  | disconnected
  deriving DecidableEq

/-- What a turn of the service reads from outside. -/
structure Turn where
  readings : Manager.Readings
  env : Worker.Env

/-- The node the sessions belong to: a manager, to which the peer is a
manager or a worker, or a worker. -/
inductive Owner
  | manager (service : Manager.Service) (peerType : NodeType)
  | worker (me : Me) (state : Worker.State) (store : RuntimeStore)

namespace Owner

/-- The turn of the service on a message about the peer. -/
def process (peer : NodeId) (notice : Notice) (turn : Turn) : Owner → Owner
  | .manager service peerType =>
    let msg : Manager.ManagerProtocol := match notice with
      | .connected host port => .newConnection (some peer) host port (peerType = .manager)
      | .disconnected => .nodeDisconnected peer
    .manager (service.process msg turn.readings).1 peerType
  | .worker me state store =>
    let msg : Worker.WorkerProtocol := match notice with
      | .connected host port => Worker.inputFromWorker peer host port
      | .disconnected => .nodeDisconnected peer
    let result := Worker.turn me state store (some msg) turn.env
    .worker me result.1 result.2.1

/-- The turn of the service on its ticker. -/
def tick (turn : Turn) : Owner → Owner
  | .manager service peerType => .manager (service.tick turn.readings).1 peerType
  | .worker me state store =>
    let result := Worker.turn me state store none turn.env
    .worker me result.1 result.2.1

/-- The peer is in the service's node table. -/
def Knows (peer : NodeId) : Owner → Prop
  | .manager service _ => peer ∈ service.state.nodes
  | .worker _ state _ => peer ∈ state.nodes

instance (peer : NodeId) : (owner : Owner) → Decidable (owner.Knows peer)
  | .manager service _ => inferInstanceAs (Decidable (peer ∈ service.state.nodes))
  | .worker _ state _ => inferInstanceAs (Decidable (peer ∈ state.nodes))

end Owner

/-- The streams of the peer, numbered, with the one in the session map,
the messages on their way to the service, and the service. `closed` are
the streams that have ended. -/
structure Link where
  stage : ℕ → Stage
  closed : Finset ℕ
  session : Option ℕ
  output : OutputStage
  queue : List Notice
  owner : Owner

/-- One step of one of the tasks, or the end of a stream. -/
inductive Event
  | register (stream : ℕ)
  | announce (stream : ℕ) (host : String) (port : ℕ)
  | close (stream : ℕ)
  | remove (stream : ℕ)
  | report (stream : ℕ)
  | findClosed
  | evict
  | tell
  | serve (turn : Turn)
  | tick (turn : Turn)

namespace Link

/-- The stream is open. -/
def Open (l : Link) (stream : ℕ) : Prop :=
  (l.stage stream = .registered ∨ l.stage stream = .announced) ∧ stream ∉ l.closed

def setStage (l : Link) (stream : ℕ) (stage : Stage) : Link :=
  { l with stage := Function.update l.stage stream stage }

def step (peer : NodeId) (l : Link) : Event → Link
  | .register stream => { l.setStage stream .registered with session := some stream }
  | .announce stream host port =>
    { l.setStage stream .announced with queue := l.queue ++ [.connected host port] }
  | .close stream => { l with closed := insert stream l.closed }
  | .remove stream => { l.setStage stream .removed with session := none }
  | .report stream => { l.setStage stream .reported with queue := l.queue ++ [.disconnected] }
  | .findClosed => { l with output := .foundClosed }
  | .evict => { l with session := none, output := .evicted }
  | .tell => { l with output := .idle, queue := l.queue ++ [.disconnected] }
  | .serve turn =>
    match l.queue with
    | [] => l
    | notice :: queue => { l with queue, owner := l.owner.process peer notice turn }
  | .tick turn => { l with owner := l.owner.tick turn }

/-- **The order each task keeps.** A stream registers once, announces the
peer, and removes the key and reports the peer after it has ended; the
output task evicts after it has found the session closed. -/
def Enabled (l : Link) : Event → Prop
  | .register stream => l.stage stream = .unborn ∧ stream ∉ l.closed
  | .announce stream _ _ => l.stage stream = .registered
  | .close stream => l.stage stream = .registered ∨ l.stage stream = .announced
  | .remove stream =>
    (l.stage stream = .registered ∨ l.stage stream = .announced) ∧ stream ∈ l.closed
  | .report stream => l.stage stream = .removed
  | .findClosed => l.output = .idle ∧ ∃ stream ∈ l.session, stream ∈ l.closed
  | .evict => l.output = .foundClosed
  | .tell => l.output = .evicted
  | .serve _ | .tick _ => True

/-- No stream yet, and the peer unknown. -/
structure Initial (peer : NodeId) (l : Link) : Prop where
  stage : ∀ stream, l.stage stream = .unborn
  closed : l.closed = ∅
  session : l.session = none
  output : l.output = .idle
  queue : l.queue = []
  unknown : ¬ l.owner.Knows peer

/-- **All events are processed**: every task is done, or reads an open
stream, the output task is idle, and the service has read every message. -/
structure Settled (l : Link) : Prop where
  stage : ∀ stream, l.stage stream = .unborn ∨ l.stage stream = .reported ∨
    (l.stage stream = .announced ∧ stream ∉ l.closed)
  output : l.output = .idle
  queue : l.queue = []

/-- **An open stream keeps the peer**: while there is one, the session map
holds an open one and the service has the peer in its table. -/
def KeepsPeer (peer : NodeId) (l : Link) : Prop :=
  (∃ stream, l.Open stream) →
    (∃ stream ∈ l.session, l.Open stream) ∧ l.owner.Knows peer

end Link

/-- Whether the last event on the session map is a registration, given
whether the last one before this event was. -/
def registeredAfter (registered : Bool) : Event → Bool
  | .register _ => true
  | .remove _ | .evict => false
  | _ => registered

/-- Whether the last message to the service announces the peer, given
whether the last one before this event did. -/
def announcedAfter (announced : Bool) : Event → Bool
  | .announce _ _ _ => true
  | .report _ | .tell => false
  | _ => announced

/-- **The last event on the session map is a registration**: no stream,
and not the output task, has removed the key since. -/
def endsRegistered (events : List Event) : Bool := events.foldl registeredAfter false

/-- **The last message to the service announces the peer**: none has
reported it disconnected since. -/
def endsAnnounced (events : List Event) : Bool := events.foldl announcedAfter false

end Sessions

end NoSqlStore
