import Mathlib.Logic.Function.Basic
import NoSqlStore.Common.Runs
import NoSqlStore.Model.RuntimeStore
/-!
# The writers of a partition, action by action

`WriterGuard` and `stable_revision` of `worker/runtime_store.rs` at the
grain of their atomics, which are all sequentially consistent: any
interleaving of single actions is a run. A `Shard` is one partition store,
from when it is made until an expiry that empties it drops it from the
cache (`remove_partition_if_empty`, after which a write makes a new one),
with the revision counter, which the other partitions share, and the
threads that write it. `put` and `delete_at` hold the write lock of the
shard while their guard lives, and the two expiries a read lock, so a
thread that may not start waits. `stable_revision` is four loads, between
which anything may happen.
-/

namespace NoSqlStore

/-- What a thread does to a partition under a guard. -/
inductive Job
  /-- `put` and `delete_at`. -/
  | write (key : Key) (mutation : Mutation)
  /-- The expiries of `get_versioned` and `remove_expired`. -/
  | expire (key : Key) (nowMs : ℕ)

namespace Job

/-- The key the guard notes in the journal. -/
def changedKey : Job → Option Key
  | .write key _ => some key
  | .expire _ _ => none

/-- `compare_insert`, or `Entry::remove` of an entry that has expired. -/
def change (records : Map Key Mutation) : Job → Map Key Mutation
  | .write key mutation => compareInsert records key mutation
  | .expire key nowMs =>
    if records[key]?.any (Mutation.expired nowMs) then records.erase key else records

/-- The journal once the guard has noted its key, if it has one. -/
def note (changes : Map ℕ Key) (revision : ℕ) (job : Job) : Map ℕ Key :=
  match job.changedKey with
  | some key => changes.insert revision key
  | none => changes

/-- Whether the job holds the write lock. -/
def exclusive (job : Job) : Bool := job.changedKey.isSome

end Job

/-- Where a thread stands in its job: the actions of `PartitionStore::writer`,
of the call and of `WriterGuard::drop`, in their order. -/
inductive Thread
  | idle
  /-- `active_writers.fetch_add`. -/
  | entered (job : Job)
  /-- The records are changed. -/
  | changed (job : Job)
  /-- `next_revision.fetch_add`. -/
  | took (job : Job) (revision : ℕ)
  /-- `changes.insert`. -/
  | journalled (job : Job) (revision : ℕ)
  /-- `revision.store`. -/
  | stored (job : Job)

/-- The job a thread is at. -/
def Thread.job? : Thread → Option Job
  | .idle => none
  | .entered job | .changed job | .took job _ | .journalled job _ | .stored job => some job

/-- A partition store, the counter and the threads. -/
structure Shard where
  partition : PartitionStore
  nextRevision : ℕ
  threads : ℕ → Thread
  /-- The threads that have ever started. -/
  started : List ℕ

/-- What happens at a shard. -/
inductive Act
  /-- A thread takes its lock and enters. -/
  | start (t : ℕ) (job : Job)
  /-- The next action of a thread. -/
  | advance (t : ℕ)
  /-- A writer of another partition takes a revision. -/
  | elsewhere
  /-- `prune_partition_changes`. -/
  | prune (throughRevision : ℕ)

namespace Shard

variable (s : Shard)

/-- A partition store as it is made, when the counter is at `n`. -/
def new (n : ℕ) : Shard := ⟨default, n, fun _ => .idle, []⟩

/-- Whether the lock of the shard is free for the job: no thread holds the
write lock, and none holds any for a job that needs it. -/
def free (job : Job) : Bool :=
  s.started.all fun t => (s.threads t).job?.all fun other => !other.exclusive && !job.exclusive

/-- Moving one thread. -/
def move (t : ℕ) (thread : Thread) : Shard :=
  { s with threads := Function.update s.threads t thread }

/-- A thread that is idle takes the lock, if it is free, and enters. -/
def start (t : ℕ) (job : Job) : Shard :=
  match s.threads t with
  | .idle =>
    if s.free job then
      { s.move t (.entered job) with
        partition := { s.partition with activeWriters := s.partition.activeWriters + 1 }
        started := t :: s.started }
    else s
  | _ => s

def advance (t : ℕ) : Shard :=
  match s.threads t with
  | .idle => s
  | .entered job =>
    { s.move t (.changed job) with
      partition := { s.partition with records := job.change s.partition.records } }
  | .changed job =>
    { s.move t (.took job (s.nextRevision + 1)) with nextRevision := s.nextRevision + 1 }
  | .took job revision =>
    { s.move t (.journalled job revision) with
      partition := { s.partition with changes := job.note s.partition.changes revision } }
  | .journalled job revision =>
    { s.move t (.stored job) with partition := { s.partition with revision } }
  | .stored _ =>
    { s.move t .idle with
      partition := { s.partition with activeWriters := s.partition.activeWriters - 1 } }

def prune (throughRevision : ℕ) : Shard :=
  { s with partition := { s.partition with
      changes := s.partition.changes.filter fun revision _ => throughRevision < revision } }

def step : Act → Shard
  | .start t job => s.start t job
  | .advance t => s.advance t
  | .elsewhere => { s with nextRevision := s.nextRevision + 1 }
  | .prune throughRevision => s.prune throughRevision

/-- `stable_revision`, called in this state, where `a`, `b` and `c` happen
between its loads. -/
def stableRevision (a b c : List Act) : Option ℕ :=
  let revisionBefore := s.partition.revision
  let s := Runs.run step s a
  if s.partition.activeWriters ≠ 0 then none
  else
    let s := Runs.run step s b
    let revisionAfter := s.partition.revision
    let writersAfter := (Runs.run step s c).partition.activeWriters
    if revisionBefore = revisionAfter ∧ writersAfter = 0 then some revisionAfter else none

end Shard

end NoSqlStore
