import NoSqlStore.Model.Grpc
import NoSqlStore.Sync.Rounds
import NoSqlStore.Sync.World
/-!
# What a worker says

Whatever its state and whatever it is told, a turn of a worker's service
says things of the worker alone (`own_turn`): its own heartbeats, its own
batches, the acknowledgement of its own partitions; it asks managers and
dials nodes, and it tells nobody of a leader, a table or a disconnection.
-/

namespace NoSqlStore

namespace Worker

open Runs

variable {me : Me} {p : PartitionId} {h : NodeId} {t : Tick}

/-- **What a worker says, it says of itself**, and of partitions there
are. -/
def Own (me : Me) : WorkerProtocol → Prop
  | .heartbeat _ heartbeatId _ => heartbeatId = me.id
  | .syncBatch _ request => request.senderId = me.id
  | .syncBatchResponse _ keys => ∀ (p : PartitionId) (key : Key), keys[p]? = some key →
    p.id < partitionsAmount
  | .removePartitionFromReplica _ replicaId p => replicaId = me.id ∧ p.id < partitionsAmount
  | .newConnection id _ _ _ => id = none
  | .getClusterState _ => True
  | .clusterState _ | .leader _ _ _ | .nodeDisconnected _ => False

/-- All that is put out so far is so. -/
def Owns (me : Me) (t : Tick) : Prop := ∀ o ∈ t.output, Own me o

theorem moving_owns (me : Me) (p : PartitionId) (h : NodeId) :
    Moving me p h fun t t' => Owns me t → Owns me t' where
  refl _ ht := ht
  trans h₁ h₂ ht := h₂ (h₁ ht)
  interleave _ ht := ht
  now _ ht := ht
  log _ _ _ ht := ht
  setSyncState _ _ ht := ht
  pushBatch _ _ _ ht o ho := by
    rcases List.mem_append.1 ho with ho | ho
    · exact ht o ho
    · obtain rfl := List.mem_singleton.1 ho
      rfl

theorem Owns.syncRecipient (ht : Owns me t) (hp : p.id < partitionsAmount) :
    Owns me (syncRecipient me p h t) := by
  have hround := (moving_owns me p h).round (t.touch p) ht
  unfold Worker.syncRecipient
  generalize syncPartitionToRecipient me p h (t.touch p) = result at hround
  obtain ⟨_ | _, t₁⟩ := result
  · exact hround
  · intro o ho
    rw [output_recordCompletedSync] at ho
    rcases List.mem_append.1 ho with ho | ho
    · exact hround o ho
    · obtain ⟨leaderId, -, rfl⟩ := List.mem_map.1 ho
      exact ⟨rfl, hp⟩

theorem output_pruneChanges (p : PartitionId) (t : Tick) :
    (pruneChanges p t).output = t.output := by
  unfold pruneChanges
  dsimp only
  split
  · rfl
  · split <;> rfl

theorem Owns.syncPartition (ht : Owns me t) (hp : p.id < partitionsAmount) (ids : List NodeId) :
    Owns me (syncPartition me p t ids) := by
  have hrounds : Owns me (rounds me p (retainRecipients p t fun id _ => id ∈ t.state.nodes) ids) :=
    run_keeps (I := Owns me) (fun _ _ ht => ht.syncRecipient hp)
      (show Owns me (retainRecipients p t _) from ht) ids
  intro o ho
  rw [syncPartition_eq, output_pruneChanges] at ho
  exact hrounds o ho

theorem owns_tick (me : Me) (env : Env) (state : State) (store : RuntimeStore) :
    Owns me (tick me env state store []) := by
  have hstart : ∀ o ∈ (heartbeats state me env.heartbeatNow).2, Own me o := by
    intro o ho
    unfold heartbeats at ho
    split at ho
    · split at ho
      · obtain ⟨key, -, rfl⟩ := List.mem_map.1 ho
        rfl
      · cases ho
    · cases ho
  unfold tick syncPartitions removeCompletedSyncsAndObsoletePartitions
  refine run_keeps (I := Owns me) (fun t e ht => ?_) ?_ _
  · unfold removeCompletedSync
    split
    · dsimp only
      split <;> exact ht
    · exact ht
  · exact run_inv (fun t partition (ht : Owns me t) hp => ht.syncPartition hp _) hstart
      (along_of_forall fun partition hin => List.mem_range.1 hin)

theorem own_handle (state : State) (store : RuntimeStore) (now : ℕ) (msg : WorkerProtocol) :
    ∀ o ∈ (handle me state store now msg).2.2, Own me o := by
  have hasked : ∀ o ∈ askManagers state me, Own me o := by
    intro o ho
    obtain ⟨id, -, rfl⟩ := List.mem_map.1 ho
    trivial
  intro o ho
  cases msg with
  | newConnection id host port manager =>
    cases id with
    | none => cases ho
    | some id =>
      simp only [handle, handleNewConnection] at ho
      split at ho
      · obtain rfl := List.mem_singleton.1 ho
        trivial
      · cases ho
  | heartbeat sender id ts =>
    simp only [handle, handleHeartbeat] at ho
    split at ho
    · exact hasked o ho
    · cases ho
  | clusterState st =>
    simp only [handle, handleClusterState] at ho
    split at ho
    · have hmerged : ∀ items : List ClusterNode, ∀ acc : Map NodeId Node × List WorkerProtocol,
          (∀ o ∈ acc.2, Own me o) → ∀ o ∈ (items.foldl mergeNode acc).2, Own me o := by
        intro items acc hacc
        refine run_keeps (I := fun acc : Map NodeId Node × List WorkerProtocol =>
          ∀ o ∈ acc.2, Own me o) (fun acc item hacc => ?_) hacc items
        unfold mergeNode
        split
        · split <;> exact hacc
        · intro o ho
          rcases List.mem_append.1 ho with ho | ho
          · exact hacc o ho
          · obtain rfl := List.mem_singleton.1 ho
            rfl
      exact hmerged _ _ (fun o ho => absurd ho List.not_mem_nil) o ho
    · cases ho
  | leader id epoch ts =>
    simp only [handle, handleLeader] at ho
    split at ho
    · split at ho
      · split at ho
        · cases ho
        · exact hasked o ho
      · exact hasked o ho
    · cases ho
  | removePartitionFromReplica sender replicaId p =>
    simp only [handle, handleRemoveOldPartition] at ho
    split at ho
    · exact hasked o ho
    · cases ho
  | syncBatch rcpt request =>
    obtain rfl := List.mem_singleton.1 ho
    intro p key hkey
    obtain ⟨record, -, rfl⟩ := exists_of_maxAppliedKeys hkey
    exact Nat.mod_lt _ partitionsAmount_pos
  | getClusterState | nodeDisconnected | syncBatchResponse => cases ho

/-- **A turn says nothing of others.** -/
theorem own_turn (me : Me) (state : State) (store : RuntimeStore) (msg : Option WorkerProtocol)
    (env : Env) : ∀ o ∈ (turn me state store msg env).2.2, Own me o := by
  intro o ho
  cases msg with
  | none => exact owns_tick me env state store o ho
  | some msg =>
    rcases List.mem_append.1 ho with ho | ho
    · exact own_handle state store env.handleNow msg o ho
    · exact owns_tick me env _ _ o ho

end Worker

end NoSqlStore
