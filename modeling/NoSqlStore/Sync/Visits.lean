import NoSqlStore.Sync.Sound
/-!
# What every tick does

The facts of `Sync/Sound.lean` hold of the ticks of a sound run. Those
here hold of every tick whatsoever (`announced_syncPartitions`): it leaves
the membership, the table and the leader as they are, and what it puts out
besides heartbeats and batches is one acknowledgement for each recipient
it completes, in the order in which it completes them.
-/

namespace NoSqlStore

namespace Worker

variable {me : Me} {p q : PartitionId} {h g : NodeId} {t t' t'' t₀ : Tick}

/-! ## One round -/

/-- **What a round for one recipient leaves alone and puts out**: it
rewrites the states of the synchronisations, and sends batches. -/
structure Inner (h : NodeId) (t t' : Tick) : Prop where
  state : ∃ sync, t'.state = { t.state with sync }
  output : ∃ batches : List SyncBatchRequest, t'.output = t.output ++ batches.map (.syncBatch h)

theorem Inner.refl (t : Tick) : Inner h t t := ⟨⟨t.state.sync, rfl⟩, ⟨[], by simp⟩⟩

theorem Inner.trans (h₁ : Inner h t t') (h₂ : Inner h t' t'') : Inner h t t'' := by
  obtain ⟨s₁, hs₁⟩ := h₁.state
  obtain ⟨s₂, hs₂⟩ := h₂.state
  obtain ⟨b₁, hb₁⟩ := h₁.output
  obtain ⟨b₂, hb₂⟩ := h₂.output
  refine ⟨⟨s₂, by rw [hs₂, hs₁]⟩, ⟨b₁ ++ b₂, ?_⟩⟩
  rw [hb₂, hb₁, List.map_append, List.append_assoc]

/-- A part of a round that puts nothing out and keeps the state. -/
theorem Inner.of_eq (hstate : t'.state = t.state) (houtput : t'.output = t.output) :
    Inner h t t' := ⟨⟨t.state.sync, by rw [hstate]⟩, ⟨[], by rw [houtput]; simp⟩⟩

theorem moving_inner (me : Me) (p : PartitionId) (h : NodeId) : Moving me p h (Inner h) where
  refl := .refl
  trans := .trans
  interleave _ := .of_eq rfl rfl
  now _ := .of_eq rfl rfl
  log _ _ _ := .of_eq rfl rfl
  setSyncState _ _ := ⟨⟨_, rfl⟩, ⟨[], (List.append_nil _).symm⟩⟩
  pushBatch _ _ _ := ⟨⟨_, rfl⟩, ⟨[_], rfl⟩⟩

theorem inner_syncPartitionToRecipient (me : Me) (p : PartitionId) (h : NodeId) (t : Tick) :
    Inner h t (syncPartitionToRecipient me p h t).2 := (moving_inner me p h).round t

/-! ## One tick -/

/-- **The part of the state no tick writes.** -/
def Fixed (t t' : Tick) : Prop :=
  ∃ sync actualNodesSyncCompletion,
    t'.state = { t.state with sync, actualNodesSyncCompletion }

theorem Fixed.refl (t : Tick) : Fixed t t := ⟨t.state.sync, _, rfl⟩

theorem Fixed.trans (h₁ : Fixed t t') (h₂ : Fixed t' t'') : Fixed t t'' := by
  obtain ⟨s₁, a₁, hs₁⟩ := h₁
  obtain ⟨s₂, a₂, hs₂⟩ := h₂
  exact ⟨s₂, a₂, by rw [hs₂, hs₁]⟩

theorem Inner.fixed (hi : Inner h t t') : Fixed t t' := by
  obtain ⟨sync, hsync⟩ := hi.state
  exact ⟨sync, _, hsync⟩

theorem Fixed.nodes (hf : Fixed t t') : t'.state.nodes = t.state.nodes := by
  obtain ⟨s, a, hs⟩ := hf
  rw [hs]

theorem Fixed.partitions (hf : Fixed t t') : t'.state.partitions = t.state.partitions := by
  obtain ⟨s, a, hs⟩ := hf
  rw [hs]

theorem Fixed.leader (hf : Fixed t t') : t'.state.electedLeaderId = t.state.electedLeaderId := by
  obtain ⟨s, a, hs⟩ := hf
  rw [hs]

/-- The acknowledgements in a list of messages. -/
def acks (output : List WorkerProtocol) : List (NodeId × NodeId × PartitionId) :=
  output.filterMap fun
    | .removePartitionFromReplica id replicaId partitionId => some (id, replicaId, partitionId)
    | _ => none

/-- The completions in a trace. -/
def completions (trace : List Trace) : List (PartitionId × NodeId) :=
  trace.filterMap fun
    | .completed partition recipient _ => some (partition, recipient)
    | _ => none

@[simp] theorem acks_append (l l' : List WorkerProtocol) : acks (l ++ l') = acks l ++ acks l' :=
  List.filterMap_append

@[simp] theorem completions_append (l l' : List Trace) :
    completions (l ++ l') = completions l ++ completions l' := List.filterMap_append

theorem completions_prefix {l l' : List Trace} (hp : l <+: l') :
    completions l <+: completions l' := hp.filterMap _

/-- What a tick puts out: heartbeats, batches and acknowledgements. -/
def WorkerProtocol.ofTick : WorkerProtocol → Bool
  | .heartbeat _ _ _ | .syncBatch _ _ | .removePartitionFromReplica _ _ _ => true
  | _ => false

/-- **The acknowledgements of a tick are those of its completions**, one
for each, if a leader is known. -/
structure Announced (me : Me) (t₀ t : Tick) : Prop where
  fixed : Fixed t₀ t
  kinds : ∀ o ∈ t.output, o.ofTick = true
  acks : acks t.output = match t₀.state.electedLeaderId with
    | some leaderId => (completions t.trace).map fun e => (leaderId, me.id, e.1)
    | none => []

theorem completions_of_grows {l l' : List Trace} (hg : Grows l l') :
    completions l' = completions l := by
  obtain ⟨extra, rfl, hextra⟩ := hg
  have hnone : completions extra = [] := by
    refine List.filterMap_eq_nil_iff.mpr fun e he => ?_
    have hkind := hextra e he
    cases e with
    | completed _ _ _ => cases hkind
    | _ => rfl
  rw [completions_append, hnone, List.append_nil]

theorem acks_batches (h : NodeId) (batches : List SyncBatchRequest) :
    Worker.acks (batches.map (WorkerProtocol.syncBatch h)) = [] := by
  refine List.filterMap_eq_nil_iff.mpr fun o ho => ?_
  obtain ⟨request, -, rfl⟩ := List.mem_map.mp ho
  rfl

theorem output_recordCompletedSync (me : Me) (p : PartitionId) (h : NodeId) (t : Tick) :
    (recordCompletedSync me p h t).output = t.output ++
      t.state.electedLeaderId.toList.map fun leaderId =>
        .removePartitionFromReplica leaderId me.id p := by
  unfold recordCompletedSync
  by_cases hown : nodeOwnsPartition t.state.partitions p me.id = true
  · simp only [if_pos hown]
    cases t.state.electedLeaderId <;> rfl
  · simp only [if_neg hown]
    cases t.state.electedLeaderId <;> rfl

theorem Announced.syncRecipient (ha : Announced me t₀ t) (p : PartitionId) (h : NodeId) :
    Announced me t₀ (syncRecipient me p h t) := by
  have hinner := inner_syncPartitionToRecipient me p h (t.touch p)
  obtain ⟨n, hpassed⟩ := (frame_syncPartitionToRecipient me p h (t.touch p)).passed
  have htrace := completions_of_grows hpassed.trace
  unfold Worker.syncRecipient
  generalize syncPartitionToRecipient me p h (t.touch p) = result at hinner htrace
  obtain ⟨done, t₁⟩ := result
  obtain ⟨batches, hbatches⟩ := hinner.output
  have htouch : Fixed t (t.touch p) := ⟨_, _, rfl⟩
  have hfixed := ha.fixed.trans (htouch.trans hinner.fixed)
  have hout : t₁.output = t.output ++ batches.map (.syncBatch h) := hbatches
  have hdone : completions t₁.trace = completions t.trace := htrace
  have hkinds : ∀ o ∈ t₁.output, o.ofTick = true := by
    intro o ho
    rw [hout] at ho
    rcases List.mem_append.mp ho with hin | hin
    · exact ha.kinds o hin
    · obtain ⟨request, -, rfl⟩ := List.mem_map.mp hin
      rfl
  have hacks : Worker.acks t₁.output = Worker.acks t.output := by
    rw [hout, acks_append, acks_batches, List.append_nil]
  cases done with
  | false =>
    refine ⟨hfixed, hkinds, ?_⟩
    dsimp only
    rw [hacks, hdone]
    exact ha.acks
  | true =>
    refine ⟨hfixed.trans ?_, ?_, ?_⟩
    · unfold recordCompletedSync
      dsimp only
      split <;> exact ⟨_, _, rfl⟩
    · intro o ho
      rw [output_recordCompletedSync] at ho
      rcases List.mem_append.mp ho with hin | hin
      · exact hkinds o hin
      · obtain ⟨leaderId, -, rfl⟩ := List.mem_map.mp hin
        rfl
    · have hrecorded := output_recordCompletedSync me p h (t₁.log (.completed p h (t₁.records p)))
      have hleader₁ : (t₁.log (.completed p h (t₁.records p))).state.electedLeaderId =
          t₀.state.electedLeaderId := hfixed.leader
      rw [hleader₁] at hrecorded
      have hlogged : (recordCompletedSync me p h (t₁.log (.completed p h (t₁.records p)))).trace =
          t₁.trace ++ [.completed p h (t₁.records p)] := rfl
      have houtput : (t₁.log (.completed p h (t₁.records p))).output = t₁.output := rfl
      rw [hrecorded, hlogged, houtput, acks_append, completions_append, hacks, hdone, ha.acks]
      cases t₀.state.electedLeaderId with
      | none => rfl
      | some leaderId => simp [Worker.acks, completions]

/-- A part of a tick that puts nothing out and completes nobody. -/
theorem Announced.of_silent (ha : Announced me t₀ t) (hf : Fixed t t')
    (houtput : t'.output = t.output) (htrace : completions t'.trace = completions t.trace) :
    Announced me t₀ t' := by
  refine ⟨ha.fixed.trans hf, fun o ho => ha.kinds o (houtput ▸ ho), ?_⟩
  rw [houtput, htrace]
  exact ha.acks

theorem Announced.retain (ha : Announced me t₀ t) (p : PartitionId)
    (keep : NodeId → SyncState → Bool) : Announced me t₀ (retainRecipients p t keep) :=
  ha.of_silent ⟨_, _, rfl⟩ rfl rfl

theorem Announced.prune (ha : Announced me t₀ t) (p : PartitionId) :
    Announced me t₀ (pruneChanges p t) := by
  unfold pruneChanges
  dsimp only
  split
  · exact ha.of_silent (.refl t) rfl rfl
  · split
    · exact ha.of_silent (.refl t) rfl rfl
    · exact ha.of_silent (.refl t) rfl rfl

theorem Announced.remove (ha : Announced me t₀ t) (e : PartitionId × Map NodeId SyncState) :
    Announced me t₀ (removeCompletedSync me t e) := by
  unfold removeCompletedSync
  split
  · dsimp only
    split
    · exact ha.of_silent ⟨_, _, rfl⟩ rfl rfl
    · refine ha.of_silent ⟨_, _, rfl⟩ rfl ?_
      exact (completions_append t.trace _).trans (List.append_nil _)
  · exact ha

theorem Announced.syncPartition (ha : Announced me t₀ t) (p : PartitionId) (ids : List NodeId) :
    Announced me t₀ (syncPartition me p t ids) := by
  unfold Worker.syncPartition
  have hleft := ha.retain p fun id _ => decide (id ∈ t.state.nodes)
  have hloop := Runs.run_keeps (I := Announced me t₀) (fun _ h hat => hat.syncRecipient p h)
    hleft ids
  exact (hloop.retain p _).prune p

/-- **A tick announces its completions.** -/
theorem announced_syncPartitions (me : Me) (order : Enumeration)
    (hkinds : ∀ o ∈ t.output, o.ofTick = true) (hacks : acks t.output = [])
    (htrace : t.trace = []) : Announced me t (syncPartitions me order t) := by
  have hstart : Announced me t t := by
    refine ⟨.refl t, hkinds, ?_⟩
    rw [hacks, htrace]
    cases t.state.electedLeaderId <;> rfl
  rw [syncPartitions_eq]
  refine Runs.run_keeps (I := Announced me t) (fun _ e ha => ha.remove e) ?_ _
  exact Runs.run_keeps (I := Announced me t) (fun _ partition ha => ha.syncPartition _ _) hstart
    (List.range partitionsAmount)

/-- Heartbeats are no acknowledgements. -/
theorem ofTick_heartbeats (state : State) (me : Me) (now : ℕ) :
    (∀ o ∈ (heartbeats state me now).2, o.ofTick = true) ∧
      acks (heartbeats state me now).2 = [] := by
  unfold heartbeats
  split
  · split
    · refine ⟨fun o ho => ?_, List.filterMap_eq_nil_iff.mpr fun o ho => ?_⟩
      · obtain ⟨id, -, rfl⟩ := List.mem_map.mp ho
        rfl
      · obtain ⟨id, -, rfl⟩ := List.mem_map.mp ho
        rfl
    · exact ⟨by simp, rfl⟩
  · exact ⟨by simp, rfl⟩

/-- The tick of the service announces the completions of its round. -/
theorem announced_tick (me : Me) (env : Env) (state : State) (store : RuntimeStore)
    (sent : List Sent) :
    Announced me ⟨(heartbeats state me env.heartbeatNow).1, store,
      (heartbeats state me env.heartbeatNow).2, env.schedule, env.clock, sent, []⟩
      (tick me env state store sent) := by
  obtain ⟨hkinds, hacks⟩ := ofTick_heartbeats state me env.heartbeatNow
  exact announced_syncPartitions me env.order hkinds hacks rfl

/-- Heartbeats add and remove no node. -/
theorem mem_nodes_heartbeats {state : State} {now : ℕ} {n : NodeId} :
    n ∈ (heartbeats state me now).1.nodes ↔ n ∈ state.nodes := by
  unfold heartbeats
  split
  · rename_i node hnode
    split
    · have hme : me.id ∈ state.nodes := by
        rw [Std.ExtTreeMap.mem_iff_isSome_getElem?, hnode]
        rfl
      rw [Std.ExtTreeMap.mem_insert, compare_eq_iff_eq]
      exact or_iff_right_of_imp fun heq => heq ▸ hme
    · rfl
  · rfl

/-- A tick adds and removes no node. -/
theorem mem_nodes_tick {env : Env} {state : State} {store : RuntimeStore} {sent : List Sent}
    {n : NodeId} : n ∈ (tick me env state store sent).state.nodes ↔ n ∈ state.nodes := by
  rw [(announced_tick me env state store sent).fixed.nodes]
  exact mem_nodes_heartbeats

end Worker

end NoSqlStore
