import NoSqlStore.Sync.Completions
/-!
# What a worker remembers of a completed synchronisation

A holder that keeps its partition records a completion with the time of
its table, and no longer selects the recipient while the table is the
same. An old replica selects every holder at every tick, whatever it has
completed, and starts again. So a completed synchronisation rests, for as
long as the table does, where the worker is not an old replica of the
partition (`completed_sync_rests`); `old_replica_starts_again` is the other
case.
-/

namespace NoSqlStore

namespace Worker

open Runs

variable {me : Me} {p q : PartitionId} {h g : NodeId} {t t' : Tick} {state : State}

theorem not_recipient_of_remembered (hr : Remembered p h state)
    (hold : me.id ∉ state.partitions.olds p) : h ∉ Ledger.recipientsOf me state p := by
  intro hh
  obtain ⟨-, ⟨hin, -⟩ | ⟨-, -, new, -, -, -, hnot⟩⟩ := Manager.mem_recipients.mp hh
  · exact hold hin
  · exact hnot (mem_synced.mpr hr)

/-! ## The tick that completes -/

/-- The recipient is neither completed nor sent a batch. -/
def Unvisited (p : PartitionId) (h : NodeId) (base : List Sent) (t : Tick) : Prop :=
  (p, h) ∉ completions t.trace ∧ batchesTo p h t.sent = base

/-- The recipient is completed once at most, and then has been sent no
batch. -/
def Once (p : PartitionId) (h : NodeId) (base : List Sent) (t : Tick) : Prop :=
  (completions t.trace).count (p, h) ≤ 1 ∧
    ((p, h) ∈ completions t.trace → batchesTo p h t.sent = base)

variable {base : List Sent}

theorem bystander_unvisited (me : Me) (p : PartitionId) (h : NodeId) (base : List Sent) :
    Bystander me p h (Unvisited p h base) where
  touch t q hu := hu
  interleave t hu := hu
  round t t' q g hne hf ha hu := by
    obtain ⟨n, hpassed⟩ := hf.passed
    rw [Unvisited, completions_of_grows hpassed.trace, ha.batchesTo_eq hne]
    exact hu
  record t q g records hne hu :=
    ⟨fun hin => hu.1 ((mem_completions_record hne records).mp hin), hu.2⟩
  leave t q hu := hu
  settle t q _ hu := hu
  prune t q through _ hu := hu

theorem bystander_once (me : Me) (p : PartitionId) (h : NodeId) (base : List Sent) :
    Bystander me p h (Once p h base) where
  touch t q ho := ho
  interleave t ho := ho
  round t t' q g hne hf ha ho := by
    obtain ⟨n, hpassed⟩ := hf.passed
    rw [Once, completions_of_grows hpassed.trace, ha.batchesTo_eq hne]
    exact ho
  record t q g records hne ho := by
    refine ⟨?_, fun hin => ho.2 ((mem_completions_record hne records).mp hin)⟩
    have hother : [(q, g)].count (p, h) = 0 := by
      rw [List.count_eq_zero, List.mem_singleton, Prod.mk.injEq]
      exact fun heq => hne ⟨heq.1.symm, heq.2.symm⟩
    rw [completions_record, List.count_append, hother]
    exact ho.1
  leave t q ho := ho
  settle t q _ ho := ho
  prune t q through _ ho := ho

/-- The recipient's own round. -/
theorem Unvisited.syncRecipient (hu : Unvisited p h base t) :
    Once p h base (syncRecipient me p h t) := by
  have hzero : (completions t.trace).count (p, h) = 0 := List.count_eq_zero.mpr hu.1
  rw [Once, completions_syncRecipient]
  by_cases hc : (syncPartitionToRecipient me p h (t.touch p)).1 = true
  · have hsent := sent_of_completed hc
    rw [if_pos hc]
    refine ⟨?_, fun _ => ?_⟩
    · rw [List.count_append, hzero, List.count_singleton_self]
    · unfold Worker.syncRecipient
      generalize syncPartitionToRecipient me p h (t.touch p) = result at hc hsent
      obtain ⟨_ | _, t₁⟩ := result
      · cases hc
      · change batchesTo p h t₁.sent = base
        rw [hsent]
        exact hu.2
  · rw [if_neg hc, List.append_nil]
    exact ⟨by omega, fun hin => absurd hin hu.1⟩

theorem Unvisited.once (hu : Unvisited p h base t) : Once p h base t :=
  ⟨by rw [List.count_eq_zero.mpr hu.1]; exact Nat.zero_le 1, fun hin => absurd hin hu.1⟩

/-- The visit of the partition, whose recipients are visited once each. -/
theorem Unvisited.visit (hu : Unvisited p h base t) {ids : List NodeId} (hnodup : ids.Nodup) :
    Once p h base (syncPartition me p t ids) := by
  have hb := bystander_unvisited me p h base
  have ho := bystander_once me p h base
  have hrounds : Once p h base
      (rounds me p (retainRecipients p t fun id _ => id ∈ t.state.nodes) ids) := by
    by_cases hin : h ∈ ids
    · exact run_once (fun t g hg ht => hb.syncRecipient (fun heq => hg heq.2) ht)
        (fun t ht => Unvisited.syncRecipient ht)
        (fun t g hg ht => ho.syncRecipient (fun heq => hg heq.2) ht) hnodup hin (hb.leave t p hu)
    · have hkept : Unvisited p h base
          (rounds me p (retainRecipients p t fun id _ => id ∈ t.state.nodes) ids) :=
        run_avoids (fun t g hg ht => hb.syncRecipient (fun heq => hg heq.2) ht) hin
          (hb.leave t p hu)
      exact hkept.once
  obtain ⟨hsent, -⟩ := sent_syncPartition me p t ids
  rw [Once, hsent, syncPartition_eq, trace_pruneChanges]
  exact hrounds

/-- **A tick completes a recipient once at most**, and sends nothing of the
partition to one it completes. -/
theorem Unvisited.syncPartitions (hu : Unvisited p h base t) (order : Enumeration) :
    Once p h base (syncPartitions me order t) := by
  have hb := bystander_unvisited me p h base
  have hsynced : Once p h base (t.synced me order) := by
    by_cases hp : p.id < partitionsAmount
    · exact synced_once hp (fun t q ids hq ht => hb.syncPartition hq ids ht)
        (fun t ht => ht.visit (order.nodup_toList _))
        (fun t q ids hq ht => (bystander_once me p h base).syncPartition hq ids ht) hu
    · have hkept : Unvisited p h base (t.synced me order) :=
        run_avoids (a := p.id)
          (fun t' i hi ht => hb.syncPartition (fun heq => hi (congrArg PartitionId.id heq)) _ ht)
          (fun hin => hp (List.mem_range.mp hin)) hu
      exact hkept.once
  rw [Once, syncPartitions_eq, completions_removeCompletedSyncs, (sent_removeCompletedSyncs me _).1]
  exact hsynced

namespace World

variable {w : World} {env : Env} {a : Action}

/-! ## Whole runs -/

/-- **A tick sends a partition to its recipients only.** -/
theorem batchesTo_ticked (hh : h ∉ Ledger.recipientsOf me w.state p) :
    batchesTo p h (w.ticked me env).sent = batchesTo p h w.sent := by
  have hsynced : Announced me (w.ticking me env) ((w.ticking me env).synced me env.order) ∧
      batchesTo p h ((w.ticking me env).synced me env.order).sent = batchesTo p h w.sent := by
    refine run_keeps (I := fun t : Tick => Announced me (w.ticking me env) t ∧
      batchesTo p h t.sent = batchesTo p h w.sent) (fun t partition ht => ⟨?_, ?_⟩)
      ⟨announced_ticking w me env, rfl⟩ (List.range partitionsAmount)
    · exact ht.1.syncPartition _ _
    · refine (batchesTo_syncPartition ?_ t).trans ht.2
      rintro ⟨rfl, hin⟩
      rw [env.order.mem_toList, recipients, ht.1.fixed.partitions, ht.1.fixed.nodes] at hin
      rw [← recipients_heartbeats w.state env.heartbeatNow] at hh
      exact hh hin
  change batchesTo p h (removeCompletedSyncsAndObsoletePartitions me
    ((w.ticking me env).synced me env.order)).sent = _
  rw [(sent_removeCompletedSyncs me _).1]
  exact hsynced.2

theorem sent_of_receive (me : Me) (w : World) (a : Action) : (w.receive me a).sent = w.sent := by
  cases a with
  | message msg env => cases msg <;> rfl
  | deliver i =>
    simp only [receive]
    split <;> rfl
  | respond i env =>
    simp only [receive]
    split
    · rfl
    · split <;> rfl
  | store event => rfl
  | tick env => rfl
  | peer g event => rfl

/-- The table stays, and the recipient stays connected. -/
structure Steady (me : Me) (h : NodeId) (w : World) (a : Action) : Prop where
  table : (w.step me a).state.partitions = w.state.partitions
  connected : h ∈ (w.step me a).state.nodes

/-- **The synchronisation rests**: no batch of the partition is sent to the
recipient and its completion is not announced. -/
structure Rests (me : Me) (p : PartitionId) (h : NodeId) (w : World) (later : List Action) :
    Prop where
  batches : batchesTo p h (run (step me) w later).sent = batchesTo p h w.sent
  uncompleted : Along (step me) (fun w a => (p, h) ∉ completions (w.traceOf me a)) w later

/-- The worker holds the partition, is no old replica of it, and remembers
the recipient. -/
structure Settled (me : Me) (p : PartitionId) (h : NodeId) (w : World) : Prop where
  owns : nodeOwnsPartition w.state.partitions p me.id = true
  notOld : me.id ∉ w.state.partitions.olds p
  remembers : Remembered p h w.state

/-- **A step of a settled worker.** -/
theorem Settled.step (hs : Settled me p h w) (hsteady : Steady me h w a) :
    Settled me p h (w.step me a) ∧ batchesTo p h (w.step me a).sent = batchesTo p h w.sent ∧
      (p, h) ∉ completions (w.traceOf me a) := by
  have hsame : (w.receive me a).state.partitions = w.state.partitions := by
    rw [← partitions_of_step]
    exact hsteady.table
  have hr := remembered_receive hs.remembers hsame
  have hsent := sent_of_receive me w a
  have howns : nodeOwnsPartition (w.receive me a).state.partitions p me.id = true := by
    rw [hsame]
    exact hs.owns
  have hnot : h ∉ Ledger.recipientsOf me (w.receive me a).state p := by
    refine not_recipient_of_remembered hr ?_
    rw [hsame]
    exact hs.notOld
  rcases step_eq me w a with ⟨-, heq, htrace⟩ | ⟨env, -, heq, htrace⟩
  · rw [heq, htrace]
    refine ⟨⟨howns, ?_, hr⟩, by rw [hsent], List.not_mem_nil⟩
    rw [hsame]
    exact hs.notOld
  · have hremembered : Remembered p h ((w.receive me a).ticked me env).state :=
      remembered_ticked_iff.mpr (Or.inr hr)
    have hbatches : batchesTo p h ((w.receive me a).ticked me env).sent = batchesTo p h w.sent := by
      rw [batchesTo_ticked hnot, hsent]
    refine ⟨⟨?_, ?_, ?_⟩, ?_, ?_⟩
    · rw [hsteady.table]
      exact hs.owns
    · rw [hsteady.table]
      exact hs.notOld
    · rw [heq]
      exact hremembered
    · rw [heq]
      exact hbatches
    · rw [htrace]
      exact fun hin => hnot (mem_recipientsOf_completed hin)

theorem Settled.rests (hs : Settled me p h w) {later : List Action}
    (hsteady : Along (World.step me) (Steady me h) w later) : Rests me p h w later := by
  induction later generalizing w with
  | nil => exact ⟨rfl, trivial⟩
  | cons a later ih =>
    obtain ⟨hnext, hbatches, huncompleted⟩ := hs.step hsteady.1
    have hrest := ih hnext hsteady.2
    exact ⟨hrest.batches.trans hbatches, huncompleted, hrest.uncompleted⟩

/-- A worker that completes a partition it is no old replica of. -/
theorem settled_of_completed (hin : (p, h) ∈ completions (w.traceOf me a))
    (hold : me.id ∉ (w.step me a).state.partitions.olds p) :
    Settled me p h (w.step me a) ∧ (completions (w.traceOf me a)).count (p, h) = 1 ∧
      batchesTo p h (w.step me a).sent = batchesTo p h w.sent := by
  have htable := partitions_of_step me w a
  have hsent := sent_of_receive me w a
  rcases step_eq me w a with ⟨-, -, htrace⟩ | ⟨env, -, heq, htrace⟩
  · rw [htrace] at hin
    cases hin
  rw [htrace] at hin
  -- the recipient was selected as one the worker has gained, so the worker holds the partition
  obtain ⟨-, hselected⟩ := Manager.mem_recipients.mp (mem_recipientsOf_completed hin)
  rw [← htable] at hselected
  have hholder : me.id ∈ (w.step me a).state.partitions.holders p := by
    rcases hselected with ⟨hmem, -⟩ | ⟨-, hmem, -⟩
    · exact absurd hmem hold
    · exact hmem
  have howns : nodeOwnsPartition (w.step me a).state.partitions p me.id = true := by
    obtain ⟨entry, hentry, hme⟩ := Partitions.mem_holders.mp hholder
    rw [nodeOwnsPartition, hentry, Option.any_some, decide_eq_true_eq]
    exact (Partition.mem_holders.mp hme).imp_left Eq.symm
  have hremembered : Remembered p h ((w.receive me a).ticked me env).state := by
    refine remembered_ticked_iff.mpr (Or.inl ⟨hin, ?_⟩)
    rw [← htable]
    exact howns
  have hstart : Unvisited p h (batchesTo p h w.sent) ((w.receive me a).ticking me env) :=
    ⟨List.not_mem_nil, congrArg (batchesTo p h) hsent⟩
  obtain ⟨hcount, hbatches⟩ : Once p h (batchesTo p h w.sent)
      ((w.receive me a).ticked me env) := hstart.syncPartitions env.order
  refine ⟨⟨howns, hold, ?_⟩, ?_, ?_⟩
  · rw [heq]
    exact hremembered
  · rw [htrace]
    have hpos : 0 < (completions ((w.receive me a).ticked me env).trace).count (p, h) :=
      List.count_pos_iff.mpr hin
    omega
  · rw [heq]
    exact hbatches hin

/-- **A completed synchronisation rests where the worker is no old replica
of the partition.** In every run: the step that completes it does so once
and sends the recipient nothing of the partition; and as long as the table
stays, no step after it does either. -/
theorem completed_sync_rests (me : Me) (now : ℕ) (actions later : List Action) (a : Action)
    (p : PartitionId) (h : NodeId)
    (hcompleted : (p, h) ∈ completions ((run (step me) (start me now) actions).traceOf me a))
    (hold : me.id ∉ ((run (step me) (start me now) actions).step me a).state.partitions.olds p)
    (hsteady : Along (step me) (Steady me h) ((run (step me) (start me now) actions).step me a)
      later) :
    (completions ((run (step me) (start me now) actions).traceOf me a)).count (p, h) = 1 ∧
    batchesTo p h ((run (step me) (start me now) actions).step me a).sent =
      batchesTo p h (run (step me) (start me now) actions).sent ∧
    Rests me p h ((run (step me) (start me now) actions).step me a) later := by
  obtain ⟨hsettled, hcount, hbatches⟩ := settled_of_completed hcompleted hold
  exact ⟨hcount, hbatches, hsettled.rests hsteady⟩

/-- A tick on its own changes neither the table nor the membership. -/
theorem steady_tick (me : Me) (hh : h ∈ w.state.nodes) (env : Env) : Steady me h w (.tick env) :=
  ⟨partitions_of_step me w (.tick env), mem_nodes_tick.mpr hh⟩

theorem steady_tick_tick (me : Me) (hh : h ∈ w.state.nodes) (env env' : Env) :
    Along (step me) (Steady me h) w [.tick env, .tick env'] := by
  have hfirst := steady_tick me hh env
  exact ⟨hfirst, steady_tick me hfirst.connected env', trivial⟩

/-! ## Two handovers -/

/-- A key is stored, worker 2 connects, the table arrives and the first
batch is delivered. -/
def handsOver (table : Partitions) : List Action :=
  [.store (.put ⟨0⟩ ⟨0, 1, [1]⟩),
    .message (.newConnection (some ⟨2⟩) "worker-2" 9002 false) (during []),
    .message (.clusterState ⟨1, ⟨9⟩, [], table⟩) (during []), .deliver 0]

/-- The same two hold it, and worker 1 is an old replica. -/
def swapped : Partitions where
  mapping := (∅ : Map PartitionId Partition).insert ⟨0⟩ ⟨⟨2⟩, {⟨1⟩}⟩
  oldReplicas := (∅ : Map PartitionId (Finset NodeId)).insert ⟨0⟩ {⟨1⟩}
  newReplicas := ∅

theorem run_handsOver_widened :
    run (step sender) (start sender 0) (handsOver widened) =
      run (firstStep sender) (start sender 0) (handsOver widened) :=
  run_of_first (by decide +kernel)

theorem run_handsOver_swapped :
    run (step sender) (start sender 0) (handsOver swapped) =
      run (firstStep sender) (start sender 0) (handsOver swapped) :=
  run_of_first (by decide +kernel)

theorem completed_sync_rests_widened :
    Rests sender ⟨0⟩ ⟨2⟩ ((run (step sender) (start sender 0) (handsOver widened)).step sender
      (.respond 0 (during []))) [.tick (during []), .tick (during [])] := by
  have honly : OnlyFirst sender (run (firstStep sender) (start sender 0) (handsOver widened))
      (.respond 0 (during [])) := by decide +kernel
  have hnodes : (⟨2⟩ : NodeId) ∈ ((run (step sender) (start sender 0) (handsOver widened)).step
      sender (.respond 0 (during []))).state.nodes := by
    rw [run_handsOver_widened, (step_eq_firstStep honly).1]
    decide +kernel
  refine (completed_sync_rests sender 0 (handsOver widened) [.tick (during []), .tick (during [])]
    (.respond 0 (during [])) ⟨0⟩ ⟨2⟩ ?_ ?_ (steady_tick_tick sender hnodes _ _)).2.2
  · rw [run_handsOver_widened, (step_eq_firstStep honly).2]
    decide +kernel
  · rw [run_handsOver_widened, (step_eq_firstStep honly).1]
    decide +kernel

/-- **An old replica starts again.** It has completed worker 2, its table
stays and worker 2 stays connected; the next tick sends it the partition
once more. -/
theorem old_replica_starts_again :
    (⟨0⟩, ⟨2⟩) ∈ completions ((run (step sender) (start sender 0) (handsOver swapped)).traceOf
      sender (.respond 0 (during []))) ∧
    Along (step sender) (Steady sender ⟨2⟩) ((run (step sender) (start sender 0)
      (handsOver swapped)).step sender (.respond 0 (during []))) [.tick (during [])] ∧
    ¬ Rests sender ⟨0⟩ ⟨2⟩ ((run (step sender) (start sender 0) (handsOver swapped)).step sender
      (.respond 0 (during []))) [.tick (during [])] := by
  have honly : OnlyFirst sender (run (firstStep sender) (start sender 0) (handsOver swapped))
      (.respond 0 (during [])) := by decide +kernel
  have hagain : OnlyFirst sender (firstStep sender (run (firstStep sender) (start sender 0)
      (handsOver swapped)) (.respond 0 (during []))) (.tick (during [])) := by decide +kernel
  rw [run_handsOver_swapped, (step_eq_firstStep honly).1, (step_eq_firstStep honly).2]
  refine ⟨by decide +kernel, ⟨steady_tick sender (by decide +kernel) _, trivial⟩, fun hrests => ?_⟩
  have hbatches := hrests.batches
  rw [run_cons, run_nil, (step_eq_firstStep hagain).1] at hbatches
  have hlengths := congrArg List.length hbatches
  revert hlengths
  decide +kernel

end World

end Worker

end NoSqlStore
