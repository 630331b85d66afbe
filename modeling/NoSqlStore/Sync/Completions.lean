import NoSqlStore.Sync.Announcements
/-!
# The record of the completed synchronisations

A holder that keeps its partition records a completion with the time of
its table, and honours it while the table's time is the same. A tick
records what it completes and moves no time (`completionTime_ticked`). An
accepted table that differs from the present one gets a later time, so
that what was recorded is of an older one; one that does not differ gets
none. So a completion is honoured if and only if it was recorded since the
table last changed (`completions_honoured`), up to the one time that has no
later one: `saturating_add` stops at `u64::MAX`, and a table that comes
then inherits the completions of the one before
(`saturated_time_keeps_a_completion`).
-/

namespace NoSqlStore

namespace Worker

open Runs

variable {me : Me} {p q : PartitionId} {h g : NodeId} {t t' : Tick} {state : State}

/-- The time of the table under which a completion was recorded. -/
def State.completionTime (state : State) (p : PartitionId) (h : NodeId) : Option ℕ :=
  state.actualNodesSyncCompletion[p]?.bind fun times => times[h]?

/-- **The completion is recorded under the present table.** -/
def Remembered (p : PartitionId) (h : NodeId) (state : State) : Prop :=
  (state.actualNodesSyncCompletion[p]?.bind fun times => times[h]?) =
    some state.partitionsLastUpdateTime

theorem remembered_iff :
    Remembered p h state ↔ state.completionTime p h = some state.partitionsLastUpdateTime := Iff.rfl

/-- **What is honoured is what is recorded** under the present table. -/
theorem mem_synced :
    h ∈ state.getCurrentlySyncedActualNodes[p]?.getD ∅ ↔ Remembered p h state := by
  have hlisted : ∀ times : Map NodeId ℕ,
      h ∈ (times.toList.filter (·.2 = state.partitionsLastUpdateTime)).map Prod.fst ↔
        times[h]? = some state.partitionsLastUpdateTime := by
    intro times
    constructor
    · intro hin
      obtain ⟨⟨n, time⟩, hmem, rfl⟩ := List.mem_map.mp hin
      obtain ⟨hstored, htime⟩ := List.mem_filter.mp hmem
      rw [← of_decide_eq_true htime]
      exact Map.mem_toList.mp hstored
    · intro hstored
      refine List.mem_map.mpr ⟨(h, state.partitionsLastUpdateTime), ?_, rfl⟩
      exact List.mem_filter.mpr ⟨Map.mem_toList.mpr hstored, by simp⟩
  rw [remembered_iff, State.completionTime, State.getCurrentlySyncedActualNodes,
    Std.ExtTreeMap.getElem?_filterMap']
  cases state.actualNodesSyncCompletion[p]? with
  | none => simp
  | some times =>
    rw [Option.bind_some, Option.bind_some, ← hlisted]
    dsimp only
    split
    · rename_i hnil
      rw [hnil]
      simp
    · rw [Option.getD_some, List.mem_toFinset]

/-! ## The record of a completion -/

theorem getElem?_record (q : PartitionId) (g : NodeId) (time : ℕ)
    (completion : Map PartitionId (Map NodeId ℕ)) :
    ((completion.alter q fun times => some ((times.getD ∅).insert g time))[p]?.bind
        fun times => times[h]?) =
      if q = p ∧ g = h then some time else completion[p]?.bind fun times => times[h]? := by
  rw [Std.ExtTreeMap.getElem?_alter]
  by_cases hq : q = p
  · subst hq
    rw [if_pos (by simp)]
    by_cases hg : g = h
    · subst hg
      simp
    · have hne : ¬ compare g h = .eq := by rwa [compare_eq_iff_eq]
      rw [if_neg (by simp [hg]), Option.bind_some, Std.ExtTreeMap.getElem?_insert, if_neg hne]
      cases completion[q]? with
      | none => rfl
      | some times => rfl
  · rw [if_neg (by simpa using hq), if_neg fun hh => hq hh.1]

/-- **A holder records what it completes**, and nothing else. -/
theorem completionTime_recordCompletedSync :
    (recordCompletedSync me q g t).state.completionTime p h =
      if nodeOwnsPartition t.state.partitions q me.id = true ∧ q = p ∧ g = h then
        some t.state.partitionsLastUpdateTime
      else t.state.completionTime p h := by
  unfold recordCompletedSync
  dsimp only
  by_cases howns : nodeOwnsPartition t.state.partitions q me.id = true
  · rw [if_pos howns, State.completionTime, getElem?_record]
    simp only [howns, true_and]
    rfl
  · rw [if_neg howns, if_neg fun hh => howns hh.1]

/-! ## The tick -/

/-- **In the course of a tick** that starts from `state`: the completion is
recorded if this node holds the partition and has completed the recipient,
and else as it was. -/
structure Records (me : Me) (p : PartitionId) (h : NodeId) (state : State) (t : Tick) : Prop where
  table : t.state.partitions = state.partitions
  time : t.state.partitionsLastUpdateTime = state.partitionsLastUpdateTime
  recorded : t.state.completionTime p h =
    if nodeOwnsPartition state.partitions p me.id = true ∧ (p, h) ∈ completions t.trace then
      some state.partitionsLastUpdateTime
    else state.completionTime p h

theorem Records.of_eq (hr : Records me p h state t)
    (hstate : ∃ sync, t'.state = { t.state with sync })
    (htrace : completions t'.trace = completions t.trace) : Records me p h state t' := by
  obtain ⟨sync, hstate⟩ := hstate
  refine ⟨?_, ?_, ?_⟩
  · rw [hstate]
    exact hr.table
  · rw [hstate]
    exact hr.time
  · rw [htrace, hstate]
    exact hr.recorded

/-- The record of a completion, which the tick logs first. -/
theorem Records.record (hr : Records me p h state t) (q : PartitionId) (g : NodeId)
    (records : Map Key Mutation) :
    Records me p h state (recordCompletedSync me q g (t.log (.completed q g records))) := by
  have hkept : ∀ t : Tick, (recordCompletedSync me q g t).state.partitions = t.state.partitions ∧
      (recordCompletedSync me q g t).state.partitionsLastUpdateTime =
        t.state.partitionsLastUpdateTime := by
    intro t
    unfold recordCompletedSync
    dsimp only
    split <;> exact ⟨rfl, rfl⟩
  obtain ⟨htable, htime⟩ := hkept (t.log (.completed q g records))
  refine ⟨htable.trans hr.table, htime.trans hr.time, ?_⟩
  rw [completionTime_recordCompletedSync]
  change (if nodeOwnsPartition t.state.partitions q me.id = true ∧ q = p ∧ g = h then
    some t.state.partitionsLastUpdateTime else t.state.completionTime p h) = _
  rw [hr.table, hr.time, hr.recorded]
  by_cases heq : q = p ∧ g = h
  · obtain ⟨rfl, rfl⟩ := heq
    -- the pair itself: recorded now, whatever the tick has logged of it before
    have hin : (q, g) ∈ completions (recordCompletedSync me q g
        (t.log (.completed q g records))).trace := by
      rw [completions_record]
      exact List.mem_append_right _ (List.mem_singleton_self _)
    simp only [hin, and_true]
    split
    · rfl
    · rename_i hnot
      rw [if_neg fun hh => hnot hh.1]
  · simp only [mem_completions_record heq, heq, and_false, if_false]

theorem Records.syncRecipient (hr : Records me p h state t) (q : PartitionId) (g : NodeId) :
    Records me p h state (syncRecipient me q g t) := by
  obtain ⟨n, hpassed⟩ := (frame_syncPartitionToRecipient me q g (t.touch q)).passed
  have hround : Records me p h state (syncPartitionToRecipient me q g (t.touch q)).2 :=
    (hr.of_eq ⟨_, rfl⟩ rfl : Records me p h state (t.touch q)).of_eq
      (inner_syncPartitionToRecipient me q g (t.touch q)).state (completions_of_grows hpassed.trace)
  unfold Worker.syncRecipient
  generalize syncPartitionToRecipient me q g (t.touch q) = result at hround
  obtain ⟨_ | _, t₁⟩ := result
  · exact hround
  · exact hround.record q g _

theorem state_pruneChanges (q : PartitionId) (t : Tick) : (pruneChanges q t).state = t.state := by
  unfold pruneChanges
  dsimp only
  split
  · rfl
  · split <;> rfl

theorem Records.syncPartition (hr : Records me p h state t) (q : PartitionId)
    (ids : List NodeId) : Records me p h state (syncPartition me q t ids) := by
  have hleave : Records me p h state (retainRecipients q t fun id _ => id ∈ t.state.nodes) :=
    hr.of_eq ⟨_, rfl⟩ rfl
  have hrounds : Records me p h state
      (rounds me q (retainRecipients q t fun id _ => id ∈ t.state.nodes) ids) :=
    run_keeps (I := Records me p h state) (fun t g hr => Records.syncRecipient hr q g) hleave ids
  rw [syncPartition_eq]
  refine hrounds.of_eq ?_ (by rw [trace_pruneChanges]; rfl)
  rw [state_pruneChanges]
  exact ⟨_, rfl⟩

theorem Records.remove (hr : Records me p h state t) (e : PartitionId × Map NodeId SyncState) :
    Records me p h state (removeCompletedSync me t e) := by
  unfold removeCompletedSync
  split
  · dsimp only
    split
    · exact hr.of_eq ⟨_, rfl⟩ rfl
    · exact hr.of_eq ⟨_, rfl⟩ ((completions_append t.trace _).trans (List.append_nil _))
  · exact hr

theorem Records.syncPartitions (hr : Records me p h state t) (order : Enumeration) :
    Records me p h state (syncPartitions me order t) := by
  have hsynced : Records me p h state (t.synced me order) :=
    run_keeps (I := Records me p h state)
      (fun t' partition hr => Records.syncPartition hr ⟨partition⟩ (order.toList
        (recipients me ⟨partition⟩ t'.state t.state.getCurrentlySyncedActualNodes))) hr _
  rw [syncPartitions_eq]
  exact run_keeps (I := Records me p h state) (fun t' e hr => Records.remove hr e) hsynced _

namespace World

variable {w : World} {env : Env} {a : Action}

/-- **What a tick records.** -/
theorem records_ticked (me : Me) (p : PartitionId) (h : NodeId) (w : World) (env : Env) :
    Records me p h w.state (w.ticked me env) := by
  have hbeat : ∃ nodes, (heartbeats w.state me env.heartbeatNow).1 = { w.state with nodes } := by
    unfold heartbeats
    split
    · split
      · exact ⟨_, rfl⟩
      · exact ⟨w.state.nodes, rfl⟩
    · exact ⟨w.state.nodes, rfl⟩
  obtain ⟨nodes, hbeat⟩ := hbeat
  have hstart : Records me p h w.state (w.ticking me env) := by
    unfold ticking
    rw [hbeat]
    exact ⟨rfl, rfl, (if_neg fun hh => List.not_mem_nil hh.2).symm⟩
  exact hstart.syncPartitions env.order

/-! ## The table and its time -/

/-- The action is an accepted cluster state that brings another table. -/
def ChangesTable (w : World) : Action → Prop
  | .message (.clusterState st) _ =>
    accepts w.state st.epoch st.leaderId = true ∧ w.state.partitions ≠ st.partitions
  | _ => False

instance (w : World) : ∀ a, Decidable (ChangesTable w a)
  | .message (.clusterState st) _ => inferInstanceAs (Decidable
      (accepts w.state st.epoch st.leaderId = true ∧ w.state.partitions ≠ st.partitions))
  | .message (.newConnection _ _ _ _) _ | .message (.heartbeat _ _ _) _
  | .message (.getClusterState _) _ | .message (.nodeDisconnected _) _
  | .message (.leader _ _ _) _ | .message (.removePartitionFromReplica _ _ _) _
  | .message (.syncBatch _ _) _ | .message (.syncBatchResponse _ _) _
  | .store _ | .tick _ | .deliver _ | .respond _ _ | .peer _ _ => inferInstanceAs (Decidable False)

/-- The table changes, and its time is not the last one there is. -/
def Restamps (w : World) (a : Action) : Prop :=
  ChangesTable w a ∧ w.state.partitionsLastUpdateTime < 2 ^ 64 - 1

instance (w : World) (a : Action) : Decidable (Restamps w a) :=
  inferInstanceAs (Decidable (ChangesTable w a ∧ w.state.partitionsLastUpdateTime < 2 ^ 64 - 1))

/-- The clock reads less than `u64::MAX` when the message is handled. -/
def ClockBelowMax : Action → Prop
  | .message _ env => env.handleNow < 2 ^ 64 - 1
  | _ => True

instance : ∀ a, Decidable (ClockBelowMax a)
  | .message _ env => inferInstanceAs (Decidable (env.handleNow < 2 ^ 64 - 1))
  | .store _ | .tick _ | .deliver _ | .respond _ _ | .peer _ _ => inferInstanceAs (Decidable True)

/-- **What receiving an action does to the table and to what is
recorded.** The record stays as it is; the table and its time change
together or not at all. -/
theorem receive_cases (me : Me) (w : World) (a : Action) :
    (w.receive me a).state.actualNodesSyncCompletion = w.state.actualNodesSyncCompletion ∧
    ((¬ ChangesTable w a ∧ (w.receive me a).state.partitions = w.state.partitions ∧
        (w.receive me a).state.partitionsLastUpdateTime = w.state.partitionsLastUpdateTime) ∨
      ∃ now, (ClockBelowMax a → now < 2 ^ 64 - 1) ∧ ChangesTable w a ∧
        (w.receive me a).state.partitions ≠ w.state.partitions ∧
        (w.receive me a).state.partitionsLastUpdateTime =
          max now (saturatingSucc w.state.partitionsLastUpdateTime)) := by
  cases a with
  | message msg env =>
    cases msg with
    | clusterState st =>
      have hadopted : (if epochBelow w.state.epoch st.epoch then
          { w.state with epoch := some st.epoch, electedLeaderId := some st.leaderId }
          else w.state).partitions = w.state.partitions ∧
          (if epochBelow w.state.epoch st.epoch then
          { w.state with epoch := some st.epoch, electedLeaderId := some st.leaderId }
          else w.state).partitionsLastUpdateTime = w.state.partitionsLastUpdateTime ∧
          (if epochBelow w.state.epoch st.epoch then
          { w.state with epoch := some st.epoch, electedLeaderId := some st.leaderId }
          else w.state).actualNodesSyncCompletion = w.state.actualNodesSyncCompletion := by
        split <;> exact ⟨rfl, rfl, rfl⟩
      obtain ⟨htable, htime, hrecord⟩ := hadopted
      simp only [receive, handle, handleClusterState]
      by_cases haccepts : accepts w.state st.epoch st.leaderId = true
      · simp only [if_pos haccepts, htable, htime, hrecord, true_and]
        by_cases hsame : w.state.partitions = st.partitions
        · refine Or.inl ⟨fun hh => hh.2 hsame, hsame.symm, ?_⟩
          rw [if_neg fun hh => hh hsame]
        · -- the time is read once, and put above the one before
          refine Or.inr ⟨env.handleNow, fun hclock => hclock, ⟨haccepts, hsame⟩, Ne.symm hsame, ?_⟩
          rw [if_pos hsame]
      · simp only [if_neg haccepts, true_and]
        exact Or.inl ⟨fun hh => haccepts hh.1, trivial⟩
    | newConnection id host port manager => cases id <;> exact ⟨rfl, Or.inl ⟨False.elim, rfl, rfl⟩⟩
    | heartbeat id heartbeatId ts =>
      simp only [receive, handle, handleHeartbeat]
      split <;> exact ⟨rfl, Or.inl ⟨False.elim, rfl, rfl⟩⟩
    | leader id epoch ts =>
      simp only [receive, handle, handleLeader]
      split
      · split
        · split <;> exact ⟨rfl, Or.inl ⟨False.elim, rfl, rfl⟩⟩
        · exact ⟨rfl, Or.inl ⟨False.elim, rfl, rfl⟩⟩
      · exact ⟨rfl, Or.inl ⟨False.elim, rfl, rfl⟩⟩
    | getClusterState id => exact ⟨rfl, Or.inl ⟨False.elim, rfl, rfl⟩⟩
    | nodeDisconnected id => exact ⟨rfl, Or.inl ⟨False.elim, rfl, rfl⟩⟩
    | removePartitionFromReplica id replicaId partitionId =>
      exact ⟨rfl, Or.inl ⟨False.elim, rfl, rfl⟩⟩
    | syncBatch recipientId request => exact ⟨rfl, Or.inl ⟨False.elim, rfl, rfl⟩⟩
    | syncBatchResponse recipientId keys => exact ⟨rfl, Or.inl ⟨False.elim, rfl, rfl⟩⟩
  | deliver i =>
    simp only [receive]
    split <;> exact ⟨rfl, Or.inl ⟨False.elim, rfl, rfl⟩⟩
  | respond i env =>
    simp only [receive]
    split
    · exact ⟨rfl, Or.inl ⟨False.elim, rfl, rfl⟩⟩
    · split <;> exact ⟨rfl, Or.inl ⟨False.elim, rfl, rfl⟩⟩
  | store event => exact ⟨rfl, Or.inl ⟨False.elim, rfl, rfl⟩⟩
  | tick env => exact ⟨rfl, Or.inl ⟨False.elim, rfl, rfl⟩⟩
  | peer g event => exact ⟨rfl, Or.inl ⟨False.elim, rfl, rfl⟩⟩

/-- **Nothing that is received forgets a completion** while the table
stays. -/
theorem remembered_receive (hr : Remembered p h w.state)
    (hsame : (w.receive me a).state.partitions = w.state.partitions) :
    Remembered p h (w.receive me a).state := by
  obtain ⟨hrecord, ⟨-, -, htime⟩ | ⟨-, -, -, hdiffers, -⟩⟩ := receive_cases me w a
  · rw [Remembered, hrecord, htime]
    exact hr
  · exact absurd hsame hdiffers

/-- The tick of a step leaves the table. -/
theorem partitions_of_step (me : Me) (w : World) (a : Action) :
    (w.step me a).state.partitions = (w.receive me a).state.partitions := by
  rcases step_eq me w a with ⟨-, heq, -⟩ | ⟨env, -, heq, -⟩
  · rw [heq]
  · rw [heq]
    have hfixed := (announced_tick me env (w.receive me a).state (w.receive me a).store
      (w.receive me a).sent).fixed.partitions
    exact hfixed.trans (partitions_heartbeats _ _)

/-- **A tick of a holder remembers what it completes**, and forgets
nothing. -/
theorem remembered_ticked_iff :
    Remembered p h (w.ticked me env).state ↔
      ((p, h) ∈ completions (w.ticked me env).trace ∧
        nodeOwnsPartition w.state.partitions p me.id = true) ∨ Remembered p h w.state := by
  obtain ⟨-, htime, hrecorded⟩ := records_ticked me p h w env
  rw [remembered_iff, remembered_iff, htime, hrecorded]
  split
  · rename_i hcompletes
    exact iff_of_true rfl (Or.inl hcompletes.symm)
  · rename_i hnot
    exact (or_iff_right fun hcompletes => hnot hcompletes.symm).symm

/-! ## Whole runs -/

/-- **The step completes the recipient as a holder**: the completion is
recorded, under the table it leaves. -/
def Completes (me : Me) (p : PartitionId) (h : NodeId) (w : World) (a : Action) : Prop :=
  (p, h) ∈ completions (w.traceOf me a) ∧
    nodeOwnsPartition (w.step me a).state.partitions p me.id = true

/-- What is recorded is of the present table or of an older one, and no
time exceeds `u64::MAX`. -/
structure Stamped (p : PartitionId) (h : NodeId) (w : World) : Prop where
  recorded : ∀ time ∈ w.state.completionTime p h, time ≤ w.state.partitionsLastUpdateTime
  last : w.state.partitionsLastUpdateTime ≤ 2 ^ 64 - 1

/-- **A new table is honoured for nothing.** Its time exceeds whatever is
recorded, unless it is `u64::MAX` and was before. -/
theorem Stamped.receive (hs : Stamped p h w) (me : Me) (hclock : ClockBelowMax a) :
    Stamped p h (w.receive me a) ∧
      (Remembered p h (w.receive me a).state ↔ Remembered p h w.state ∧ ¬ Restamps w a) := by
  obtain ⟨hrecorded, hlast⟩ := hs
  obtain ⟨hrecord, ⟨hkeeps, -, htime⟩ | ⟨now, hnow, hchanges, -, htime⟩⟩ := receive_cases me w a
  · refine ⟨⟨?_, ?_⟩, ?_⟩
    · rw [State.completionTime, hrecord, htime]
      exact hrecorded
    · rw [htime]
      exact hlast
    · rw [Remembered, Remembered, hrecord, htime]
      exact (and_iff_left fun hrestamps => hkeeps hrestamps.1).symm
  · have hbelow := hnow hclock
    unfold saturatingSucc at htime
    refine ⟨⟨fun time hin => ?_, by omega⟩, ?_⟩
    · rw [State.completionTime, hrecord] at hin
      have hle := hrecorded time hin
      omega
    · rw [remembered_iff, remembered_iff, State.completionTime, hrecord]
      rcases Nat.lt_or_ge w.state.partitionsLastUpdateTime (2 ^ 64 - 1) with hlater | hend
      · -- the time has a successor, so the new one exceeds all that is recorded
        refine iff_of_false (fun hhonoured => ?_) fun hh => hh.2 ⟨hchanges, hlater⟩
        have hle := hrecorded _ hhonoured
        omega
      · -- `u64::MAX` has none: the time stays, and what is honoured with it
        have hstays : (w.receive me a).state.partitionsLastUpdateTime =
            w.state.partitionsLastUpdateTime := by omega
        rw [hstays]
        exact (and_iff_left fun hrestamps => absurd hrestamps.2 (by omega)).symm

theorem Stamped.ticked (hs : Stamped p h w) : Stamped p h (w.finish me env) := by
  obtain ⟨-, htime, hrecorded⟩ := records_ticked me p h w env
  refine ⟨fun time hin => ?_, ?_⟩
  · change time ∈ (w.ticked me env).state.completionTime p h at hin
    change time ≤ (w.ticked me env).state.partitionsLastUpdateTime
    rw [hrecorded] at hin
    rw [htime]
    split at hin
    · exact (Option.some_inj.mp hin).ge
    · exact hs.recorded time hin
  · change (w.ticked me env).state.partitionsLastUpdateTime ≤ 2 ^ 64 - 1
    rw [htime]
    exact hs.last

/-- **A step**: what it completes is honoured after it, and what was
honoured before, unless the table has got a new time. -/
theorem Stamped.step (hs : Stamped p h w) (hclock : ClockBelowMax a) :
    Stamped p h (w.step me a) ∧ (Remembered p h (w.step me a).state ↔
      Completes me p h w a ∨ (Remembered p h w.state ∧ ¬ Restamps w a)) := by
  obtain ⟨hstamped, hreceived⟩ := hs.receive me hclock
  have htable := partitions_of_step me w a
  unfold Completes
  rcases step_eq me w a with ⟨-, heq, htrace⟩ | ⟨env, -, heq, htrace⟩
  · rw [htrace, heq, hreceived]
    exact ⟨hstamped, (or_iff_right fun hcompletes => List.not_mem_nil hcompletes.1).symm⟩
  · rw [htable, htrace, heq, ← hreceived]
    exact ⟨hstamped.ticked, remembered_ticked_iff⟩

theorem stamped_start (me : Me) (now : ℕ) : Stamped p h (start me now) :=
  ⟨fun time hin => by simp [State.completionTime, start, State.new] at hin, Nat.zero_le _⟩

/-- **Completions are honoured exactly for the current table.** -/
theorem completions_honoured (me : Me) (now : ℕ) (actions : List Action)
    (hclock : ∀ a ∈ actions, ClockBelowMax a) (p : PartitionId) (h : NodeId) :
    (h ∈ (run (step me) (start me now) actions).state.getCurrentlySyncedActualNodes[p]?.getD ∅ ↔
      Since (step me) (Completes me p h) Restamps (start me now) actions) ∧
    ∀ (st : ClusterState) (env : Env),
      st.partitions = (run (step me) (start me now) actions).state.partitions →
        ((run (step me) (start me now) actions).receive me
          (.message (.clusterState st) env)).state.getCurrentlySyncedActualNodes =
        (run (step me) (start me now) actions).state.getCurrentlySyncedActualNodes := by
  have hok : Along (step me) (fun _ a => ClockBelowMax a) (start me now) actions :=
    along_of_forall hclock
  have hnew : ¬ Remembered p h (start me now).state := by
    simp [Remembered, start, State.new]
  -- a new worker has recorded nothing
  refine ⟨?_, fun st env hsame => ?_⟩
  · rw [mem_synced]
    exact run_iff_since (I := Stamped p h) (P := fun w => Remembered p h w.state)
      (fun _ _ hs hclock => (Stamped.step hs hclock).1)
      (fun _ _ hs hclock => (Stamped.step hs hclock).2) (stamped_start me now) hnew hok
  · generalize run (step me) (start me now) actions = w at hsame
    obtain ⟨hrecord, ⟨-, -, htime⟩ | ⟨-, -, ⟨-, hdiffers⟩, -⟩⟩ :=
      receive_cases me w (.message (.clusterState st) env)
    · unfold State.getCurrentlySyncedActualNodes
      rw [hrecord, htime]
    · exact absurd hsame.symm hdiffers

/-! ## Tables that change -/

/-- The first partition and its holders, all of them settled. -/
def settledOn (replicas : Finset NodeId) : Partitions where
  mapping := (∅ : Map PartitionId Partition).insert ⟨0⟩ ⟨⟨1⟩, replicas⟩
  oldReplicas := ∅
  newReplicas := ∅

/-- A table arrives when the clock reads `now`. -/
def arrives (table : Partitions) (now : ℕ) : Action :=
  .message (.clusterState ⟨1, ⟨9⟩, [], table⟩) { during [] with handleNow := now }

/-- Worker 2 connects; worker 1 has the partition alone and then gains
worker 2, which it completes at once, having nothing to send. -/
def gains (first second : ℕ) : List Action :=
  [.message (.newConnection (some ⟨2⟩) "worker-2" 9002 false) (during []),
    arrives (settledOn ∅) first, arrives widened second]

/-- The two are settled. -/
def settles (third : ℕ) : Action := arrives (settledOn {⟨2⟩}) third

/-- Completions of a world whose first partition alone is busy. -/
theorem completes_of_first (ho : OnlyFirst me w a) :
    Completes me p h w a ↔ (p, h) ∈ completions (firstTrace me w a) ∧
      nodeOwnsPartition (firstStep me w a).state.partitions p me.id = true := by
  obtain ⟨hstep, htrace⟩ := step_eq_firstStep ho
  rw [Completes, hstep, htrace]

/-- The step of the third table completes nothing. -/
theorem not_since_settled {resets : World → Action → Prop} {first second third : ℕ}
    (hbusy : Along (firstStep sender) (OnlyFirst sender) (start sender 0)
      (gains first second ++ [settles third]))
    (hnone : (⟨0⟩, ⟨2⟩) ∉ completions (firstTrace sender
      (run (firstStep sender) (start sender 0) (gains first second)) (settles third)))
    (hresets : resets (run (firstStep sender) (start sender 0) (gains first second))
      (settles third)) :
    ¬ Since (step sender) (Completes sender ⟨0⟩ ⟨2⟩) resets (start sender 0)
      (gains first second ++ [settles third]) := by
  obtain ⟨hbefore, hlast, -⟩ := along_append.mp hbusy
  rw [since_concat, run_of_first hbefore]
  rintro (hcompletes | ⟨-, hkept⟩)
  · exact hnone ((completes_of_first hlast).mp hcompletes).1
  · exact hkept hresets

theorem busy_backwards : Along (firstStep sender) (OnlyFirst sender) (start sender 0)
    (gains 5 4 ++ [settles 3]) := by decide +kernel

theorem completions_honoured_backwards :
    (⟨2⟩ : NodeId) ∈ (run (step sender) (start sender 0)
      (gains 5 4)).state.getCurrentlySyncedActualNodes[(⟨0⟩ : PartitionId)]?.getD ∅ ∧
    (⟨2⟩ : NodeId) ∉ ((run (step sender) (start sender 0)
      (gains 5 4 ++ [settles 3])).state.getCurrentlySyncedActualNodes[
        (⟨0⟩ : PartitionId)]?).getD ∅ := by
  obtain ⟨hgains, -⟩ := along_append.mp busy_backwards
  obtain ⟨hbefore, hlast, -⟩ := along_append.mp
    (show Along (firstStep sender) (OnlyFirst sender) (start sender 0)
      ((gains 5 4).take 2 ++ [arrives widened 4]) from hgains)
  constructor
  · refine (completions_honoured sender 0 (gains 5 4) (by decide) ⟨0⟩ ⟨2⟩).1.mpr
      ⟨(gains 5 4).take 2, arrives widened 4, [], rfl, ?_, trivial⟩
    rw [run_of_first hbefore, completes_of_first hlast]
    decide +kernel
  · rw [(completions_honoured sender 0 (gains 5 4 ++ [settles 3]) (by decide) ⟨0⟩ ⟨2⟩).1]
    exact not_since_settled busy_backwards (by decide +kernel) (by decide +kernel)

theorem busy_saturated : Along (firstStep sender) (OnlyFirst sender) (start sender 0)
    (gains (2 ^ 64 - 2) (2 ^ 64 - 2) ++ [settles (2 ^ 64 - 2)]) := by decide +kernel

/-- **At the last time the completions of a table outlive it.** The clock
reads `u64::MAX - 1` at three changes of the table: the second gets the
time `u64::MAX`, and the third can get no other. -/
theorem saturated_time_keeps_a_completion :
    (∀ a ∈ gains (2 ^ 64 - 2) (2 ^ 64 - 2) ++ [settles (2 ^ 64 - 2)], ClockBelowMax a) ∧
    ¬ ((⟨2⟩ : NodeId) ∈ (run (step sender) (start sender 0) (gains (2 ^ 64 - 2) (2 ^ 64 - 2) ++
        [settles (2 ^ 64 - 2)])).state.getCurrentlySyncedActualNodes[(⟨0⟩ : PartitionId)]?.getD ∅ ↔
      Since (step sender) (Completes sender ⟨0⟩ ⟨2⟩) ChangesTable (start sender 0)
        (gains (2 ^ 64 - 2) (2 ^ 64 - 2) ++ [settles (2 ^ 64 - 2)])) := by
  refine ⟨by decide, fun hiff => ?_⟩
  refine not_since_settled busy_saturated (by decide +kernel) (by decide +kernel) (hiff.mp ?_)
  rw [mem_synced, run_of_first busy_saturated]
  unfold Remembered
  decide +kernel

end World

end Worker

end NoSqlStore
