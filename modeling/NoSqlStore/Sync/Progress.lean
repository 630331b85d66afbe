import NoSqlStore.Common.Pages
import NoSqlStore.Sync.Turns
/-!
# A migration comes to its end

How long can the synchronisation of a partition to one recipient go on?
While clients write the partition there is always more to send, and a
writer at work when the journal is found exhausted sends the whole of it
back to its start. In a partition that nobody writes, `roundsLeft` counts
the rounds that are left: the pages of the records after the cursor, the
pages of the journal after the revision that is reached, and the round
that finds nothing more. Every answer to the batch sent last takes one
away and nothing adds one, whatever else the worker does meanwhile, so
that many answers complete it (`answered_sync_completes`).
-/

namespace NoSqlStore

open Runs

namespace RuntimeStore

variable {store store' store'' : RuntimeStore} {p q : PartitionId}

/-- The journal of the partition only loses entries. -/
def Sheds (p : PartitionId) (store store' : RuntimeStore) : Prop :=
  ∀ (r : ℕ) (k : Key), (store'.partition p).changes[r]? = some k →
    (store.partition p).changes[r]? = some k

theorem Sheds.refl (store : RuntimeStore) : Sheds p store store := fun _ _ hk => hk

theorem Sheds.trans (h₁ : Sheds p store store') (h₂ : Sheds p store' store'') :
    Sheds p store store'' := fun r k hk => h₁ r k (h₂ r k hk)

theorem Sheds.of_changes_eq (h : (store'.partition p).changes = (store.partition p).changes) :
    Sheds p store store' := fun r k hk => by rwa [h] at hk

theorem Sheds.foldl {ι : Type} (step : RuntimeStore → ι → RuntimeStore)
    (hstep : ∀ store i, Sheds p store (step store i)) (l : List ι) (store : RuntimeStore) :
    Sheds p store (l.foldl step store) := by
  induction l generalizing store with
  | nil => exact .refl store
  | cons i l ih => exact (hstep store i).trans (ih _)

theorem sheds_enterWriter (q : PartitionId) : Sheds p store (store.enterWriter q) := by
  refine .of_changes_eq ?_
  rw [enterWriter, partition_modify, partition]
  split
  · cases store.cache[p]? <;> rfl
  · rfl

theorem sheds_removeEntry (key : Key) (nowMs : ℕ) :
    Sheds p store (store.removeEntry key nowMs) := by
  refine .of_changes_eq ?_
  rw [partition_removeEntry]
  split <;> rfl

theorem sheds_expire (key : Key) (nowMs : ℕ) : Sheds p store (store.expire key nowMs) :=
  ((sheds_enterWriter _).trans (sheds_removeEntry key nowMs)).trans
    (.of_changes_eq (partition_dropWriter _ _ p).2.1)

theorem sheds_removePartitionIfEmpty (q : PartitionId) :
    Sheds p store (store.removePartitionIfEmpty q) := by
  unfold removePartitionIfEmpty
  split
  · intro r k hk
    rw [partition_removePartition] at hk
    split at hk
    · cases hk
    · exact hk
  · exact .refl store

theorem sheds_removeExpiredOf (q : PartitionId) (nowMs : ℕ) :
    Sheds p store (store.removeExpiredOf q nowMs) := by
  have hfold := Sheds.foldl (p := p) (fun store (e : Key × Mutation) => store.expire e.1 nowMs)
    (fun store e => sheds_expire e.1 nowMs)
    ((store.partition q).records.toList.filter fun e => e.2.expired nowMs) store
  exact hfold.trans (sheds_removePartitionIfEmpty q)

/-- **An event that does not write the partition journals nothing.** -/
theorem sheds_apply {event : StoreEvent} (h : event.writes p = false) :
    Sheds p store (store.apply event) := by
  cases event with
  | put key record =>
    have hne : key.partition ≠ p := by simpa [StoreEvent.writes] using h
    exact .of_changes_eq (by rw [apply, put, partition_applyMutation, if_neg hne])
  | deleteAt key deletionTimeMs =>
    have hne : key.partition ≠ p := by simpa [StoreEvent.writes] using h
    exact .of_changes_eq (by rw [apply, deleteAt, partition_applyMutation, if_neg hne])
  | getVersioned key nowMs =>
    simp only [apply, getVersioned]
    split
    · split
      · exact (sheds_expire key nowMs).trans (sheds_removePartitionIfEmpty _)
      · exact .refl store
    · exact .refl store
  | removeExpired nowMs =>
    exact Sheds.foldl (fun store q => store.removeExpiredOf q nowMs)
      (fun store q => sheds_removeExpiredOf q nowMs) store.cache.keys store
  | enterWriter q => exact sheds_enterWriter q
  | removeEntry key nowMs => exact sheds_removeEntry key nowMs
  | dropWriter q => exact .of_changes_eq (partition_dropWriter store q p).2.1
  | removePartitionIfEmpty q => exact sheds_removePartitionIfEmpty q

/-- **The partition only loses** records and entries of its journal. -/
structure Fades (p : PartitionId) (store store' : RuntimeStore) : Prop where
  records : ∀ (k : Key) (m : Mutation), (store'.partition p).records[k]? = some m →
    (store.partition p).records[k]? = some m
  changes : Sheds p store store'

theorem Fades.refl (store : RuntimeStore) : Fades p store store := ⟨fun _ _ hk => hk, .refl store⟩

theorem Fades.trans (h₁ : Fades p store store') (h₂ : Fades p store' store'') :
    Fades p store store'' :=
  ⟨fun k m hk => h₁.records k m (h₂.records k m hk), h₁.changes.trans h₂.changes⟩

theorem Fades.of_partition_eq (h : store'.partition p = store.partition p) :
    Fades p store store' := ⟨fun k m hk => by rwa [h] at hk, .of_changes_eq (by rw [h])⟩

/-- A partition without a writer that nothing disturbs. -/
theorem fades_apply (hw : WellFormed store) {event : StoreEvent} (h : event.disturbs p = false) :
    Fades p store (store.apply event) :=
  have hwrites := StoreEvent.writes_of_not_disturbs h
  ⟨(loses_apply hw hwrites).1, sheds_apply hwrites⟩

theorem fades_prune (through : ℕ) : Fades p store (store.prunePartitionChanges q through) := by
  refine ⟨fun k m hk => ?_, fun r k hk => ?_⟩
  · rw [partition_prune] at hk
    split at hk <;> exact hk
  · rw [partition_prune] at hk
    split at hk
    · rw [Std.ExtTreeMap.getElem?_filter', Option.filter_eq_some_iff] at hk
      exact hk.1
    · exact hk

end RuntimeStore

namespace Worker

open RuntimeStore (Fades)

variable {me : Me} {p q : PartitionId} {h g : NodeId} {t t' : Tick} {n N : ℕ} {c : Bool}

/-! ## The rounds that are left -/

/-- The pages after the cursor of a snapshot, which may be read again
after the cursor before it, those of the journal after the revision that
is reached, and the round that finds nothing more. -/
def roundsLeft (s : PartitionStore) (st : SyncState) : ℕ :=
  match st.phase with
  | .snapshot revision =>
    max (s.records.pagesAfter (some st.currMaxKey) syncBatchSize + 1)
        (s.records.pagesAfter st.prevMaxKey syncBatchSize) +
      s.changes.pagesAfter (some revision) syncBatchSize
  | .changes _ pendingRevision => s.changes.pagesAfter (some pendingRevision) syncBatchSize + 1

theorem roundsLeft_pos (s : PartitionStore) (st : SyncState) : 0 < roundsLeft s st := by
  unfold roundsLeft
  split <;> omega

/-- A partition that fades adds no round. -/
theorem roundsLeft_le {store store' : RuntimeStore} (hf : Fades p store store') (st : SyncState) :
    roundsLeft (store'.partition p) st ≤ roundsLeft (store.partition p) st := by
  have hrecords : ∀ after, (store'.partition p).records.pagesAfter after syncBatchSize ≤
      (store.partition p).records.pagesAfter after syncBatchSize := fun after =>
    Map.pagesAfter_le hf.records fun _ ha => ha
  have hchanges : ∀ after, (store'.partition p).changes.pagesAfter after syncBatchSize ≤
      (store.partition p).changes.pagesAfter after syncBatchSize := fun after =>
    Map.pagesAfter_le hf.changes fun _ ha => ha
  unfold roundsLeft
  split
  · rename_i revision hphase
    have hcurrent := hrecords (some st.currMaxKey)
    have hprevious := hrecords st.prevMaxKey
    have hjournal := hchanges (some revision)
    omega
  · exact Nat.succ_le_succ (hchanges _)

/-- The journal is read within the last of the rounds left. -/
theorem pages_lt_roundsLeft (s : PartitionStore) (st : SyncState) :
    s.changes.pagesAfter (some st.phase.pendingRevision) syncBatchSize < roundsLeft s st := by
  unfold roundsLeft SyncPhase.pendingRevision
  cases st.phase with
  | snapshot revision =>
    dsimp only
    omega
  | changes confirmedRevision pendingRevision => exact Nat.lt_succ_self _

/-- **A batch that follows a confirmed one leaves fewer rounds.** -/
theorem Follows.fewer {s : PartitionStore} {st st' : SyncState} (hf : Follows s (some st) st')
    (hc : st.confirmed = true) : roundsLeft s st' < roundsLeft s st := by
  have hsize : 0 < syncBatchSize := by decide
  cases hf with
  | pages _ hphase hlast =>
    have hpage := Map.pagesAfter_last hsize hlast
    rw [roundsLeft, roundsLeft, hphase]
    dsimp only
    omega
  | changes _ hcursor hlast =>
    have hpage := Map.pagesAfter_last hsize hlast
    have hcursors : s.changes.pagesAfter (some _) syncBatchSize ≤
        s.changes.pagesAfter (some st.phase.pendingRevision) syncBatchSize :=
      Map.pagesAfter_le (fun _ _ hk => hk) fun k hk =>
        Map.after_some.mpr (hcursor.trans_lt (Map.after_some.mp hk))
    have hleft := pages_lt_roundsLeft s st
    rw [roundsLeft]
    dsimp only
    omega
  | pagesAgain hunconfirmed | changesAgain hunconfirmed =>
    rw [hc] at hunconfirmed
    cases hunconfirmed

/-- **A batch that is sent again leaves no more rounds.** -/
theorem Follows.noMore {s : PartitionStore} {st st' : SyncState} (hf : Follows s (some st) st')
    (hc : st.confirmed = false) : roundsLeft s st' ≤ roundsLeft s st := by
  cases hf with
  | pages hconfirmed | changes hconfirmed =>
    rw [hc] at hconfirmed
    cases hconfirmed
  | pagesAgain _ hphase hlast =>
    have hpage := Map.pagesAfter_last (by decide) hlast
    rw [roundsLeft, roundsLeft, hphase]
    dsimp only
    omega
  | changesAgain _ hphase =>
    rw [roundsLeft, roundsLeft, hphase]

/-! ## In the course of a tick -/

/-- A still partition fades. -/
theorem fades_after (hs : t.Still p) (hw : t.store.WellFormed) (n : ℕ) :
    Fades p t.store (t.after n).store := by
  refine ⟨(hs.after hw n).2, ?_⟩
  induction n with
  | zero => exact .refl _
  | succ n ih =>
    rw [← Tick.after_after]
    refine ih.trans ?_
    change RuntimeStore.Sheds p (t.after n).store
      (((t.after n).schedule.headD []).foldl RuntimeStore.apply (t.after n).store)
    have hquiet : ∀ event ∈ (t.after n).schedule.headD [], event.writes p = false :=
      fun event he => StoreEvent.writes_of_not_disturbs
        ((hs.after hw n).1.undisturbed _ (Tick.mem_schedule_of_mem_headD he) event he)
    generalize (t.after n).schedule.headD [] = events at hquiet
    generalize (t.after n).store = store
    induction events generalizing store with
    | nil => exact .refl store
    | cons event events ihe =>
      exact (RuntimeStore.sheds_apply (hquiet event List.mem_cons_self)).trans
        (ihe (fun e he => hquiet e (List.mem_cons_of_mem _ he)) _)

/-- **A synchronisation with at most `N` rounds left**, confirmed or not,
of a partition that nothing disturbs. -/
structure Ahead (p : PartitionId) (h : NodeId) (c : Bool) (N : ℕ) (t : Tick) : Prop where
  wellFormed : t.store.WellFormed
  still : t.Still p
  connected : h ∈ t.state.nodes
  underway : ∃ st, t.syncState p h = some st ∧ st.confirmed = c ∧
    roundsLeft (t.store.partition p) st ≤ N

/-- What fades stays ahead. -/
theorem Ahead.fade (ha : Ahead p h c N t) (hw : t'.store.WellFormed) (hs : t'.Still p)
    (hf : Fades p t.store t'.store) (hconnected : h ∈ t'.state.nodes)
    (hsync : t'.syncState p h = t.syncState p h) : Ahead p h c N t' := by
  obtain ⟨st, hst, hc, hle⟩ := ha.underway
  exact ⟨hw, hs, hconnected, st, hsync.trans hst, hc, (roundsLeft_le hf st).trans hle⟩

theorem Ahead.passed (ha : Ahead p h c N t) (hp : Passed t t' n)
    (hnodes : t'.state.nodes = t.state.nodes) (hsync : t'.syncState p h = t.syncState p h) :
    Ahead p h c N t' := by
  refine ha.fade (hp.evolution ha.wellFormed).1 (hp.still ha.still ha.wellFormed).1 ?_ ?_ hsync
  · rw [hp.store]
    exact fades_after ha.still ha.wellFormed n
  · rw [hnodes]
    exact ha.connected

/-- Pruning the journal of any partition. -/
theorem Ahead.prune (ha : Ahead p h c N t) (q : PartitionId) (through : ℕ) :
    Ahead p h c N { t with store := t.store.prunePartitionChanges q through } := by
  refine ha.fade (RuntimeStore.wellFormed_prune ha.wellFormed through)
    ⟨ha.still.undisturbed, ?_⟩ (RuntimeStore.fades_prune through) ha.connected rfl
  have hidle := ha.still.idle
  change ((t.store.prunePartitionChanges q through).partition p).activeWriters = 0
  rw [RuntimeStore.partition_prune]
  split <;> exact hidle

theorem Ahead.pruneChanges (ha : Ahead p h c N t) (q : PartitionId) :
    Ahead p h c N (pruneChanges q t) := by
  have hafter : ∀ {t : Tick}, Ahead p h c N t → Ahead p h c N t.interleave :=
    fun ha => ha.passed (passed_after _ 1) rfl rfl
  unfold Worker.pruneChanges
  dsimp only
  split
  · exact (hafter ha).prune q _
  · split
    · exact (hafter (hafter ha)).prune q _
    · exact hafter ha

theorem bystander_ahead (me : Me) (p : PartitionId) (h : NodeId) (c : Bool) (N : ℕ) :
    Bystander me p h (Ahead p h c N) where
  touch t q ha := ha.fade ha.wellFormed ⟨ha.still.undisturbed, ha.still.idle⟩ (.refl _)
    ha.connected syncState_touch
  interleave t ha := ha.passed (passed_after t 1) rfl rfl
  round t t' q g hne hf _ ha := by
    obtain ⟨n, hpassed⟩ := hf.passed
    exact ha.passed hpassed hf.nodes
      (hf.others p h fun heq => hne ⟨heq.1.symm, heq.2.symm⟩)
  record t q g records _ ha := by
    refine ha.fade ha.wellFormed ⟨ha.still.undisturbed, ha.still.idle⟩ (.refl _) ?_ ?_
    · unfold recordCompletedSync
      dsimp only
      split <;> exact ha.connected
    · rw [syncState_recordCompletedSync]
      rfl
  leave t q ha := by
    refine ha.fade ha.wellFormed ⟨ha.still.undisturbed, ha.still.idle⟩ (.refl _) ha.connected ?_
    obtain ⟨st, hst, -⟩ := ha.underway
    rw [syncState_retainRecipients]
    split
    · rw [hst]
      exact Option.filter_some_eq_some.mpr (decide_eq_true ha.connected)
    · rfl
  settle t q hq ha := by
    refine ha.fade ha.wellFormed ⟨ha.still.undisturbed, ha.still.idle⟩ (.refl _) ha.connected ?_
    rw [syncState_retainRecipients, if_neg hq.symm]
  prune t q through _ ha := ha.prune q through

/-- **A round of a synchronisation with rounds left** completes it, or
leaves one less if it was confirmed. -/
theorem Ahead.syncRecipient (ha : Ahead p h c N t) (me : Me) :
    (p, h) ∈ completions (syncRecipient me p h t).trace ∨
      Ahead p h false (if c then N - 1 else N) (syncRecipient me p h t) := by
  have ha₁ := (bystander_ahead me p h c N).touch t p ha
  have hturn := @turn_round me p h (t.touch p) ha₁.wellFormed
  have hframe := frame_syncPartitionToRecipient me p h (t.touch p)
  rw [completions_syncRecipient]
  unfold Worker.syncRecipient
  generalize syncPartitionToRecipient me p h (t.touch p) = result at hturn hframe
  obtain ⟨done, t'⟩ := result
  obtain ⟨m, hpassed⟩ := hframe.passed
  obtain ⟨st, hst, hc, hle⟩ := ha₁.underway
  cases hturn with
  | completes => exact Or.inl (by simp)
  | waits hsync hsent hwhy =>
    refine Or.inr ?_
    cases c with
    | false => exact ha₁.passed hpassed hframe.nodes hsync
    | true =>
      -- a still partition has a stable revision
      obtain ⟨n, hunstable⟩ := hwhy st hst hc
      exact absurd hunstable (ha₁.still.after ha₁.wellFormed n).1.stable
  | posts n st' hsync hposted hfollows =>
    have hleft := roundsLeft_le (fades_after ha₁.still ha₁.wellFormed n) st
    rw [hst] at hfollows
    refine Or.inr ⟨(hpassed.evolution ha₁.wellFormed).1,
      (hpassed.still ha₁.still ha₁.wellFormed).1, hframe.nodes ▸ ha₁.connected, st', hsync,
      hfollows.unconfirmed, ?_⟩
    change roundsLeft (t'.store.partition p) st' ≤ _
    rw [hposted.store]
    cases c with
    | false => exact (hfollows.noMore hc).trans (hleft.trans hle)
    | true =>
      have hfewer := hfollows.fewer hc
      show _ ≤ N - 1
      omega

/-- Completed, or not confirmed and with at most `N` rounds left. -/
def Onto (p : PartitionId) (h : NodeId) (N : ℕ) (t : Tick) : Prop :=
  (p, h) ∈ completions t.trace ∨ Ahead p h false N t

theorem Onto.syncPartition_of_ne (ho : Onto p h N t) (me : Me) (hq : q ≠ p) (ids : List NodeId) :
    Onto p h N (syncPartition me q t ids) := by
  rcases ho with hin | ha
  · exact Or.inl (( completions_prefix (trace_syncPartition t ids)).subset hin)
  · exact Or.inr ((bystander_ahead me p h false N).syncPartition hq ids ha)

/-- The visit of the partition. -/
theorem Ahead.visit (ha : Ahead p h c N t) (me : Me) {ids : List NodeId} (hnodup : ids.Nodup)
    (hh : h ∈ ids) : Onto p h (if c then N - 1 else N) (syncPartition me p t ids) := by
  have hrounds : Onto p h (if c then N - 1 else N)
      (rounds me p (retainRecipients p t fun id _ => id ∈ t.state.nodes) ids) := by
    refine run_once (fun t g hg ha => ?_) (fun t (ha : Ahead p h c N t) => ha.syncRecipient me)
      (fun t g hg ho => ?_) hnodup hh ((bystander_ahead me p h c N).leave t p ha)
    · exact (bystander_ahead me p h c N).syncRecipient (fun heq => hg heq.2) ha
    · rcases ho with hin | ha
      · exact Or.inl (( completions_prefix (trace_syncRecipient me p t g)).subset hin)
      · exact Or.inr ((bystander_ahead me p h false _).syncRecipient (fun heq => hg heq.2) ha)
  rw [syncPartition_eq]
  rcases hrounds with hin | ha
  · refine Or.inl ?_
    rw [trace_pruneChanges]
    exact hin
  · -- what is not confirmed is kept
    refine Or.inr (Ahead.pruneChanges ?_ p)
    obtain ⟨st, hst, hc, -⟩ := ha.underway
    refine ha.fade ha.wellFormed ⟨ha.still.undisturbed, ha.still.idle⟩ (.refl _) ha.connected ?_
    rw [syncState_retainRecipients, if_pos rfl, hst]
    exact Option.filter_some_eq_some.mpr (by simp [hc])

/-- A partition with a synchronisation under way does not leave the table. -/
theorem Ahead.removeCompletedSync (ha : Ahead p h c N t) (me : Me)
    {e : PartitionId × Map NodeId SyncState} (he : e.1 = p → e.2.isEmpty = false) :
    Ahead p h c N (removeCompletedSync me t e) := by
  unfold Worker.removeCompletedSync
  split
  · rename_i hempty
    have hne : e.1 ≠ p := fun heq => by
      rw [he heq] at hempty
      cases hempty
    have hforget : ∀ {t : Tick}, Ahead p h c N t → Ahead p h c N
        { t with state := { t.state with sync := t.state.sync.erase e.1 } } := by
      intro t ha
      refine ha.fade ha.wellFormed ⟨ha.still.undisturbed, ha.still.idle⟩ (.refl _) ha.connected ?_
      rw [Tick.syncState, Tick.syncState, Std.ExtTreeMap.getElem?_erase,
        if_neg fun heq => hne (compare_eq_iff_eq.mp heq)]
    dsimp only
    split
    · exact hforget ha
    · have ha₁ : Ahead p h c N t.interleave := ha.passed (passed_after t 1) rfl rfl
      have hpart : (t.interleave.store.removePartition e.1).partition p =
          t.interleave.store.partition p := by
        rw [RuntimeStore.partition_removePartition, if_neg hne]
      refine hforget (ha₁.fade (RuntimeStore.evolution_removePartition e.1 ha₁.wellFormed).1
        ⟨ha₁.still.undisturbed, ?_⟩ (.of_partition_eq hpart) ha₁.connected rfl)
      have hidle := ha₁.still.idle
      rw [← hpart] at hidle
      exact hidle
  · exact ha

theorem Onto.removeCompletedSyncs (ho : Onto p h N t) (me : Me) :
    Onto p h N (removeCompletedSyncsAndObsoletePartitions me t) := by
  rcases ho with hin | ha
  · refine Or.inl ?_
    rw [completions_removeCompletedSyncs]
    exact hin
  · obtain ⟨st, hst, -⟩ := ha.underway
    have hentries : ∀ e ∈ t.state.sync.toList, e.1 = p → e.2.isEmpty = false := by
      rintro ⟨q, states⟩ he rfl
      rw [Tick.syncState, Map.mem_toList.mp he, Option.bind_some] at hst
      rw [← Bool.not_eq_true, Std.ExtTreeMap.isEmpty_iff]
      rintro rfl
      rw [Std.ExtTreeMap.getElem?_empty] at hst
      cases hst
    refine Or.inr ?_
    unfold removeCompletedSyncsAndObsoletePartitions
    exact run_inv (fun t e (ha : Ahead p h false N t) he => ha.removeCompletedSync me he) ha
      (along_of_forall hentries)

/-! ## Whole runs -/

namespace World

variable {w : World} {a : Action} {env : Env}

/-- **The tick** of a synchronisation with rounds left. -/
theorem ahead_ticked (hp : p.id < partitionsAmount) (hh : h ∈ Ledger.recipientsOf me w.state p)
    (ha : Worker.Ahead p h c N (w.ticking me env)) :
    Onto p h (if c then N - 1 else N) (w.ticked me env) := by
  have hsynced : Onto p h (if c then N - 1 else N) ((w.ticking me env).synced me env.order) := by
    refine synced_once (I := fun t => Worker.Ahead p h c N t ∧ Announced me (w.ticking me env) t) hp
      (fun t q ids hq ht => ⟨(bystander_ahead me p h c N).syncPartition hq ids ht.1,
        ht.2.syncPartition q ids⟩)
      (fun t ht => ?_) (fun t q ids hq ho => ho.syncPartition_of_ne me hq ids)
      ⟨ha, announced_ticking w me env⟩
    refine ht.1.visit me (env.order.nodup_toList _) ?_
    rw [env.order.mem_toList, recipients, ht.2.fixed.partitions, ht.2.fixed.nodes]
    rw [← recipients_heartbeats w.state env.heartbeatNow p] at hh
    exact hh
  exact hsynced.removeCompletedSyncs me

/-- **What leaves the partition alone**: no client writes it and no writer
is left at work on it, before the tick or in the course of it, and no
other worker sends its records. -/
structure Quiet (p : PartitionId) (a : Action) : Prop where
  store : ∀ event, a = .store event → event.disturbs p = false
  schedule : ∀ env ∈ a.env, ∀ events ∈ env.schedule, ∀ event ∈ events, event.disturbs p = false
  batches : ∀ id request env, a = .message (.syncBatch id request) env →
    ∀ record ∈ request.records, record.key.partition ≠ p

/-- The partition is left alone, and the recipient is one of its. -/
structure Undisturbed (me : Me) (p : PartitionId) (h : NodeId) (w : World) (a : Action) : Prop where
  quiet : Quiet p a
  recipient : ∀ env ∈ a.env, h ∈ Ledger.recipientsOf me (w.receive me a).state p

/-- The answer to the batch sent last arrives. -/
def Answered (w : World) (p : PartitionId) (h : NodeId) : Action → Prop
  | .respond i _ => i ∈ w.delivered ∧ (lastSent w.sent p h).map Prod.snd = some i
  | _ => False

instance decidableAnswered (w : World) (p : PartitionId) (h : NodeId) :
    (a : Action) → Decidable (w.Answered p h a)
  | .respond i _ => inferInstanceAs (Decidable (i ∈ w.delivered ∧
      (lastSent w.sent p h).map Prod.snd = some i))
  | .store _ | .tick _ | .message _ _ | .deliver _ | .peer _ _ =>
    inferInstanceAs (Decidable False)

/-- How many times a run brings the answer to the batch sent last. -/
def answers (me : Me) (p : PartitionId) (h : NodeId) (w : World) (actions : List Action) : ℕ :=
  count (step me) (fun w a => w.Answered p h a) w actions

/-- **Between two turns**: a synchronisation that awaits its answer with at
most `N` rounds left, of a partition without a writer. -/
structure Ahead (p : PartitionId) (h : NodeId) (N : ℕ) (w : World) : Prop where
  wellFormed : w.store.WellFormed
  idle : (w.store.partition p).activeWriters = 0
  underway : ∃ st, w.syncState p h = some st ∧ st.confirmed = false ∧
    roundsLeft (w.store.partition p) st ≤ N
  awaits : AwaitsLast p h (w.syncState p h) w.sent

/-- A batch of another partition's records. -/
theorem partition_handleSyncBatch {store : RuntimeStore} {request : SyncBatchRequest}
    (hothers : ∀ record ∈ request.records, record.key.partition ≠ p) :
    (handleSyncBatch store request).1.partition p = store.partition p := by
  unfold handleSyncBatch
  generalize request.records = records at hothers
  induction records generalizing store with
  | nil => rfl
  | cons record records ih =>
    rw [List.foldl_cons, ih fun r hr => hothers r (List.mem_cons_of_mem _ hr)]
    have hne := hothers record List.mem_cons_self
    unfold applyRecord
    split
    · rw [RuntimeStore.deleteAt, RuntimeStore.partition_applyMutation, if_neg hne]
    · rw [RuntimeStore.put, RuntimeStore.partition_applyMutation, if_neg hne]

/-- What arrives leaves the partition alone. -/
theorem Quiet.receive (hu : Quiet p a) (me : Me) (hw : w.store.WellFormed)
    (hidle : (w.store.partition p).activeWriters = 0) :
    Fades p w.store (w.receive me a).store ∧
      ((w.receive me a).store.partition p).activeWriters = 0 := by
  have hsame : ∀ {store : RuntimeStore}, store.partition p = w.store.partition p →
      Fades p w.store store ∧ (store.partition p).activeWriters = 0 := fun heq =>
    ⟨.of_partition_eq heq, heq ▸ hidle⟩
  cases a with
  | store event =>
    have hquiet := hu.store event rfl
    exact ⟨RuntimeStore.fades_apply hw hquiet, RuntimeStore.activeWriters_apply hidle hquiet⟩
  | tick env => exact hsame rfl
  | peer g event => exact hsame rfl
  | deliver i =>
    refine hsame ?_
    simp only [World.receive]
    split <;> rfl
  | respond i env =>
    refine hsame ?_
    simp only [World.receive]
    split
    · rfl
    · split <;> rfl
  | message msg env =>
    refine hsame ?_
    cases msg with
    | syncBatch id request => exact partition_handleSyncBatch (hu.batches id request env rfl)
    | _ => rfl

/-- **The answer to the batch sent last confirms it**, and no other message
moves the synchronisation. -/
theorem Ahead.receive (ha : w.Ahead p h N) (hu : Undisturbed me p h w a) :
    ∃ st c, (w.receive me a).syncState p h = some st ∧ st.confirmed = c ∧
      roundsLeft ((w.receive me a).store.partition p) st ≤ N ∧ (w.Answered p h a → c = true) := by
  obtain ⟨st, hst, hc, hle⟩ := ha.underway
  have hleft := (roundsLeft_le (hu.quiet.receive me ha.wellFormed ha.idle).1 st).trans hle
  have hrounds : ∀ key s, roundsLeft s (confirm key st) = roundsLeft s st := by
    intro key s
    unfold confirm
    split <;> rfl
  by_cases hanswered : w.Answered p h a
  · cases a with
    | respond i env =>
      obtain ⟨hi, hlast⟩ := hanswered
      obtain ⟨b, j, hsent, hkey⟩ := ha.awaits st hst
      rw [hsent, Option.map_some, Option.some_inj] at hlast
      obtain rfl : j = i := hlast
      obtain ⟨hb, -, rfl⟩ := lastSent_spec hsent
      have hanswer := @sync_handleSyncBatchResponse p b.recipient b.recipient w.state
        (maxAppliedKeys b.records)
      rw [hkey] at hanswer
      dsimp only at hanswer
      rw [if_pos rfl] at hanswer
      have hreceived : (w.receive me (.respond j env)).syncState p b.recipient =
          (w.syncState p b.recipient).map (confirm st.currMaxKey) := by
        simp only [World.receive, hb, if_pos hi]
        exact hanswer
      refine ⟨confirm st.currMaxKey st, true, ?_, ?_, ?_, fun _ => rfl⟩
      · rw [hreceived, hst]
        rfl
      · rw [confirm, if_pos rfl]
      · rw [hrounds]
        exact hleft
    | _ => exact hanswered.elim
  · rcases syncState_receive me w a p h with hsame | ⟨i, env, key, -, hconfirm⟩
    · exact ⟨st, _, hsame.trans hst, rfl, hleft, fun h' => absurd h' hanswered⟩
    · refine ⟨confirm key st, _, ?_, rfl, ?_, fun h' => absurd h' hanswered⟩
      · rw [hconfirm, hst]
        rfl
      · rw [hrounds]
        exact hleft

/-- **A turn completes the synchronisation, or leaves it ahead**, with a
round less if it brings the answer. -/
theorem Ahead.step (ha : w.Ahead p h N) (hp : p.id < partitionsAmount)
    (hu : Undisturbed me p h w a) :
    (p, h) ∈ completions (w.traceOf me a) ∨
      (w.step me a).Ahead p h (if w.Answered p h a then N - 1 else N) := by
  have hawaits := awaits_step ha.wellFormed ha.awaits me a
  have hwell := wellFormed_step me ha.wellFormed a
  obtain ⟨st, c, hst, hc, hle, hanswer⟩ := ha.receive hu
  obtain ⟨-, hidle⟩ := hu.quiet.receive me ha.wellFormed ha.idle
  rcases step_eq me w a with ⟨hnone, heq, -⟩ | ⟨env, henv, heq, htrace⟩
  · -- without a tick nothing is confirmed
    obtain ⟨st', hst', hc', hle'⟩ := ha.underway
    have hnot : ¬ w.Answered p h a := by
      intro hanswered
      cases a with
      | respond i env => cases hnone
      | _ => exact hanswered
    rw [if_neg hnot]
    refine Or.inr ⟨hwell, heq ▸ hidle, ?_, hawaits⟩
    rw [heq]
    rcases syncState_receive me w a p h with hsame | ⟨i, env, key, rfl, -⟩
    · refine ⟨st', hsame.trans hst', hc', ?_⟩
      exact (roundsLeft_le (hu.quiet.receive me ha.wellFormed ha.idle).1 st').trans hle'
    · cases hnone
  · have hticking : Worker.Ahead p h c N ((w.receive me a).ticking me env) := by
      refine ⟨wellFormed_receive me ha.wellFormed a, ⟨hu.quiet.schedule env henv, hidle⟩,
        mem_nodes_heartbeats.mpr (mem_nodes_of_recipient (hu.recipient env henv)), st, ?_, hc, hle⟩
      change ((heartbeats _ me env.heartbeatNow).1.sync[p]?.bind _) = some st
      rw [sync_heartbeats]
      exact hst
    rcases ahead_ticked hp (hu.recipient env henv) hticking with hin | hahead
    · rw [htrace]
      exact Or.inl hin
    · obtain ⟨st', hst', hc', hle'⟩ := hahead.underway
      rw [heq] at hawaits hwell ⊢
      refine Or.inr ⟨hwell, hahead.still.idle, ⟨st', hst', hc', ?_⟩, hawaits⟩
      split
      · rename_i hanswered
        rw [hanswer hanswered] at hle'
        exact hle'
      · refine hle'.trans ?_
        split <;> omega

/-- **A synchronisation that is answered comes to its end.** From every
state a run can reach, with the synchronisation under way and no writer at
work on the partition: in every continuation that leaves the partition
alone, whatever else arrives, in whatever order, and however often batches
are sent again, as many answers to the batch sent last as there are rounds
left complete it. -/
theorem answered_sync_completes (me : Me) (now : ℕ) (before later : List Action) (p : PartitionId)
    (h : NodeId) (st : SyncState) (hp : p.id < partitionsAmount)
    (hst : (run (step me) (start me now) before).syncState p h = some st)
    (hidle : ((run (step me) (start me now) before).store.partition p).activeWriters = 0)
    (hquiet : Along (step me) (Undisturbed me p h) (run (step me) (start me now) before) later)
    (hanswers : roundsLeft ((run (step me) (start me now) before).store.partition p) st ≤
      answers me p h (run (step me) (start me now) before) later) :
    ∃ earlier a after, later = earlier ++ a :: after ∧
      (p, h) ∈ completions ((run (step me) (start me now) (before ++ earlier)).traceOf me a) := by
  have hahead : (run (step me) (start me now) before).Ahead p h
      (roundsLeft ((run (step me) (start me now) before).store.partition p) st) :=
    ⟨wellFormed_run me now before, hidle, ⟨st, hst, unconfirmed_run me now before hp hst, le_rfl⟩,
      awaited_run me now before p h⟩
  simp only [run_append]
  refine exists_of_count (I := fun N w => w.Ahead p h N) (fun w ha => ?_)
    (fun N w a ha hu => ha.step hp hu) hahead hquiet hanswers
  obtain ⟨st', -, -, hle⟩ := ha.underway
  exact absurd hle (Nat.not_le.mpr (roundsLeft_pos _ st'))

/-- The first batch of the handover is lost and sent again, a manager is
met, and the second batch is answered. -/
def handoverEnds : List Action :=
  [.tick aMinuteLater, .message (.newConnection (some ⟨9⟩) "manager" 9000 true) aMinuteLater,
    .deliver 1, .respond 1 aMinuteLater]

theorem quiet_handoverEnds : ∀ a ∈ handoverEnds, Quiet ⟨0⟩ a := by
  intro a ha
  simp only [handoverEnds, List.mem_cons, List.not_mem_nil, or_false] at ha
  rcases ha with rfl | rfl | rfl | rfl
  all_goals
    refine ⟨fun event heq => ?_, fun env henv events hevents => ?_, fun id request env heq => ?_⟩
    · cases heq
    · cases henv <;> cases hevents
    · cases heq

theorem answered_sync_completes_handover :
    ∃ earlier a after, handoverEnds = earlier ++ a :: after ∧
      (⟨0⟩, ⟨2⟩) ∈ completions ((run (step sender) (start sender 0)
        (handoverStarts ++ earlier)).traceOf sender a) := by
  have hrun : run (step sender) (start sender 0) handoverStarts =
      run (firstStep sender) (start sender 0) handoverStarts := run_of_first (by decide +kernel)
  have honly : Along (firstStep sender) (fun w a => OnlyFirst sender w a ∧ ∀ env ∈ a.env,
      (⟨2⟩ : NodeId) ∈ Ledger.recipientsOf sender (w.receive sender a).state ⟨0⟩)
      (run (firstStep sender) (start sender 0) handoverStarts) handoverEnds := by decide +kernel
  have hrecipient : (run (firstStep sender) (start sender 0) handoverStarts).Guarded sender
      (fun w a _ => ∀ env ∈ a.env,
        (⟨2⟩ : NodeId) ∈ Ledger.recipientsOf sender (w.receive sender a).state ⟨0⟩)
      handoverEnds := guarded_of_first honly
  refine answered_sync_completes sender 0 handoverStarts handoverEnds ⟨0⟩ ⟨2⟩
    ⟨none, ⟨0⟩, .snapshot 1, false, 0⟩ partitionsAmount_pos ?_ ?_ ?_ ?_
  · rw [hrun]
    decide +kernel
  · rw [hrun]
    decide +kernel
  · rw [hrun]
    exact along_of_inv (I := fun _ => True) (fun _ _ _ _ => trivial)
      (fun w a _ ha => ⟨ha.1, ha.2⟩) trivial
      (along_and.mpr ⟨along_of_forall quiet_handoverEnds, hrecipient⟩)
  · rw [hrun, answers, count_congr (along_of_inv (I := fun _ => True) (fun _ _ _ _ => trivial)
      (fun w a _ ha => (step_eq_firstStep ha.1).1) trivial honly)]
    decide +kernel

end World

end Worker

end NoSqlStore
