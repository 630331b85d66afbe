import NoSqlStore.Sync.World
/-!
# The answer to a batch

The sender of a batch notes its greatest key, the last of a sorted page or
the maximum of a page of the journal, and the recipient computes one key
for each partition of the records. Every key the store of a worker has
belongs to the partition it is kept under, so the answer names the one
partition, with the key the sender has noted (`batch_answered`).
-/

namespace NoSqlStore

open Runs

namespace Worker

variable {me : Me} {p q : PartitionId} {h g : NodeId} {t t' : Tick}

/-- The answer of a recipient that has applied records with one greatest
key. -/
def answerOf (p : PartitionId) (key : Key) : Map PartitionId Key :=
  (∅ : Map PartitionId Key).insert p key

theorem getElem?_answerOf (key : Key) :
    (answerOf p key)[q]? = if q = p then some key else none := by
  rw [answerOf, Std.ExtTreeMap.getElem?_insert, Std.ExtTreeMap.getElem?_empty]
  by_cases hq : q = p
  · rw [if_pos hq, if_pos (by simp [hq])]
  · rw [if_neg hq, if_neg (by simpa using Ne.symm hq)]

/-- **A batch whose answer confirms.** Whatever its recipient stores, the
answer has one entry, of the partition and with the key noted; and the
answer confirms the synchronisation that has noted it and touches no
other. -/
structure Answered (me : Me) (p : PartitionId) (h : NodeId) (key : Key)
    (records : List SyncRecord) : Prop where
  answer : ∀ store, (handleSyncBatch store ⟨me.id, records⟩).2 =
    .syncBatchResponse me.id (answerOf p key)
  confirms : ∀ (state : State) (st : SyncState),
    (state.sync[p]?.bind fun states => states[h]?) = some st → st.currMaxKey = key →
    ((handleSyncBatchResponse state (answerOf p key) h).sync[p]?.bind fun states => states[h]?) =
      some { st with confirmed := true }
  others : ∀ (state : State) (q : PartitionId) (g : NodeId), ¬ (q = p ∧ g = h) →
    ((handleSyncBatchResponse state (answerOf p key) h).sync[q]?.bind fun states => states[g]?) =
      state.sync[q]?.bind fun states => states[g]?

/-- **The answer to a proper batch has one entry.** -/
theorem maxAppliedKeys_eq {records : List (Key × Mutation)}
    {reads : List (ℕ × Key × Option Mutation)} {key : Key}
    (hproper : (batchOf p h records reads).Proper)
    (hkey : (records.map Prod.fst).max? = some key) :
    maxAppliedKeys (batchOf p h records reads).records = answerOf p key := by
  refine Std.ExtTreeMap.ext_getElem? fun q => ?_
  rw [getElem?_answerOf]
  split
  · rename_i hq
    rw [hq]
    exact maxAppliedKeys_batchOf hproper hkey
  · rename_i hq
    by_contra hne
    obtain ⟨key', hkey'⟩ := Option.ne_none_iff_exists'.mp hne
    obtain ⟨record, hin, hrecord⟩ := exists_of_maxAppliedKeys hkey'
    exact hq (hrecord.symm.trans (hproper record hin))

theorem answered_batchOf {records : List (Key × Mutation)}
    {reads : List (ℕ × Key × Option Mutation)} {key : Key}
    (hproper : (batchOf p h records reads).Proper)
    (hkey : (records.map Prod.fst).max? = some key) :
    Answered me p h key (batchOf p h records reads).records where
  answer store := by
    rw [handleSyncBatch, maxAppliedKeys_eq hproper hkey]
  confirms state st hst hnoted := by
    rw [sync_handleSyncBatchResponse, getElem?_answerOf, if_pos rfl]
    dsimp only
    rw [if_pos rfl, hst, Option.map_some, confirm, if_pos hnoted]
  others state q g hother := by
    rw [sync_handleSyncBatchResponse, getElem?_answerOf]
    by_cases hq : q = p
    · rw [if_pos hq]
      exact if_neg fun hg => hother ⟨hq, hg.symm⟩
    · rw [if_neg hq]

/-! ## The batches of a round -/

/-- **A batch has been pushed** whose answer is `key` and confirms. -/
def Emits (me : Me) (p : PartitionId) (h : NodeId) (key : Key) (t t' : Tick) : Prop :=
  ∃ records, t'.output = t.output ++ [.syncBatch h ⟨me.id, records⟩] ∧
    Answered me p h key records

/-- What `sync_batch` and `sync_change_batch` put out: nothing, or a batch
with the key they return. -/
def Sends (me : Me) (p : PartitionId) (h : NodeId) (t : Tick) : Option Key × Tick → Prop
  | (none, t') => t'.output = t.output
  | (some key, t') => Emits me p h key t t'

theorem Tick.after_output (t : Tick) (n : ℕ) : (t.after n).output = t.output := by
  induction n with
  | zero => rfl
  | succ n ih =>
    rw [← Tick.after_after t n 1]
    exact ih

/-- A page that is sent is answered with its last key. -/
theorem sends_syncBatch (hw : t.store.WellFormed) (after : Option Key) :
    Sends me p h t (syncBatch me p h t after) := by
  have hw₁ := (t.evolution_after 1 hw).1
  have hout := t.after_output 1
  rcases syncBatch_spec me p h t after with ⟨-, heq⟩ | ⟨last, hlast, heq⟩
  · rw [heq]
    exact hout
  · rw [heq]
    have hproper : (batchOf p h (((t.after 1).records p).pageAfter after syncBatchSize)
        []).Proper := proper_page hw₁ after
    have hmax : ((((t.after 1).records p).pageAfter after syncBatchSize).map Prod.fst).max? =
        some last.1 := by
      refine List.max?_eq_some_iff.mpr ⟨?_, fun key hkey => ?_⟩
      · exact List.mem_map.mpr ⟨last, List.mem_of_getLast? hlast, rfl⟩
      · obtain ⟨e, he, rfl⟩ := List.mem_map.mp hkey
        exact Map.le_last_of_mem_pageAfter hlast he
    refine ⟨_, ?_, answered_batchOf hproper hmax⟩
    rw [← hout]
    rfl

/-- A page of the journal that is sent is answered with its greatest key,
whichever pages were skipped before. -/
theorem sends_changeLoop (fuel : ℕ) : ∀ (t : Tick) (cursor : ℕ)
    (reads : List (ℕ × Key × Option Mutation)), t.store.WellFormed →
    Sends me p h t ((changeLoop me p h fuel t cursor reads).1.map Prod.snd,
      (changeLoop me p h fuel t cursor reads).2) := by
  induction fuel with
  | zero => exact fun t _ _ _ => (rfl : t.output = t.output)
  | succ fuel ih =>
    intro t cursor reads hw
    have hw₁ := (t.evolution_after 1 hw).1
    have hout := t.after_output 1
    rcases changeLoop_succ me p h t fuel cursor reads with
      ⟨-, heq⟩ | ⟨last, -, ⟨-, heq⟩ | ⟨key, hmax, heq⟩⟩
    · rw [heq]
      exact hout
    · rw [heq]
      have hrest := ih (t.after 1) last.1
        (reads ++ (t.after 1).seen p ((t.after 1).journalPage p cursor)) hw₁
      generalize changeLoop me p h fuel (t.after 1) last.1 _ = result at hrest
      obtain ⟨_ | found, t'⟩ := result
      · exact Eq.trans hrest hout
      · obtain ⟨records, hpushed, hanswered⟩ := hrest
        exact ⟨records, by rw [hpushed, hout], hanswered⟩
    · rw [heq]
      have hproper : (batchOf p h ((t.after 1).stored p ((t.after 1).journalPage p cursor))
          []).Proper := proper_batchOf hw₁ fun e he => (Tick.mem_stored.mp he).2
      refine ⟨_, ?_, answered_batchOf hproper hmax⟩
      rw [← hout]
      rfl

theorem sends_syncChangeBatch (hw : t.store.WellFormed) (c : ℕ) :
    Sends me p h t ((syncChangeBatch me p h t c).1.map Prod.snd, (syncChangeBatch me p h t c).2) :=
  sends_changeLoop _ t c [] hw

/-- **What a round puts out**: nothing, or a batch whose greatest key the
synchronisation it leaves has noted. -/
def Noted (me : Me) (p : PartitionId) (h : NodeId) (t t' : Tick) : Prop :=
  t'.output = t.output ∨ ∃ st, t'.syncState p h = some st ∧ st.confirmed = false ∧
    Emits me p h st.currMaxKey t t'

/-- A batch is noted by the state that is set for it. -/
theorem noted_setSyncState {key : Key} {st : SyncState} {t₁ : Tick}
    (hemits : Emits me p h key t t₁) (hkey : st.currMaxKey = key) (hst : st.confirmed = false) :
    Noted me p h t (t₁.now.2.setSyncState p h st) := by
  refine Or.inr ⟨st, syncState_setSyncState_self, hst, ?_⟩
  rw [hkey]
  exact hemits

theorem noted_startSync (hw : t.store.WellFormed) : Noted me p h t (startSync me p h t).2 := by
  have hw₁ := (t.evolution_after 1 hw).1
  have hsends : Sends me p h (t.after 1) (syncBatch me p h (t.after 1) none) :=
    sends_syncBatch hw₁ none
  have hout := t.after_output 1
  unfold startSync
  simp only [Tick.interleave_eq_after]
  cases (t.after 1).store.stablePartitionRevision p with
  | none => exact Or.inl hout
  | some revision =>
    dsimp only
    generalize syncBatch me p h (t.after 1) none = batch at hsends
    obtain ⟨_ | key, t₁⟩ := batch
    · exact Or.inl ((t₁.after_output 1).trans (Eq.trans hsends hout))
    · obtain ⟨records, hpushed, hanswered⟩ := hsends
      exact noted_setSyncState ⟨records, by rw [hpushed, hout], hanswered⟩ rfl rfl

theorem noted_continueChanges (hw : t.store.WellFormed) (st : SyncState) (c : ℕ) :
    Noted me p h t (continueChanges me p h t st c).2 := by
  have hsends := @sends_syncChangeBatch me p h t hw c
  unfold continueChanges
  generalize syncChangeBatch me p h t c = batch at hsends
  obtain ⟨_ | found, t₁⟩ := batch
  · simp only [Tick.interleave_eq_after]
    have hout : ((t₁.log (.gap p (t₁.schedule.headD []))).after 1).output = t.output :=
      ((t₁.log (.gap p (t₁.schedule.headD []))).after_output 1).trans hsends
    refine Or.inl ?_
    cases ((t₁.log (.gap p (t₁.schedule.headD []))).after 1).store.stablePartitionRevision p with
    | none => exact hout
    | some revision => exact hout
  · exact noted_setSyncState hsends rfl rfl

theorem noted_continueConfirmedSync (hw : t.store.WellFormed) (st : SyncState) :
    Noted me p h t (continueConfirmedSync me p h t st).2 := by
  unfold continueConfirmedSync
  cases st.phase with
  | changes c pending => exact noted_continueChanges hw st pending
  | snapshot revision =>
    obtain ⟨n, hpassed⟩ := ((moving_frame me p h).syncBatch t (some st.currMaxKey)).passed
    have hw₁ := (hpassed.evolution hw).1
    have hsends : Sends me p h t (syncBatch me p h t (some st.currMaxKey)) := sends_syncBatch hw _
    generalize syncBatch me p h t (some st.currMaxKey) = batch at hsends hw₁
    obtain ⟨_ | key, t₁⟩ := batch
    · -- the snapshot is at its end, and the journal follows in the same round
      rcases noted_continueChanges hw₁ st revision with hout | ⟨st', hst', hc, records, hout, ha⟩
      · exact Or.inl (hout.trans hsends)
      · exact Or.inr ⟨st', hst', hc, records, by rw [hout]; exact congrArg (· ++ _) hsends, ha⟩
    · exact noted_setSyncState hsends rfl rfl

theorem sends_reread (hw : t.store.WellFormed) (st : SyncState) :
    Sends me p h t (reread me p h st t) := by
  unfold reread
  cases st.phase with
  | snapshot revision => exact sends_syncBatch hw _
  | changes c pending => exact sends_syncChangeBatch hw c

theorem noted_retryTimedOutSync (hw : t.store.WellFormed) (st : SyncState) :
    Noted me p h t (retryTimedOutSync me p h t st) := by
  rw [retryTimedOutSync_eq]
  split
  · exact Or.inl rfl
  · have hw₁ : (t.now.2.log (.timedOut p h st.phase (t.now.2.changes p))).store.WellFormed := hw
    have hsends : Sends me p h t (reread me p h st
        (t.now.2.log (.timedOut p h st.phase (t.now.2.changes p)))) := sends_reread hw₁ st
    generalize reread me p h st _ = read at hsends
    obtain ⟨_ | key, t₁⟩ := read
    · exact Or.inl hsends
    · exact noted_setSyncState hsends rfl rfl

theorem noted_round (hw : t.store.WellFormed) :
    Noted me p h t (syncPartitionToRecipient me p h t).2 := by
  unfold syncPartitionToRecipient
  cases t.syncState p h with
  | none => exact noted_startSync hw
  | some st =>
    dsimp only
    split
    · exact noted_continueConfirmedSync hw st
    · exact noted_retryTimedOutSync hw st

/-- **A batch and its answer agree.** Whatever has been done to the store
of the sender, and whatever happens to it meanwhile: a batch of a page or
of the journal is answered with one entry, of its partition and with the
key the sender gets back; that is the key the round notes; and the answer
confirms the synchronisation that has noted it and changes no other. -/
theorem batch_answered (me : Me) (p : PartitionId) (h : NodeId) (ops : List StoreOperation)
    (t : Tick) (hstore : t.store = run RuntimeStore.operate default ops) :
    (∀ after key t', syncBatch me p h t after = (some key, t') → Emits me p h key t t') ∧
    (∀ c last key t', syncChangeBatch me p h t c = (some (last, key), t') →
      Emits me p h key t t') ∧
    Noted me p h t (syncPartitionToRecipient me p h t).2 := by
  have hw : t.store.WellFormed := by
    rw [hstore]
    exact RuntimeStore.wellFormed_operations ops
  refine ⟨fun after key t' heq => ?_, fun c last key t' heq => ?_, noted_round hw⟩
  · have hsends : Sends me p h t (syncBatch me p h t after) := sends_syncBatch hw after
    rw [heq] at hsends
    exact hsends
  · have hsends := @sends_syncChangeBatch me p h t hw c
    rw [heq] at hsends
    exact hsends

/-- A tick over two keys of the first partition, one of them written
twice. -/
def rewritten : Tick :=
  ⟨State.new ∅, run RuntimeStore.operate default
    [.event (.put ⟨4096⟩ ⟨0, 1, [1]⟩), .event (.put ⟨0⟩ ⟨0, 1, [1]⟩),
      .event (.put ⟨4096⟩ ⟨0, 2, [2]⟩)], [], [], [], [], []⟩

theorem batch_answered_rewritten :
    (∃ t', syncBatch ⟨⟨1⟩, "worker-1", 9001⟩ ⟨0⟩ ⟨2⟩ rewritten none = (some ⟨4096⟩, t') ∧
      Emits ⟨⟨1⟩, "worker-1", 9001⟩ ⟨0⟩ ⟨2⟩ ⟨4096⟩ rewritten t') ∧
    ∃ t', syncChangeBatch ⟨⟨1⟩, "worker-1", 9001⟩ ⟨0⟩ ⟨2⟩ rewritten 0 = (some (3, ⟨4096⟩), t') ∧
      Emits ⟨⟨1⟩, "worker-1", 9001⟩ ⟨0⟩ ⟨2⟩ ⟨4096⟩ rewritten t' := by
  obtain ⟨hpage, hchanges, -⟩ := batch_answered ⟨⟨1⟩, "worker-1", 9001⟩ ⟨0⟩ ⟨2⟩ _ rewritten rfl
  have hkey : (syncBatch ⟨⟨1⟩, "worker-1", 9001⟩ ⟨0⟩ ⟨2⟩ rewritten none).1 = some ⟨4096⟩ := by
    decide +kernel
  have hlast : (syncChangeBatch ⟨⟨1⟩, "worker-1", 9001⟩ ⟨0⟩ ⟨2⟩ rewritten 0).1 =
      some (3, ⟨4096⟩) := by
    decide +kernel
  exact ⟨⟨_, Prod.ext hkey rfl, hpage _ _ _ (Prod.ext hkey rfl)⟩,
    ⟨_, Prod.ext hlast rfl, hchanges _ _ _ _ (Prod.ext hlast rfl)⟩⟩

end Worker

end NoSqlStore
