import NoSqlStore.Sync.Announcements
/-!
# Retrying a batch that was lost

A batch that is not answered in time is read again from the store, which
has changed since. Where something of what the batch covered is left, a
batch goes out; where nothing is left, the retry sends nothing, keeps the
synchronisation unconfirmed and does not complete it, and so does every
retry after it. `retry_moves_on_iff` says that this is the only case in
which a timed-out synchronisation is stuck.
-/

namespace NoSqlStore

open Coverage Runs

/-- The event takes a record away that is stored under the key. -/
def StoreEvent.drops (k : Key) (m : Mutation) : StoreEvent → Bool
  | .getVersioned key nowMs | .removeEntry key nowMs => key = k ∧ m.expired nowMs
  | .removeExpired nowMs => m.expired nowMs
  | _ => false

namespace RuntimeStore

variable {store store' store'' : RuntimeStore} {p q : PartitionId} {events rest : List StoreEvent}

/-- **No mutation of the partition is in flight**: none of the events
writes it, and none takes away what it stores. -/
def Unmoved (p : PartitionId) (store : RuntimeStore) (events : List StoreEvent) : Prop :=
  ∀ event ∈ events, event.writes p = false ∧
    ∀ (k : Key) (m : Mutation), (store.partition p).records[k]? = some m → event.drops k m = false

/-- The partition stores what it stored, and its journal is what it was
unless there was nothing stored. -/
structure Unchanged (p : PartitionId) (store store' : RuntimeStore) : Prop where
  records : (store'.partition p).records = (store.partition p).records
  changes : (store.partition p).records = ∅ ∨
    (store'.partition p).changes = (store.partition p).changes

theorem Unchanged.refl (store : RuntimeStore) : Unchanged p store store := ⟨rfl, Or.inr rfl⟩

theorem Unchanged.trans (h₁ : Unchanged p store store') (h₂ : Unchanged p store' store'') :
    Unchanged p store store'' := by
  refine ⟨h₂.records.trans h₁.records, ?_⟩
  rcases h₁.changes with hnone | heq
  · exact Or.inl hnone
  · rcases h₂.changes with hnone | heq'
    · exact Or.inl (h₁.records ▸ hnone)
    · exact Or.inr (heq'.trans heq)

theorem Unchanged.of_partition_eq (h : store'.partition p = store.partition p) :
    Unchanged p store store' := ⟨by rw [h], Or.inr (by rw [h])⟩

theorem Unchanged.keeps (h : Unchanged p store store') : Keeps p store store' := by
  refine ⟨fun k hk => h.records ▸ hk, fun r k hk hr => ?_⟩
  rcases h.changes with hnone | heq
  · rw [hnone] at hk
    exact absurd hk Std.ExtTreeMap.not_mem_empty
  · rw [heq]
    exact hr

theorem Unmoved.of_unchanged (hu : Unmoved p store events) (h : Unchanged p store store') :
    Unmoved p store' events := by
  unfold Unmoved
  rw [h.records]
  exact hu

/-- An empty partition goes with its journal. -/
theorem unchanged_removePartitionIfEmpty (q : PartitionId) :
    Unchanged p store (store.removePartitionIfEmpty q) := by
  by_cases hq : q = p
  · subst hq
    unfold removePartitionIfEmpty
    split
    · rename_i hempty
      have hrecords : (store.partition q).records = ∅ := by
        rw [partition]
        cases hc : store.cache[q]? with
        | none => rfl
        | some s => simpa [hc] using hempty
      refine ⟨?_, Or.inl hrecords⟩
      rw [hrecords, partition_removePartition, if_pos rfl]
      rfl
    · exact .refl store
  · exact .of_partition_eq (partition_removePartitionIfEmpty_of_ne hq)

/-- A scan that finds nothing of the partition expired. -/
theorem unchanged_removeExpiredOf (hw : WellFormed store) {nowMs : ℕ}
    (hlive : ∀ (k : Key) (m : Mutation), (store.partition p).records[k]? = some m →
      m.expired nowMs = false) (q : PartitionId) :
    Unchanged p store (store.removeExpiredOf q nowMs) := by
  have hkeys : ∀ e ∈ (store.partition q).records.toList.filter fun e => e.2.expired nowMs,
      e.1.partition ≠ p := by
    intro e he heq
    obtain ⟨hin, hexpired⟩ := List.mem_filter.mp he
    have hstored := Map.mem_toList.mp hin
    -- a key of `p` is stored in `p`, and nothing there is expired
    have hq : q = p := (hw.keys q e.1 e.2 hstored).symm.trans heq
    subst hq
    rw [hlive e.1 e.2 hstored] at hexpired
    cases hexpired
  have hfold : ∀ (l : List (Key × Mutation)) (store : RuntimeStore), (∀ e ∈ l, e.1.partition ≠ p) →
      Unchanged p store (l.foldl (fun store e => store.expire e.1 nowMs) store) := by
    intro l
    induction l with
    | nil => exact fun store _ => .refl store
    | cons e l ih =>
      intro store hkeys
      have hfirst : Unchanged p store (store.expire e.1 nowMs) :=
        .of_partition_eq (partition_expire_of_ne (hkeys e List.mem_cons_self))
      exact hfirst.trans (ih _ fun e' he' => hkeys e' (List.mem_cons_of_mem _ he'))
  exact (hfold _ store hkeys).trans (unchanged_removePartitionIfEmpty q)

theorem unchanged_removeExpired (hw : WellFormed store) {nowMs : ℕ}
    (hlive : ∀ (k : Key) (m : Mutation), (store.partition p).records[k]? = some m →
      m.expired nowMs = false) : Unchanged p store (store.removeExpired nowMs) := by
  unfold removeExpired
  generalize store.cache.keys = l
  induction l generalizing store with
  | nil => exact .refl store
  | cons q l ih =>
    have hfirst := unchanged_removeExpiredOf hw hlive q
    refine hfirst.trans (ih (evolution_removeExpiredOf q nowMs hw).1 fun k m hk => ?_)
    rw [hfirst.records] at hk
    exact hlive k m hk

/-- **An event that is no mutation of the partition leaves it.** -/
theorem unchanged_apply (hw : WellFormed store) {event : StoreEvent}
    (hwrites : event.writes p = false)
    (hdrops : ∀ (k : Key) (m : Mutation), (store.partition p).records[k]? = some m →
      event.drops k m = false) : Unchanged p store (store.apply event) := by
  cases event with
  | put key record =>
    have hne : key.partition ≠ p := by simpa [StoreEvent.writes] using hwrites
    exact .of_partition_eq (by rw [apply, put, partition_applyMutation, if_neg hne])
  | deleteAt key deletionTimeMs =>
    have hne : key.partition ≠ p := by simpa [StoreEvent.writes] using hwrites
    exact .of_partition_eq (by rw [apply, deleteAt, partition_applyMutation, if_neg hne])
  | getVersioned key nowMs =>
    simp only [apply, getVersioned]
    split
    · rename_i m hm
      split
      · rename_i hexpired
        have hne : key.partition ≠ p := by
          rintro rfl
          have hnot := hdrops key m hm
          simp [StoreEvent.drops, hexpired] at hnot
        exact (Unchanged.of_partition_eq (partition_expire_of_ne hne)).trans
          (unchanged_removePartitionIfEmpty _)
      · exact .refl store
    · exact .refl store
  | removeExpired nowMs => exact unchanged_removeExpired hw hdrops
  | enterWriter q =>
    have hpart : ((store.enterWriter q).partition p).records = (store.partition p).records ∧
        ((store.enterWriter q).partition p).changes = (store.partition p).changes := by
      rw [enterWriter, partition_modify, partition]
      split
      · cases store.cache[p]? <;> exact ⟨rfl, rfl⟩
      · exact ⟨rfl, rfl⟩
    exact ⟨hpart.1, Or.inr hpart.2⟩
  | removeEntry key nowMs =>
    refine .of_partition_eq ((partition_removeEntry key nowMs).trans (if_neg ?_))
    rintro ⟨rfl, hany⟩
    obtain ⟨m, hm, hexpired⟩ := (Option.any_eq_true _ _).mp hany
    have hnot := hdrops key m hm
    simp [StoreEvent.drops, hexpired] at hnot
  | dropWriter q =>
    obtain ⟨hrecords, hchanges, -⟩ := partition_dropWriter store q p
    exact ⟨hrecords, Or.inr hchanges⟩
  | removePartitionIfEmpty q => exact unchanged_removePartitionIfEmpty q

/-- Events that are no mutations of the partition leave it. -/
theorem Unmoved.foldl (hu : Unmoved p store (events ++ rest)) (hw : WellFormed store) :
    Unchanged p store (events.foldl RuntimeStore.apply store) ∧
      Unmoved p (events.foldl RuntimeStore.apply store) rest := by
  induction events generalizing store with
  | nil => exact ⟨.refl store, hu⟩
  | cons event events ih =>
    obtain ⟨hwrites, hdrops⟩ := hu event List.mem_cons_self
    have hfirst := unchanged_apply hw hwrites hdrops
    have hnext : Unmoved p store (events ++ rest) := fun e he => hu e (List.mem_cons_of_mem _ he)
    obtain ⟨hrest, hlast⟩ := ih (hnext.of_unchanged hfirst) (evolution_apply store event hw).1
    exact ⟨hfirst.trans hrest, hlast⟩

end RuntimeStore

namespace Worker

variable {me : Me} {p q : PartitionId} {h g : NodeId} {t t' : Tick} {st : SyncState} {c : ℕ}

/-- **Something is left of what a retry sends**: a record beyond the page
before the batch, or one that an entry of the journal after the confirmed
ones names. -/
def Left (s : PartitionStore) (st : SyncState) : Prop :=
  match st.phase with
  | .snapshot _ => ∃ k ∈ s.records, Map.After st.prevMaxKey k
  | .changes confirmedRevision _ => Unsent s confirmedRevision

theorem unsent_iff {store store' : RuntimeStore} (hu : store.Unchanged p store') :
    Unsent (store.partition p) c ↔ Unsent (store'.partition p) c := by
  refine ⟨fun hunsent => hunsent.keeps hu.keeps, ?_⟩
  rintro ⟨k, hk, r, hr, hentry⟩
  rw [hu.records] at hk
  rcases hu.changes with hnone | heq
  · rw [hnone] at hk
    exact absurd hk Std.ExtTreeMap.not_mem_empty
  · rw [heq] at hentry
    exact ⟨k, hk, r, hr, hentry⟩

theorem left_iff {store store' : RuntimeStore} (hu : store.Unchanged p store') :
    Left (store.partition p) st ↔ Left (store'.partition p) st := by
  unfold Left
  cases st.phase with
  | snapshot revision =>
    dsimp only
    rw [hu.records]
  | changes confirmed pending => exact unsent_iff hu

/-- What is scheduled leaves the partition as it is. -/
structure Calm (p : PartitionId) (t : Tick) : Prop where
  wellFormed : t.store.WellFormed
  unmoved : t.store.Unmoved p t.schedule.flatten

theorem Calm.interleave (hc : Calm p t) :
    t.store.Unchanged p t.interleave.store ∧ Calm p t.interleave := by
  have hw : t.interleave.store.WellFormed := (t.evolution_after 1 hc.wellFormed).1
  have hun := hc.unmoved
  change t.store.Unchanged p ((t.schedule.headD []).foldl RuntimeStore.apply t.store) ∧ _
  cases hs : t.schedule with
  | nil =>
    refine ⟨.refl _, hw, ?_⟩
    rw [Tick.interleave, hs]
    intro event he
    cases he
  | cons events rest =>
    rw [hs, List.flatten_cons] at hun
    obtain ⟨hunchanged, hrest⟩ := hun.foldl hc.wellFormed
    refine ⟨hunchanged, hw, ?_⟩
    rw [Tick.interleave, hs]
    exact hrest

theorem Calm.after (hc : Calm p t) (n : ℕ) :
    t.store.Unchanged p (t.after n).store ∧ Calm p (t.after n) := by
  induction n with
  | zero => exact ⟨.refl _, hc⟩
  | succ n ih =>
    rw [← Tick.after_after]
    obtain ⟨hfirst, hcalm⟩ := ih
    exact ⟨hfirst.trans hcalm.interleave.1, hcalm.interleave.2⟩

theorem Calm.keeps (hc : Calm p t) (n : ℕ) :
    (t.after n).store.Keeps p (t.after (n + 1)).store := by
  rw [← Tick.after_after]
  exact ((hc.after n).2.after 1).1.keeps

/-! ## Reading the batch again -/

/-- What `sync_batch` and `sync_change_batch` send: a batch if something
is left, and nothing otherwise. -/
structure Resent (p : PartitionId) (h : NodeId) (left : Prop) (t : Tick)
    (result : Option Key × Tick) : Prop where
  state : result.2.state = t.state
  found : result.1 ≠ none ↔ left
  sent : result.1 ≠ none → (batchesTo p h t.sent).length < (batchesTo p h result.2.sent).length
  silent : result.1 = none → result.2.sent = t.sent

theorem length_batchesTo_push (records : List (Key × Mutation))
    (reads : List (ℕ × Key × Option Mutation)) :
    (batchesTo p h t.sent).length <
      (batchesTo p h (t.pushBatch me p h records reads).sent).length := by
  have hpushed : batchesTo p h (t.pushBatch me p h records reads).sent =
      batchesTo p h t.sent ++ [batchOf p h records reads] := by
    rw [pushBatch_sent, batchesTo_append]
    simp [batchesTo, batchOf]
  rw [hpushed, List.length_append]
  exact Nat.lt_succ_self _

theorem resent_syncBatch (hc : Calm p t) (after : Option Key) :
    Resent p h (∃ k ∈ (t.store.partition p).records, Map.After after k) t
      (syncBatch me p h t after) := by
  have hsame : (t.after 1).records p = (t.store.partition p).records := (hc.after 1).1.records
  have hout := t.after_sent 1
  rcases syncBatch_spec me p h t after with ⟨hnil, heq⟩ | ⟨last, hlast, heq⟩
  · rw [heq]
    refine ⟨t.after_state 1, ⟨fun hne => absurd rfl hne, ?_⟩, fun hne => absurd rfl hne,
      fun _ => hout⟩
    rintro ⟨k, hk, hafter⟩
    obtain ⟨m, hm⟩ := Option.isSome_iff_exists.mp (Std.ExtTreeMap.mem_iff_isSome_getElem?.mp hk)
    rw [hsame] at hnil
    exact absurd hafter (Map.not_after_of_pageAfter_nil (by decide) hnil hm)
  · rw [heq]
    refine ⟨t.after_state 1, ⟨fun _ => ?_, fun _ => Option.some_ne_none _⟩, fun _ => ?_,
      fun hnone => by cases hnone⟩
    · obtain ⟨hstored, hafter⟩ := Map.mem_pageAfter (List.mem_of_getLast? hlast)
      refine ⟨last.1, ?_, hafter⟩
      rw [← hsame, Std.ExtTreeMap.mem_iff_isSome_getElem?, hstored]
      rfl
    · rw [← hout]
      exact length_batchesTo_push _ _

/-- A batch of changes is sent only where one is left. -/
theorem changeLoop_sent (fuel : ℕ) : ∀ (t : Tick) (cursor : ℕ)
    (reads : List (ℕ × Key × Option Mutation)), Calm p t →
    (changeLoop me p h fuel t cursor reads).1 ≠ none →
      Unsent (t.store.partition p) cursor ∧ (batchesTo p h t.sent).length <
        (batchesTo p h (changeLoop me p h fuel t cursor reads).2.sent).length := by
  induction fuel with
  | zero => exact fun t _ _ _ hne => absurd rfl hne
  | succ fuel ih =>
    intro t cursor reads hc hne
    have hout := t.after_sent 1
    obtain ⟨hunchanged, hcalm⟩ := hc.after 1
    rcases changeLoop_succ me p h t fuel cursor reads with
      ⟨-, heq⟩ | ⟨last, hpage, ⟨-, heq⟩ | ⟨key, hmax, heq⟩⟩
    · rw [heq] at hne
      exact absurd rfl hne
    · obtain ⟨hlt, -⟩ := last_journalPage hcalm.wellFormed hpage
      rw [heq] at hne ⊢
      obtain ⟨hunsent, hmore⟩ := ih _ _ _ hcalm hne
      obtain ⟨k, hk, r, hr, hentry⟩ := (unsent_iff hunchanged).mpr hunsent
      rw [hout] at hmore
      exact ⟨⟨k, hk, r, hlt.trans hr, hentry⟩, hmore⟩
    · rw [heq]
      refine ⟨(unsent_iff hunchanged).mpr ?_, ?_⟩
      · obtain ⟨e, he, -⟩ := List.mem_map.mp (List.max?_eq_some_iff.mp hmax).1
        obtain ⟨⟨r, hr⟩, hstored⟩ := Tick.mem_stored.mp he
        obtain ⟨hentry, hafter⟩ := Map.mem_pageAfter hr
        refine ⟨e.1, ?_, r, Map.after_some.mp hafter, hentry⟩
        rw [Std.ExtTreeMap.mem_iff_isSome_getElem?]
        exact Option.isSome_iff_exists.mpr ⟨e.2, hstored⟩
      · rw [← hout]
        exact length_batchesTo_push _ _

theorem resent_syncChangeBatch (hc : Calm p t) (c : ℕ) :
    Resent p h (Unsent (t.store.partition p) c) t
      ((syncChangeBatch me p h t c).1.map Prod.snd, (syncChangeBatch me p h t c).2) := by
  have hfinds : Unsent (t.store.partition p) c → (syncChangeBatch me p h t c).1 ≠ none :=
    fun hu => changeLoop_finds _ t c [] hc.wellFormed hc.keeps hu (by omega)
  have hsome : (syncChangeBatch me p h t c).1 ≠ none → Unsent (t.store.partition p) c ∧
      (batchesTo p h t.sent).length <
        (batchesTo p h (syncChangeBatch me p h t c).2.sent).length :=
    changeLoop_sent (t.finalRevision + 1) t c [] hc
  have hmap : (syncChangeBatch me p h t c).1.map Prod.snd = none ↔
      (syncChangeBatch me p h t c).1 = none := Option.map_eq_none_iff
  refine ⟨state_changeLoop _ t c [], ?_, fun hne => (hsome (mt hmap.mpr hne)).2,
    fun heq => sent_changeLoop_of_none _ t c [] (hmap.mp heq)⟩
  exact ⟨fun hne => (hsome (mt hmap.mpr hne)).1, fun hu => mt hmap.mp (hfinds hu)⟩

theorem resent_reread (hc : Calm p t) (st : SyncState) :
    Resent p h (Left (t.store.partition p) st) t (reread me p h st t) := by
  unfold Left reread
  cases st.phase with
  | snapshot revision => exact resent_syncBatch hc _
  | changes confirmed pending => exact resent_syncChangeBatch hc confirmed

/-- The batch has not been answered in time, read at `now`. -/
def TimedOut (st : SyncState) (now : ℕ) : Prop :=
  st.lastStartTime + syncTimeoutMs ≤ now ∧ now < 2 ^ 64

instance (st : SyncState) (now : ℕ) : Decidable (TimedOut st now) :=
  inferInstanceAs (Decidable (st.lastStartTime + syncTimeoutMs ≤ now ∧ now < 2 ^ 64))

theorem not_elapsed_of_timedOut {now : ℕ} (ht : TimedOut st now) :
    ¬ elapsed now st.lastStartTime < syncTimeoutMs := by
  obtain ⟨hle, hlt⟩ := ht
  have hwraps : now + 2 ^ 64 - st.lastStartTime = now - st.lastStartTime + 2 ^ 64 := by omega
  rw [elapsed, hwraps, Nat.add_mod_right, Nat.mod_eq_of_lt (by omega)]
  omega

/-- **What a retry does**: in time it sends a batch if something is left;
and if nothing is left, it does nothing at all. -/
theorem retryTimedOutSync_resends (hc : Calm p t) :
    (Left (t.store.partition p) st → t.clock ≠ [] → (∀ now ∈ t.clock, TimedOut st now) →
      (batchesTo p h t.sent).length <
        (batchesTo p h (retryTimedOutSync me p h t st).sent).length) ∧
    (¬ Left (t.store.partition p) st → (retryTimedOutSync me p h t st).sent = t.sent ∧
      (retryTimedOutSync me p h t st).state = t.state) := by
  have hcalm : Calm p (t.now.2.log (.timedOut p h st.phase (t.now.2.changes p))) :=
    ⟨hc.wellFormed, hc.unmoved⟩
  rw [retryTimedOutSync_eq]
  split
  · rename_i hearly
    refine ⟨fun _ hclock htimed => ?_, fun _ => ⟨rfl, rfl⟩⟩
    have hhead : t.now.1 ∈ t.clock := by
      rw [Tick.now]
      cases hcl : t.clock with
      | nil => exact absurd hcl hclock
      | cons now rest => exact List.mem_cons_self
    exact absurd hearly (not_elapsed_of_timedOut (htimed _ hhead))
  · have hr := @resent_reread me p h _ hcalm st
    generalize reread me p h st _ = read at hr
    obtain ⟨_ | key, t₁⟩ := read
    · exact ⟨fun hleft _ _ => absurd rfl (hr.found.mpr hleft), fun _ => ⟨hr.silent rfl, hr.state⟩⟩
    · exact ⟨fun _ _ _ => hr.sent (Option.some_ne_none key),
        fun hleft => absurd (hr.found.mp (Option.some_ne_none key)) hleft⟩

/-! ## The tick -/

/-- **A synchronisation that awaits an answer**, in the course of a tick
that has not sent it a batch nor completed it. -/
structure Pending (p : PartitionId) (h : NodeId) (st : SyncState) (left : Prop) (base : List Sent)
    (t : Tick) : Prop where
  calm : Calm p t
  connected : h ∈ t.state.nodes
  waits : t.syncState p h = some st
  silent : batchesTo p h t.sent = base
  uncompleted : (p, h) ∉ completions t.trace
  remains : Left (t.store.partition p) st ↔ left

variable {left : Prop} {base : List Sent}

/-- What passes leaves the partition as it is. -/
theorem Pending.passed (hp : Pending p h st left base t) {n : ℕ} (hpassed : Passed t t' n)
    (hnodes : t'.state.nodes = t.state.nodes) (hwaits : t'.syncState p h = some st)
    (hsilent : batchesTo p h t'.sent = base) : Pending p h st left base t' := by
  obtain ⟨hunchanged, hcalm⟩ := hp.calm.after n
  rw [← hpassed.store] at hunchanged
  refine ⟨⟨?_, ?_⟩, hnodes ▸ hp.connected, hwaits, hsilent, ?_, ?_⟩
  · rw [hpassed.store]
    exact hcalm.wellFormed
  · rw [hpassed.store, hpassed.schedule]
    exact hcalm.unmoved
  · rw [completions_of_grows hpassed.trace]
    exact hp.uncompleted
  · rw [← left_iff hunchanged]
    exact hp.remains

theorem bystander_pending (me : Me) (p : PartitionId) (h : NodeId) (st : SyncState) (left : Prop)
    (base : List Sent) : Bystander me p h (Pending p h st left base) where
  touch t q hp := ⟨⟨hp.calm.wellFormed, hp.calm.unmoved⟩, hp.connected,
    syncState_touch.trans hp.waits, hp.silent, hp.uncompleted, hp.remains⟩
  interleave t hp := hp.passed (passed_after t 1) rfl hp.waits hp.silent
  round t t' q g hne hf ha hp := by
    obtain ⟨n, hpassed⟩ := hf.passed
    have hother : ¬ (p = q ∧ h = g) := fun heq => hne ⟨heq.1.symm, heq.2.symm⟩
    exact hp.passed hpassed hf.nodes ((hf.others p h hother).trans hp.waits)
      ((ha.batchesTo_eq hne).trans hp.silent)
  record t q g records hne hp := by
    refine ⟨⟨hp.calm.wellFormed, hp.calm.unmoved⟩, ?_, ?_, hp.silent, fun hin => ?_, hp.remains⟩
    · unfold recordCompletedSync
      dsimp only
      split <;> exact hp.connected
    · rw [syncState_recordCompletedSync]
      exact hp.waits
    · exact hp.uncompleted ((mem_completions_record hne records).mp hin)
  leave t q hp := by
    refine ⟨⟨hp.calm.wellFormed, hp.calm.unmoved⟩, hp.connected, ?_, hp.silent, hp.uncompleted,
      hp.remains⟩
    rw [syncState_retainRecipients]
    split
    · rw [hp.waits]
      exact Option.filter_some_eq_some.mpr (decide_eq_true hp.connected)
    · exact hp.waits
  settle t q hq hp := by
    refine ⟨⟨hp.calm.wellFormed, hp.calm.unmoved⟩, hp.connected, ?_, hp.silent, hp.uncompleted,
      hp.remains⟩
    rw [syncState_retainRecipients, if_neg hq.symm]
    exact hp.waits
  prune t q through hq hp := by
    have hpart : (t.store.prunePartitionChanges q through).partition p = t.store.partition p := by
      rw [RuntimeStore.prunePartitionChanges, RuntimeStore.partition_modify, if_neg hq]
    have hunchanged : t.store.Unchanged p (t.store.prunePartitionChanges q through) :=
      .of_partition_eq hpart
    refine ⟨⟨RuntimeStore.wellFormed_prune hp.calm.wellFormed through,
      hp.calm.unmoved.of_unchanged hunchanged⟩, hp.connected, hp.waits, hp.silent, hp.uncompleted,
      ?_⟩
    rw [← left_iff hunchanged]
    exact hp.remains

/-- The round of a synchronisation that awaits an answer is a retry. -/
theorem Pending.syncRecipient_eq (hp : Pending p h st left base t) (hst : st.confirmed = false) :
    syncRecipient me p h t = retryTimedOutSync me p h (t.touch p) st := by
  have hround : syncPartitionToRecipient me p h (t.touch p) =
      (false, retryTimedOutSync me p h (t.touch p) st) := by
    rw [syncPartitionToRecipient, syncState_touch, hp.waits]
    simp [hst]
  rw [syncRecipient, hround]

/-- **Where nothing is left, the round changes nothing** for the
synchronisation. -/
theorem Pending.stuck (hp : Pending p h st left base t) (hst : st.confirmed = false)
    (hleft : ¬ left) : Pending p h st left base (syncRecipient me p h t) := by
  have hp₁ := (bystander_pending me p h st left base).touch t p hp
  obtain ⟨hsent, hstate⟩ := (@retryTimedOutSync_resends me p h _ st hp₁.calm).2
    (mt hp₁.remains.mp hleft)
  obtain ⟨n, hpassed⟩ := ((moving_frame me p h).retryTimedOutSync (t.touch p) st).passed
  rw [hp.syncRecipient_eq hst]
  refine hp₁.passed hpassed (by rw [hstate]) ((syncState_of_state hstate).trans hp₁.waits) ?_
  rw [hsent]
  exact hp₁.silent

/-- **Where something is left, the round sends a batch**, unless the clock
gives no reading. -/
theorem Pending.sends (hp : Pending p h st left base t) (hst : st.confirmed = false) (hleft : left)
    (htimed : ∀ now ∈ t.clock, TimedOut st now) :
    (syncRecipient me p h t).clock = [] ∨
      base.length < (batchesTo p h (syncRecipient me p h t).sent).length := by
  by_cases hclock : t.clock = []
  · have hsuffix := (adds_syncRecipient me p h t).clock
    rw [hclock, List.suffix_nil] at hsuffix
    exact Or.inl hsuffix
  · have hp₁ := (bystander_pending me p h st left base).touch t p hp
    have hmore := (@retryTimedOutSync_resends me p h _ st hp₁.calm).1 (hp₁.remains.mpr hleft) hclock
      htimed
    rw [hp₁.silent] at hmore
    rw [hp.syncRecipient_eq hst]
    exact Or.inr hmore

/-- The visit of the partition, where nothing is left. -/
theorem Pending.visit_stuck (hp : Pending p h st left base t) (hst : st.confirmed = false)
    (hleft : ¬ left) (ids : List NodeId) :
    batchesTo p h (syncPartition me p t ids).sent = base ∧
      (p, h) ∉ completions (syncPartition me p t ids).trace := by
  have hb := bystander_pending me p h st left base
  have hrounds : Pending p h st left base
      (rounds me p (retainRecipients p t fun id _ => id ∈ t.state.nodes) ids) := by
    refine run_keeps (fun t g hp => ?_) (hb.leave t p hp) ids
    by_cases hg : g = h
    · subst hg
      exact hp.stuck hst hleft
    · exact hb.syncRecipient (fun heq => hg heq.2) hp
  rw [(sent_syncPartition me p t ids).1, syncPartition_eq, trace_pruneChanges]
  exact ⟨hrounds.silent, hrounds.uncompleted⟩

/-- The visit of the partition, where something is left. -/
theorem Pending.visit_sends (hp : Pending p h st left base t) (hst : st.confirmed = false)
    (hleft : left) (htimed : ∀ now ∈ t.clock, TimedOut st now) {ids : List NodeId}
    (hnodup : ids.Nodup) (hh : h ∈ ids) :
    (syncPartition me p t ids).clock = [] ∨
      base.length < (batchesTo p h (syncPartition me p t ids).sent).length := by
  have hb := bystander_pending me p h st left base
  obtain ⟨hsent, hclock⟩ := sent_syncPartition me p t ids
  rw [hsent, hclock]
  refine run_once (I := fun t' => Pending p h st left base t' ∧ t'.clock <:+ t.clock)
    (J := fun t' : Tick => t'.clock = [] ∨ base.length < (batchesTo p h t'.sent).length)
    (fun t' g hg ht' => ?_) (fun t' ht' => ?_) (fun t' g _ ht' => ?_) hnodup hh
    ⟨hb.leave t p hp, List.suffix_refl _⟩
  · exact ⟨hb.syncRecipient (fun heq => hg heq.2) ht'.1,
      (adds_syncRecipient me p g t').clock.trans ht'.2⟩
  · exact ht'.1.sends hst hleft fun now hnow => htimed now (ht'.2.subset hnow)
  · have honward := (adds_syncRecipient me p g t').onward
    rcases ht' with hnil | hmore
    · have hsuffix := honward.clock
      rw [hnil, List.suffix_nil] at hsuffix
      exact Or.inl hsuffix
    · exact Or.inr (hmore.trans_le honward.batchesTo_length)

namespace World

variable {w : World} {env : Env}

theorem wellFormed_step (me : Me) {w : World} (hw : w.store.WellFormed) (a : Action) :
    (w.step me a).store.WellFormed := by
  have hreceived := wellFormed_receive me hw a
  rcases step_eq me w a with ⟨-, heq, -⟩ | ⟨env, -, heq, -⟩
  · rw [heq]
    exact hreceived
  · rw [heq]
    exact wellFormed_syncPartitions (t := (w.receive me a).ticking me env) hreceived env.order

theorem wellFormed_run (me : Me) (now : ℕ) (actions : List Action) :
    (run (step me) (start me now) actions).store.WellFormed :=
  run_keeps (I := fun w : World => w.store.WellFormed) (fun _ a hw => wellFormed_step me hw a)
    RuntimeStore.wellFormed_default actions

/-- **The tick moves a synchronisation on**: it sends the recipient a batch
of the partition, or completes it. -/
def MovesOn (me : Me) (w : World) (env : Env) (p : PartitionId) (h : NodeId) : Prop :=
  (batchesTo p h w.sent).length < (batchesTo p h (w.ticked me env).sent).length ∨
    (p, h) ∈ completions (w.ticked me env).trace

instance (me : Me) (w : World) (env : Env) (p : PartitionId) (h : NodeId) :
    Decidable (w.MovesOn me env p h) :=
  inferInstanceAs (Decidable ((batchesTo p h w.sent).length <
    (batchesTo p h (w.ticked me env).sent).length ∨ (p, h) ∈ completions (w.ticked me env).trace))

theorem pending_ticking (hw : w.store.WellFormed) (hh : h ∈ Ledger.recipientsOf me w.state p)
    (hst : w.syncState p h = some st) (hunmoved : w.store.Unmoved p env.schedule.flatten) :
    Pending p h st (Left (w.store.partition p) st) (batchesTo p h w.sent)
      (w.ticking me env) := by
  refine ⟨⟨hw, hunmoved⟩, mem_nodes_heartbeats.mpr (mem_nodes_of_recipient hh), ?_, rfl,
    List.not_mem_nil, Iff.rfl⟩
  change ((heartbeats w.state me env.heartbeatNow).1.sync[p]?.bind _) = some st
  rw [sync_heartbeats]
  exact hst

/-- **A tick from a state where nothing is left** to be sent again. -/
theorem stuck_ticked (hp : p.id < partitionsAmount) (hw : w.store.WellFormed)
    (hh : h ∈ Ledger.recipientsOf me w.state p) (hst : w.syncState p h = some st)
    (hunconfirmed : st.confirmed = false) (hunmoved : w.store.Unmoved p env.schedule.flatten)
    (hleft : ¬ Left (w.store.partition p) st) : ¬ w.MovesOn me env p h := by
  have hpending : Pending p h st (Left (w.store.partition p) st) (batchesTo p h w.sent)
      (w.ticking me env) := pending_ticking hw hh hst hunmoved
  have hb := bystander_pending me p h st (Left (w.store.partition p) st) (batchesTo p h w.sent)
  obtain ⟨hsent, huncompleted⟩ : batchesTo p h ((w.ticking me env).synced me env.order).sent =
      batchesTo p h w.sent ∧
      (p, h) ∉ completions ((w.ticking me env).synced me env.order).trace := by
    refine synced_once (J := fun t : Tick => batchesTo p h t.sent = batchesTo p h w.sent ∧
      (p, h) ∉ completions t.trace) hp (fun t q ids hq ht => hb.syncPartition hq ids ht)
      (fun t ht => ht.visit_stuck hunconfirmed hleft _) (fun t q ids hq ht => ⟨?_, fun hin => ?_⟩)
      hpending
    · exact (batchesTo_syncPartition (fun heq => hq heq.1) t).trans ht.1
    · rcases mem_completions_syncPartition hin with hbefore | ⟨heq, -⟩
      · exact ht.2 hbefore
      · exact hq heq.symm
  rintro (hmore | hin)
  · change _ < (batchesTo p h (removeCompletedSyncsAndObsoletePartitions me
      ((w.ticking me env).synced me env.order)).sent).length at hmore
    rw [(sent_removeCompletedSyncs me _).1, hsent] at hmore
    exact lt_irrefl _ hmore
  · change (p, h) ∈ completions (removeCompletedSyncsAndObsoletePartitions me
      ((w.ticking me env).synced me env.order)).trace at hin
    rw [completions_removeCompletedSyncs] at hin
    exact huncompleted hin

/-- **A tick from a state where something is left** to be sent again. -/
theorem sends_ticked (hp : p.id < partitionsAmount) (hw : w.store.WellFormed)
    (hh : h ∈ Ledger.recipientsOf me w.state p) (hst : w.syncState p h = some st)
    (hunconfirmed : st.confirmed = false) (hunmoved : w.store.Unmoved p env.schedule.flatten)
    (htimed : ∀ now ∈ env.clock, TimedOut st now) (hread : (w.ticked me env).clock ≠ [])
    (hleft : Left (w.store.partition p) st) : w.MovesOn me env p h := by
  have hpending : Pending p h st (Left (w.store.partition p) st) (batchesTo p h w.sent)
      (w.ticking me env) := pending_ticking hw hh hst hunmoved
  have hb := bystander_pending me p h st (Left (w.store.partition p) st) (batchesTo p h w.sent)
  have hsynced : ((w.ticking me env).synced me env.order).clock = [] ∨
      (batchesTo p h w.sent).length <
        (batchesTo p h ((w.ticking me env).synced me env.order).sent).length := by
    refine synced_once (I := fun t => Pending p h st (Left (w.store.partition p) st)
        (batchesTo p h w.sent) t ∧ Announced me (w.ticking me env) t ∧ t.clock <:+ env.clock)
      (J := fun t : Tick => t.clock = [] ∨
        (batchesTo p h w.sent).length < (batchesTo p h t.sent).length) hp
      (fun t q ids hq ht => ⟨hb.syncPartition hq ids ht.1, ht.2.1.syncPartition q ids,
        (onward_syncPartition me q t ids).clock.trans ht.2.2⟩)
      (fun t ht => ?_) (fun t q ids _ ht => ?_)
      ⟨hpending, announced_ticking w me env, List.suffix_refl _⟩
    · refine ht.1.visit_sends hunconfirmed hleft (fun now hnow => htimed now (ht.2.2.subset hnow))
        (env.order.nodup_toList _) ?_
      rw [env.order.mem_toList, recipients, ht.2.1.fixed.partitions, ht.2.1.fixed.nodes]
      rw [← recipients_heartbeats w.state env.heartbeatNow p] at hh
      exact hh
    · have honward := onward_syncPartition me q t ids
      rcases ht with hnil | hmore
      · have hsuffix := honward.clock
        rw [hnil, List.suffix_nil] at hsuffix
        exact Or.inl hsuffix
      · exact Or.inr (hmore.trans_le honward.batchesTo_length)
  obtain ⟨hsent, hclock⟩ := sent_removeCompletedSyncs me ((w.ticking me env).synced me env.order)
  rcases hsynced with hnil | hmore
  · exact absurd (hclock.trans hnil) hread
  · refine Or.inl ?_
    change _ < (batchesTo p h (removeCompletedSyncsAndObsoletePartitions me
      ((w.ticking me env).synced me env.order)).sent).length
    rw [hsent]
    exact hmore

/-- **A timed-out synchronisation is moved on exactly if something is left
to be sent again.** In every state a run can reach: the recipient is one
of the partition's, its batch is unanswered and every reading of the clock
lies beyond the timeout, and no mutation of the partition is in flight. -/
theorem retry_moves_on_iff (me : Me) (now : ℕ) (actions : List Action) (env : Env)
    (p : PartitionId) (h : NodeId) (st : SyncState) (hp : p.id < partitionsAmount)
    (hh : h ∈ Ledger.recipientsOf me (run (step me) (start me now) actions).state p)
    (hst : (run (step me) (start me now) actions).syncState p h = some st)
    (hunconfirmed : st.confirmed = false) (htimed : ∀ now ∈ env.clock, TimedOut st now)
    (hread : ((run (step me) (start me now) actions).ticked me env).clock ≠ [])
    (hunmoved : (run (step me) (start me now) actions).store.Unmoved p env.schedule.flatten) :
    (run (step me) (start me now) actions).MovesOn me env p h ↔
      Left ((run (step me) (start me now) actions).store.partition p) st := by
  have hw := wellFormed_run me now actions
  constructor
  · intro hmoves
    by_contra hleft
    exact stuck_ticked hp hw hh hst hunconfirmed hunmoved hleft hmoves
  · exact sends_ticked hp hw hh hst hunconfirmed hunmoved htimed hread

/-- A tick a minute after the start. -/
def aMinuteLater : Env := ⟨.ascending, [], [60000, 60000, 60000], 60000, 60000⟩

theorem retry_moves_on_lost :
    (run (step sender) (start sender 0) handoverStarts).MovesOn sender aMinuteLater ⟨0⟩ ⟨2⟩ := by
  have hrun : run (step sender) (start sender 0) handoverStarts =
      run (firstStep sender) (start sender 0) handoverStarts := run_of_first (by decide +kernel)
  refine (retry_moves_on_iff sender 0 handoverStarts aMinuteLater ⟨0⟩ ⟨2⟩
    ⟨none, ⟨0⟩, .snapshot 1, false, 0⟩ partitionsAmount_pos ?_ ?_ rfl ?_ ?_
    fun event he => by cases he).mpr ?_
  · rw [hrun]
    decide +kernel
  · rw [hrun]
    decide +kernel
  · decide
  · rw [hrun, ticked_eq_firstTick (by decide +kernel)]
    decide +kernel
  · rw [hrun]
    exact ⟨⟨0⟩, by decide +kernel, Map.after_none _⟩

/-- The one record of the first batch is to expire at time 100, and the
batch is lost. -/
def expiring : List Action :=
  [.store (.put ⟨0⟩ ⟨100, 1, [1]⟩),
    .message (.newConnection (some ⟨2⟩) "worker-2" 9002 false) (during []),
    .message (.clusterState ⟨1, ⟨9⟩, [], handover⟩) (during []), .store (.removeExpired 200)]

/-- **A lost batch whose records have expired is never made up for.** The
recipient is connected and awaited, the timeout has passed and nothing of
the partition is in flight; the tick sends nothing and completes nothing,
and leaves the synchronisation as it was. -/
theorem expired_batch_is_stuck :
    (⟨2⟩ : NodeId) ∈ Ledger.recipientsOf sender
      (run (step sender) (start sender 0) expiring).state ⟨0⟩ ∧
    (run (step sender) (start sender 0) expiring).syncState ⟨0⟩ ⟨2⟩ =
      some ⟨none, ⟨0⟩, .snapshot 1, false, 0⟩ ∧
    ((run (step sender) (start sender 0) expiring).ticked sender aMinuteLater).clock ≠ [] ∧
    ¬ (run (step sender) (start sender 0) expiring).MovesOn sender aMinuteLater ⟨0⟩ ⟨2⟩ ∧
    ((run (step sender) (start sender 0) expiring).step sender (.tick aMinuteLater)).syncState ⟨0⟩
      ⟨2⟩ = some ⟨none, ⟨0⟩, .snapshot 1, false, 0⟩ := by
  have hw := wellFormed_run sender 0 expiring
  have hrun : run (step sender) (start sender 0) expiring =
      run (firstStep sender) (start sender 0) expiring := run_of_first (by decide +kernel)
  have honly : OnlyFirst sender (run (firstStep sender) (start sender 0) expiring)
      (.tick aMinuteLater) := by decide +kernel
  rw [hrun] at hw ⊢
  have hh : (⟨2⟩ : NodeId) ∈ Ledger.recipientsOf sender
      (run (firstStep sender) (start sender 0) expiring).state ⟨0⟩ := by decide +kernel
  have hst : (run (firstStep sender) (start sender 0) expiring).syncState ⟨0⟩ ⟨2⟩ =
      some ⟨none, ⟨0⟩, .snapshot 1, false, 0⟩ := by decide +kernel
  have hempty : ((run (firstStep sender) (start sender 0) expiring).store.partition
      ⟨0⟩).records.keys = [] := by decide +kernel
  refine ⟨hh, hst, ?_, ?_, ?_⟩
  · have hticked : (run (firstStep sender) (start sender 0) expiring).ticked sender aMinuteLater =
        (run (firstStep sender) (start sender 0) expiring).firstTick sender aMinuteLater :=
      ticked_eq_firstTick (honly _ rfl)
    rw [hticked]
    decide +kernel
  · refine stuck_ticked partitionsAmount_pos hw hh hst rfl (fun event he => by cases he) ?_
    rintro ⟨k, hk, -⟩
    rw [← Std.ExtTreeMap.mem_keys, hempty] at hk
    cases hk
  · rw [(step_eq_firstStep honly).1]
    decide +kernel

end World

end Worker

end NoSqlStore
