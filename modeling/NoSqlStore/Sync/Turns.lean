import NoSqlStore.Sync.Answers
import NoSqlStore.Sync.Memory
import NoSqlStore.Sync.Retry
/-!
# What a batch follows on

A batch continues a synchronisation from where it stands: `Follows` says
which page was read for it and how far the page moves the synchronisation.
`Turn` sums up a round for one recipient, whatever has happened to the
store and whichever answers have come before: it waits, or it completes,
or it sends a batch that follows on, whose answer carries the key the
round has noted. So the batch sent last is the one that is awaited, in
every run (`awaited_run`), and between two ticks nothing is confirmed
(`unconfirmed_run`).
-/

namespace NoSqlStore

open Runs

namespace Worker

variable {me : Me} {p q : PartitionId} {h g : NodeId} {t t' : Tick} {n : ℕ}

/-- **A synchronisation goes on from where it stands**, by the first page
of the records, the page after a confirmed one, a page of the journal, or
a page that is read again. -/
inductive Follows (s : PartitionStore) : Option SyncState → SyncState → Prop
  | opens {last : Key × Mutation} {revision now : ℕ}
      (hlast : (s.records.pageAfter none syncBatchSize).getLast? = some last) :
      Follows s none ⟨none, last.1, .snapshot revision, false, now⟩
  | pages {st : SyncState} {last : Key × Mutation} {revision now : ℕ}
      (hconfirmed : st.confirmed = true) (hphase : st.phase = .snapshot revision)
      (hlast : (s.records.pageAfter (some st.currMaxKey) syncBatchSize).getLast? = some last) :
      Follows s (some st) ⟨some st.currMaxKey, last.1, .snapshot revision, false, now⟩
  | changes {st : SyncState} {last : ℕ × Key} {key : Key} {cursor now : ℕ}
      (hconfirmed : st.confirmed = true) (hcursor : st.phase.pendingRevision ≤ cursor)
      (hlast : (s.changes.pageAfter (some cursor) syncBatchSize).getLast? = some last) :
      Follows s (some st) ⟨none, key, .changes st.phase.pendingRevision last.1, false, now⟩
  | pagesAgain {st : SyncState} {last : Key × Mutation} {revision now : ℕ}
      (hconfirmed : st.confirmed = false) (hphase : st.phase = .snapshot revision)
      (hlast : (s.records.pageAfter st.prevMaxKey syncBatchSize).getLast? = some last) :
      Follows s (some st) ⟨st.prevMaxKey, last.1, .snapshot revision, false, now⟩
  | changesAgain {st : SyncState} {key : Key} {confirmedRevision pendingRevision now : ℕ}
      (hconfirmed : st.confirmed = false)
      (hphase : st.phase = .changes confirmedRevision pendingRevision) :
      Follows s (some st)
        ⟨st.prevMaxKey, key, .changes confirmedRevision pendingRevision, false, now⟩

theorem Follows.unconfirmed {s : PartitionStore} {o : Option SyncState} {st : SyncState}
    (hf : Follows s o st) : st.confirmed = false := by
  cases hf <;> rfl

/-- A batch has gone out after `n` slots of the schedule, and its answer
carries the key. -/
structure Posted (p : PartitionId) (h : NodeId) (key : Key) (n : ℕ) (t t' : Tick) : Prop where
  store : t'.store = (t.after n).store
  sent : ∃ b, t'.sent = t.sent ++ [b] ∧ (b.partition = p ∧ b.recipient = h) ∧
    (maxAppliedKeys b.records)[p]? = some key

/-- **What a round for a recipient can do**, and whether it reports
completion. -/
inductive Turn (p : PartitionId) (h : NodeId) (t t' : Tick) : Bool → Prop
  /-- Nothing goes out: there is nothing to send yet, the answer is awaited,
  or a writer was found at work on the partition. -/
  | waits (hsync : t'.syncState p h = t.syncState p h) (hsent : t'.sent = t.sent)
      (hwhy : ∀ st, t.syncState p h = some st → st.confirmed = true →
        ∃ n, (t.after n).store.stablePartitionRevision p = none) : Turn p h t t' false
  | completes (hsync : (t'.syncState p h).map SyncState.currMaxKey =
        (t.syncState p h).map SyncState.currMaxKey) (hsent : t'.sent = t.sent) : Turn p h t t' true
  | posts (n : ℕ) (st : SyncState) (hsync : t'.syncState p h = some st)
      (hposted : Posted p h st.currMaxKey n t t')
      (hfollows : Follows ((t.after n).store.partition p) (t.syncState p h) st) :
      Turn p h t t' false

/-! ## Reading and sending -/

theorem posted_pushBatch {records : List (Key × Mutation)}
    {reads : List (ℕ × Key × Option Mutation)} {key : Key}
    (hproper : (batchOf p h records reads).Proper)
    (hmax : (records.map Prod.fst).max? = some key) :
    Posted p h key n t ((t.after n).pushBatch me p h records reads) := by
  refine ⟨rfl, batchOf p h records reads, ?_, ⟨rfl, rfl⟩, maxAppliedKeys_batchOf hproper hmax⟩
  rw [pushBatch_sent, Tick.after_sent]

/-- The greatest key of a page is its last. -/
theorem posted_page {after : Option Key} {last : Key × Mutation}
    (hw : (t.after n).store.WellFormed)
    (hlast : (((t.after n).records p).pageAfter after syncBatchSize).getLast? = some last) :
    Posted p h last.1 n t
      ((t.after n).pushBatch me p h (((t.after n).records p).pageAfter after syncBatchSize)
        []) := by
  refine posted_pushBatch (proper_page hw after)
    (List.max?_eq_some_iff.mpr ⟨?_, fun key hkey => ?_⟩)
  · exact List.mem_map.mpr ⟨last, List.mem_of_getLast? hlast, rfl⟩
  · obtain ⟨e, he, rfl⟩ := List.mem_map.mp hkey
    exact Map.le_last_of_mem_pageAfter hlast he

/-- The loop over the journal finds nothing to send, or sends a page at
or after the cursor. -/
theorem posts_changeLoop (fuel : ℕ) : ∀ (t : Tick) (cursor : ℕ)
    (reads : List (ℕ × Key × Option Mutation)), t.store.WellFormed →
    (∃ n, changeLoop me p h fuel t cursor reads = (none, t.after n)) ∨
    ∃ n c last key t', cursor ≤ c ∧
      (((t.after n).store.partition p).changes.pageAfter (some c) syncBatchSize).getLast? =
        some last ∧
      Posted p h key n t t' ∧
      changeLoop me p h fuel t cursor reads = (some (last.1, key), t') := by
  induction fuel with
  | zero => exact fun t _ _ _ => Or.inl ⟨0, rfl⟩
  | succ fuel ih =>
    intro t cursor reads hw
    have hw₁ := (t.evolution_after 1 hw).1
    rcases changeLoop_succ me p h t fuel cursor reads with
      ⟨-, heq⟩ | ⟨last, hpage, ⟨-, heq⟩ | ⟨key, hmax, heq⟩⟩
    · exact Or.inl ⟨1, heq⟩
    · -- the page is skipped, and the loop goes on after it
      obtain ⟨hlt, -⟩ := last_journalPage hw₁ hpage
      rw [heq]
      rcases ih (t.after 1) last.1
        (reads ++ (t.after 1).seen p ((t.after 1).journalPage p cursor)) hw₁ with
        ⟨n, hrest⟩ | ⟨n, c, last', key, t', hc, hlast, ⟨hstore, hsent⟩, hrest⟩
      · exact Or.inl ⟨1 + n, by rw [hrest, Tick.after_after]⟩
      · rw [Tick.after_after] at hstore hlast
        rw [Tick.after_sent] at hsent
        exact Or.inr ⟨1 + n, c, last', key, t', hlt.le.trans hc, hlast, ⟨hstore, hsent⟩, hrest⟩
    · have hproper : (batchOf p h ((t.after 1).stored p ((t.after 1).journalPage p cursor))
          (reads ++ (t.after 1).seen p ((t.after 1).journalPage p cursor))).Proper :=
        proper_batchOf hw₁ fun e he => (Tick.mem_stored.mp he).2
      exact Or.inr ⟨1, cursor, last, key, _, le_rfl, hpage, posted_pushBatch hproper hmax,
        heq⟩

/-- A batch that is sent is noted with the time. -/
theorem Turn.note {t₁ : Tick} {st : SyncState} (hposted : Posted p h st.currMaxKey n t t₁)
    (hfollows : Follows ((t.after n).store.partition p) (t.syncState p h) st) :
    Turn p h t (t₁.now.2.setSyncState p h st) false :=
  .posts n st syncState_setSyncState_self ⟨hposted.store, hposted.sent⟩ hfollows

/-! ## The rounds -/

/-- The first batch, if there is anything to send. -/
theorem turn_startSync (hw : t.store.WellFormed) (hst : t.syncState p h = none) :
    Turn p h t (startSync me p h t).2 (startSync me p h t).1 := by
  have hw₁ := (t.evolution_after 2 hw).1
  have hnone : ∀ n, (t.after n).syncState p h = none := fun n =>
    (Tick.syncState_after t n).trans hst
  have hwaits : ∀ n, Turn p h t (t.after n) false := fun n =>
    .waits (Tick.syncState_after t n) (Tick.after_sent t n) fun st hsome => by
      rw [hst] at hsome
      cases hsome
  unfold startSync
  simp only [Tick.interleave_eq_after]
  cases (t.after 1).store.stablePartitionRevision p with
  | none => exact hwaits 1
  | some revision =>
    dsimp only
    rcases syncBatch_spec me p h (t.after 1) none with ⟨-, heq⟩ | ⟨last, hlast, heq⟩
    · rw [heq]
      simp only [Tick.after_after]
      cases decide (((t.after (1 + (1 + 1))).store.stablePartitionRevision p) = some revision) with
      | false => exact hwaits _
      | true =>
        refine .completes ?_ (Tick.after_sent t _)
        rw [hnone, hst]
    · rw [heq]
      simp only [Tick.after_after] at hlast ⊢
      refine Turn.note (n := 1 + 1) (posted_page hw₁ hlast) ?_
      rw [hst]
      exact .opens hlast

/-- The journal from `st.phase.pendingRevision` on. -/
theorem turn_continueChanges (hw : t.store.WellFormed) {st : SyncState}
    (hst : t.syncState p h = some st) (hconfirmed : st.confirmed = true) (k : ℕ) :
    Turn p h t (continueChanges me p h (t.after k) st st.phase.pendingRevision).2
      (continueChanges me p h (t.after k) st st.phase.pendingRevision).1 := by
  unfold continueChanges syncChangeBatch
  rcases @posts_changeLoop me p h ((t.after k).finalRevision + 1) (t.after k)
    st.phase.pendingRevision [] (t.evolution_after k hw).1 with
    ⟨n, heq⟩ | ⟨n, c, last, key, t', hc, hlast, ⟨hstore, hsent⟩, heq⟩
  · rw [heq]
    dsimp only
    generalize hevent : Trace.gap p _ = event
    have hstore : (((t.after k).after n).log event).interleave.store =
        (t.after (k + n + 1)).store := by
      rw [Tick.after_after, ← Tick.after_after t (k + n) 1]
      rfl
    rw [hstore]
    cases hstable : (t.after (k + n + 1)).store.stablePartitionRevision p with
    | none =>
      refine .waits ?_ ?_ fun _ _ _ => ⟨k + n + 1, hstable⟩
      · exact (Tick.syncState_after _ n).trans (Tick.syncState_after t k)
      · exact (Tick.after_sent _ n).trans (Tick.after_sent t k)
    | some revision =>
      refine .completes ?_ ?_
      · rw [syncState_setSyncState_self, hst]
        rfl
      · exact (Tick.after_sent _ n).trans (Tick.after_sent t k)
  · rw [heq]
    rw [Tick.after_after] at hstore hlast
    rw [Tick.after_sent] at hsent
    refine Turn.note (n := k + n) ⟨hstore, hsent⟩ ?_
    rw [hst]
    exact .changes hconfirmed hc hlast

theorem turn_continueConfirmedSync (hw : t.store.WellFormed) {st : SyncState}
    (hst : t.syncState p h = some st) (hconfirmed : st.confirmed = true) :
    Turn p h t (continueConfirmedSync me p h t st).2 (continueConfirmedSync me p h t st).1 := by
  have hchanges : ∀ k, Turn p h t
      (continueChanges me p h (t.after k) st st.phase.pendingRevision).2
      (continueChanges me p h (t.after k) st st.phase.pendingRevision).1 :=
    turn_continueChanges hw hst hconfirmed
  unfold continueConfirmedSync
  cases hphase : st.phase with
  | changes confirmed pending =>
    rw [hphase] at hchanges
    exact hchanges 0
  | snapshot revision =>
    rw [hphase] at hchanges
    dsimp only
    rcases syncBatch_spec me p h t (some st.currMaxKey) with ⟨-, heq⟩ | ⟨last, hlast, heq⟩
    · rw [heq]
      exact hchanges 1
    · rw [heq]
      refine Turn.note (n := 1) (posted_page (t.evolution_after 1 hw).1 hlast) ?_
      rw [hst]
      exact .pages hconfirmed hphase hlast

theorem turn_retryTimedOutSync (hw : t.store.WellFormed) {st : SyncState}
    (hst : t.syncState p h = some st) (hconfirmed : st.confirmed = false) :
    Turn p h t (retryTimedOutSync me p h t st) false := by
  have hwhy : ∀ st', t.syncState p h = some st' → st'.confirmed = true →
      ∃ n, (t.after n).store.stablePartitionRevision p = none := by
    intro st' hst' hc
    rw [hst, Option.some_inj] at hst'
    rw [← hst', hconfirmed] at hc
    cases hc
  rw [retryTimedOutSync_eq]
  split
  · exact .waits rfl rfl hwhy
  · -- the time-out is read off the clock and noted, and the store is as it was
    generalize ht₁ : t.now.2.log _ = t₁
    have hsame : t₁.sent = t.sent ∧ t₁.syncState p h = t.syncState p h := by
      subst ht₁
      exact ⟨rfl, rfl⟩
    have hafter : ∀ n, (t₁.after n).store = (t.after n).store := by
      subst ht₁
      intro n
      refine (after_congr ?_ ?_ n).1
      · rfl
      · rfl
    have hw₁ : t₁.store.WellFormed := by
      rw [show t₁.store = t.store from hafter 0]
      exact hw
    have hquiet : ∀ n, Turn p h t (t₁.after n) false := fun n =>
      .waits ((Tick.syncState_after t₁ n).trans hsame.2) ((Tick.after_sent t₁ n).trans hsame.1) hwhy
    unfold reread
    cases hphase : st.phase with
    | snapshot revision =>
      dsimp only
      rcases syncBatch_spec me p h t₁ st.prevMaxKey with ⟨-, heq⟩ | ⟨last, hlast, heq⟩
      · rw [heq]
        exact hquiet 1
      · rw [heq]
        obtain ⟨hstore, hsent⟩ : Posted p h last.1 1 t₁ ((t₁.after 1).pushBatch me p h
            (((t₁.after 1).records p).pageAfter st.prevMaxKey syncBatchSize) []) :=
          posted_page (t₁.evolution_after 1 hw₁).1 hlast
        rw [hafter] at hstore
        rw [hsame.1] at hsent
        rw [Tick.records, hafter] at hlast
        refine Turn.note (n := 1) ⟨hstore, hsent⟩ ?_
        rw [hst, hphase]
        exact .pagesAgain hconfirmed hphase hlast
    | changes confirmedRevision pendingRevision =>
      dsimp only
      unfold syncChangeBatch
      rcases @posts_changeLoop me p h (t₁.finalRevision + 1) t₁ confirmedRevision [] hw₁ with
        ⟨n, heq⟩ | ⟨n, c, last, key, t', -, -, ⟨hstore, hsent⟩, heq⟩
      · rw [heq]
        exact hquiet n
      · rw [heq]
        rw [hafter] at hstore
        rw [hsame.1] at hsent
        refine Turn.note (n := n) ⟨hstore, hsent⟩ ?_
        rw [hst, hphase]
        exact .changesAgain hconfirmed hphase

/-- **What a round can do.** -/
theorem turn_round (hw : t.store.WellFormed) :
    Turn p h t (syncPartitionToRecipient me p h t).2 (syncPartitionToRecipient me p h t).1 := by
  unfold syncPartitionToRecipient
  cases hst : t.syncState p h with
  | none => exact turn_startSync hw hst
  | some st =>
    dsimp only
    split
    · rename_i hconfirmed
      exact turn_continueConfirmedSync hw hst hconfirmed
    · rename_i hunconfirmed
      exact turn_retryTimedOutSync hw hst (Bool.not_eq_true _ ▸ hunconfirmed)

/-! ## The batch that is awaited -/

/-- The answer to the batch sent last carries the key that is noted. -/
def AwaitsLast (p : PartitionId) (h : NodeId) (o : Option SyncState) (sent : List Sent) : Prop :=
  ∀ st, o = some st → ∃ b i, lastSent sent p h = some (b, i) ∧
    (maxAppliedKeys b.records)[p]? = some st.currMaxKey

theorem AwaitsLast.subset {o o' : Option SyncState} {sent : List Sent}
    (ha : AwaitsLast p h o sent) (hsub : ∀ st, o' = some st → o = some st) :
    AwaitsLast p h o' sent := fun st hst => ha st (hsub st hst)

theorem AwaitsLast.of_key {o o' : Option SyncState} {sent : List Sent}
    (ha : AwaitsLast p h o sent)
    (hkey : o'.map SyncState.currMaxKey = o.map SyncState.currMaxKey) :
    AwaitsLast p h o' sent := by
  rintro st rfl
  obtain ⟨st', rfl, heq⟩ := Option.map_eq_some_iff.mp hkey.symm
  rw [← heq]
  exact ha st' rfl

/-- A round leaves its last batch awaited. -/
theorem Turn.awaitsLast {result : Bool} (ht : Turn p h t t' result)
    (ha : AwaitsLast p h (t.syncState p h) t.sent) :
    AwaitsLast p h (t'.syncState p h) t'.sent := by
  cases ht with
  | waits hsync hsent hwhy =>
    rw [hsync, hsent]
    exact ha
  | completes hsync hsent =>
    rw [hsent]
    exact ha.of_key hsync
  | posts n st hsync hposted hfollows =>
    obtain ⟨b, hsent, hb, hanswer⟩ := hposted.sent
    intro st' hst'
    rw [hsync, Option.some_inj] at hst'
    subst hst'
    refine ⟨b, t.sent.length, ?_, hanswer⟩
    rw [hsent, lastSent_append, if_pos hb]

/-- The batches of other recipients are none of this one's. -/
theorem Adds.lastSent_eq (ha : Adds q g t t') (hne : ¬ (q = p ∧ g = h)) :
    lastSent t'.sent p h = lastSent t.sent p h := by
  obtain ⟨bs, hsent, hbs⟩ := ha.sent
  rw [hsent]
  clear hsent
  induction bs using List.reverseRecOn with
  | nil => rw [List.append_nil]
  | append_singleton bs b ih =>
    rw [← List.append_assoc, lastSent_append_of_ne (hbs b (by simp)) fun heq => hne
      ⟨heq.1.symm, heq.2.symm⟩]
    exact ih fun b' hb' => hbs b' (List.mem_append_left _ hb')

/-- In the course of a tick. -/
structure Awaits (p : PartitionId) (h : NodeId) (t : Tick) : Prop where
  wellFormed : t.store.WellFormed
  awaits : AwaitsLast p h (t.syncState p h) t.sent

theorem bystander_awaits (me : Me) (p : PartitionId) (h : NodeId) :
    Bystander me p h (Awaits p h) where
  touch t q ha := ⟨ha.wellFormed, by rw [syncState_touch]; exact ha.awaits⟩
  interleave t ha := ⟨(t.evolution_after 1 ha.wellFormed).1, ha.awaits⟩
  round t t' q g hne hf hadds ha := by
    obtain ⟨n, hpassed⟩ := hf.passed
    have hother : ¬ (p = q ∧ h = g) := fun heq => hne ⟨heq.1.symm, heq.2.symm⟩
    refine ⟨(hpassed.evolution ha.wellFormed).1, fun st hst => ?_⟩
    rw [hadds.lastSent_eq hne]
    exact ha.awaits st ((hf.others p h hother).symm.trans hst)
  record t q g records _ ha := by
    refine ⟨ha.wellFormed, ?_⟩
    rw [syncState_recordCompletedSync]
    exact ha.awaits
  leave t q ha := by
    refine ⟨ha.wellFormed, ha.awaits.subset fun st hst => ?_⟩
    rw [syncState_retainRecipients] at hst
    split at hst
    · exact (Option.filter_eq_some_iff.mp hst).1
    · exact hst
  settle t q hq ha := by
    refine ⟨ha.wellFormed, ?_⟩
    rw [syncState_retainRecipients, if_neg hq.symm]
    exact ha.awaits
  prune t q through _ ha := ⟨RuntimeStore.wellFormed_prune ha.wellFormed through, ha.awaits⟩

theorem Awaits.syncRecipient (ha : Awaits p h t) (me : Me) (q : PartitionId) (g : NodeId) :
    Awaits p h (syncRecipient me q g t) := by
  by_cases heq : q = p ∧ g = h
  · obtain ⟨rfl, rfl⟩ := heq
    have ha₁ := (bystander_awaits me q g).touch t q ha
    have hturn := (@turn_round me q g (t.touch q) ha₁.wellFormed).awaitsLast ha₁.awaits
    refine ⟨wellFormed_syncRecipient me q g ha.wellFormed, ?_⟩
    unfold Worker.syncRecipient
    generalize syncPartitionToRecipient me q g (t.touch q) = result at hturn
    obtain ⟨_ | _, t₁⟩ := result
    · exact hturn
    · rw [syncState_recordCompletedSync]
      exact hturn
  · exact (bystander_awaits me p h).syncRecipient heq ha

theorem Awaits.syncPartition (ha : Awaits p h t) (me : Me) (q : PartitionId) (ids : List NodeId) :
    Awaits p h (syncPartition me q t ids) := by
  have hb := bystander_awaits me p h
  have hrounds :
      Awaits p h (rounds me q (retainRecipients q t fun id _ => id ∈ t.state.nodes) ids) :=
    run_keeps (fun t g ha => ha.syncRecipient me q g) (hb.leave t q ha) ids
  refine ⟨wellFormed_syncPartition me q ha.wellFormed ids, ?_⟩
  rw [(sent_syncPartition me q t ids).1, syncPartition_eq, Tick.syncState, state_pruneChanges]
  refine hrounds.awaits.subset fun st hst => ?_
  change (retainRecipients q _ _).syncState p h = some st at hst
  rw [syncState_retainRecipients] at hst
  split at hst
  · exact (Option.filter_eq_some_iff.mp hst).1
  · exact hst

/-- No state appears in the loop. -/
theorem syncState_removeCompletedSyncs {st : SyncState}
    (hst : (removeCompletedSyncsAndObsoletePartitions me t).syncState p h = some st) :
    t.syncState p h = some st := by
  have hloop : ∀ (l : List (PartitionId × Map NodeId SyncState)) (t : Tick),
      (l.foldl (removeCompletedSync me) t).syncState p h = some st → t.syncState p h = some st := by
    intro l
    induction l with
    | nil => exact fun t hst => hst
    | cons e l ih => exact fun t hst => syncState_removeCompletedSync (ih _ hst)
  exact hloop _ t hst

theorem Awaits.syncPartitions (ha : Awaits p h t) (me : Me) (order : Enumeration) :
    AwaitsLast p h ((syncPartitions me order t).syncState p h)
      (syncPartitions me order t).sent := by
  have hsynced : Awaits p h (t.synced me order) :=
    run_keeps (fun t i ha => ha.syncPartition me ⟨i⟩ _) ha (List.range partitionsAmount)
  rw [syncPartitions_eq, (sent_removeCompletedSyncs me _).1]
  exact hsynced.awaits.subset fun st hst => syncState_removeCompletedSyncs hst

/-! ## Between two ticks -/

/-- The synchronisation, if it is under way, awaits an answer. -/
def Unconfirmed (p : PartitionId) (h : NodeId) (t : Tick) : Prop :=
  ∀ st, t.syncState p h = some st → st.confirmed = false

theorem bystander_unconfirmed (me : Me) (p : PartitionId) (h : NodeId) :
    Bystander me p h (Unconfirmed p h) where
  touch t q hu := fun st hst => hu st (syncState_touch.symm.trans hst)
  interleave t hu := hu
  round t t' q g hne hf _ hu := fun st hst =>
    hu st ((hf.others p h fun heq => hne ⟨heq.1.symm, heq.2.symm⟩).symm.trans hst)
  record t q g records _ hu := fun st hst => by
    rw [syncState_recordCompletedSync] at hst
    exact hu st hst
  leave t q hu := fun st hst => by
    rw [syncState_retainRecipients] at hst
    split at hst
    · exact hu st (Option.filter_eq_some_iff.mp hst).1
    · exact hu st hst
  settle t q hq hu := fun st hst => by
    rw [syncState_retainRecipients, if_neg hq.symm] at hst
    exact hu st hst
  prune t q through _ hu := hu

/-- What a tick leaves under way is not confirmed. -/
theorem unconfirmed_syncPartitions {st : SyncState} (hp : p.id < partitionsAmount)
    (order : Enumeration) (hst : (syncPartitions me order t).syncState p h = some st) :
    st.confirmed = false := by
  have hsettled : Unconfirmed p h (t.synced me order) := by
    refine synced_once (I := fun _ => True) hp (fun _ _ _ _ _ => trivial) (fun t' _ st hst => ?_)
      (fun t' q ids hq hu => (bystander_unconfirmed me p h).syncPartition hq ids hu) trivial
    rw [syncPartition_eq, Tick.syncState, state_pruneChanges] at hst
    change (retainRecipients p _ _).syncState p h = some st at hst
    rw [syncState_retainRecipients, if_pos rfl] at hst
    simpa using (Option.filter_eq_some_iff.mp hst).2
  rw [syncPartitions_eq] at hst
  exact hsettled st (syncState_removeCompletedSyncs hst)

namespace World

variable {w : World} {a : Action}

/-- Only an answer reaches a synchronisation, and confirms it. -/
theorem syncState_receive (me : Me) (w : World) (a : Action) (p : PartitionId) (h : NodeId) :
    (w.receive me a).syncState p h = w.syncState p h ∨
      ∃ i env key, a = .respond i env ∧
        (w.receive me a).syncState p h = (w.syncState p h).map (confirm key) := by
  cases a with
  | store event => exact Or.inl rfl
  | tick env => exact Or.inl rfl
  | peer g event => exact Or.inl rfl
  | deliver i =>
    refine Or.inl ?_
    simp only [receive]
    split <;> rfl
  | message msg env =>
    by_cases hmsg : ∀ id keys, msg ≠ .syncBatchResponse id keys
    · refine Or.inl ?_
      rw [receive_message me w env hmsg, World.syncState, sync_handle hmsg]
      rfl
    · push Not at hmsg
      obtain ⟨id, keys, rfl⟩ := hmsg
      exact Or.inl rfl
  | respond i env =>
    simp only [receive]
    split
    · exact Or.inl rfl
    · rename_i b hb
      split
      · have hanswer := @sync_handleSyncBatchResponse p b.recipient h w.state
          (maxAppliedKeys b.records)
        cases hkeys : (maxAppliedKeys b.records)[p]? with
        | none =>
          rw [hkeys] at hanswer
          exact Or.inl hanswer
        | some key =>
          rw [hkeys] at hanswer
          dsimp only at hanswer
          split at hanswer
          · exact Or.inr ⟨i, env, key, rfl, hanswer⟩
          · exact Or.inl hanswer
      · exact Or.inl rfl

theorem confirm_currMaxKey (key : Key) (st : SyncState) :
    (confirm key st).currMaxKey = st.currMaxKey := by
  unfold confirm
  split <;> rfl

theorem awaits_receive (ha : AwaitsLast p h (w.syncState p h) w.sent) (me : Me) (a : Action) :
    AwaitsLast p h ((w.receive me a).syncState p h) (w.receive me a).sent := by
  rw [sent_of_receive]
  rcases syncState_receive me w a p h with heq | ⟨i, env, key, -, heq⟩
  · rw [heq]
    exact ha
  · rw [heq]
    refine ha.of_key ?_
    rw [Option.map_map]
    exact congrArg (fun f => (w.syncState p h).map f) (funext (confirm_currMaxKey key))

theorem awaits_step (hw : w.store.WellFormed) (ha : AwaitsLast p h (w.syncState p h) w.sent)
    (me : Me) (a : Action) : AwaitsLast p h ((w.step me a).syncState p h) (w.step me a).sent := by
  have hreceived := awaits_receive ha me a
  rcases step_eq me w a with ⟨-, heq, -⟩ | ⟨env, -, heq, -⟩
  · rw [heq]
    exact hreceived
  · rw [heq]
    refine Awaits.syncPartitions (t := (w.receive me a).ticking me env)
      ⟨wellFormed_receive me hw a, ?_⟩ me env.order
    rw [Tick.syncState]
    change AwaitsLast p h ((heartbeats _ me env.heartbeatNow).1.sync[p]?.bind _) _
    rw [sync_heartbeats]
    exact hreceived

/-- **The batch sent last is the one that is awaited**, in every run. -/
theorem awaited_run (me : Me) (now : ℕ) (actions : List Action) (p : PartitionId) (h : NodeId) :
    AwaitsLast p h ((run (step me) (start me now) actions).syncState p h)
      (run (step me) (start me now) actions).sent :=
  (run_keeps (I := fun w : World => w.store.WellFormed ∧ AwaitsLast p h (w.syncState p h) w.sent)
    (fun _ a hw => ⟨wellFormed_step me hw.1 a, awaits_step hw.1 hw.2 me a⟩)
    ⟨RuntimeStore.wellFormed_default, fun st hst => by cases hst⟩ actions).2

/-- **Between two ticks nothing is confirmed**, in any run. -/
theorem unconfirmed_run (me : Me) (now : ℕ) (actions : List Action) (hp : p.id < partitionsAmount)
    {st : SyncState} (hst : (run (step me) (start me now) actions).syncState p h = some st) :
    st.confirmed = false := by
  refine run_keeps (I := fun w : World => ∀ st, w.syncState p h = some st → st.confirmed = false)
    (fun w a hw st hst => ?_) (fun st hst => by cases hst) actions st hst
  rcases step_eq me w a with ⟨hnone, heq, -⟩ | ⟨env, -, heq, -⟩
  · rw [heq] at hst
    rcases syncState_receive me w a p h with hsame | ⟨i, env, key, rfl, -⟩
    · exact hw st (hsame.symm.trans hst)
    · cases hnone
  · rw [heq] at hst
    exact unconfirmed_syncPartitions (t := (w.receive me a).ticking me env) hp env.order hst

end World

end Worker

end NoSqlStore
