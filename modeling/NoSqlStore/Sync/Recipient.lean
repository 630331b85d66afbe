import NoSqlStore.Sync.Tick
/-!
# One recipient of one partition

What `sync_partition_to_recipient` can do, said once. `Good` is the
invariant of a synchronisation under way: what the recipient has, the last
batch, the cursor and the journal together account for every record.
`Outcome` lists the ways a round can end, each with what the later
arguments read off it.
-/

namespace NoSqlStore

namespace Worker

open Coverage

variable {me : Me} {p : PartitionId} {h : NodeId} {t t' t'' : Tick} {n m : ℕ}

/-- The base of a phase: the journal up to it need not be read again. -/
def SyncPhase.pendingRevision : SyncPhase → ℕ
  | .snapshot revision => revision
  | .changes _ pendingRevision => pendingRevision

namespace SyncState

/-- The keys the last page has not reached. -/
def Unread (st : SyncState) : Key → Prop :=
  match st.phase with
  | .snapshot _ => (st.currMaxKey < ·)
  | .changes _ _ => AllRead

/-- The keys the page before it had not reached. -/
def UnreadBefore (st : SyncState) : Key → Prop :=
  match st.phase with
  | .snapshot _ => Map.After st.prevMaxKey
  | .changes _ _ => AllRead

end SyncState

/-- **A synchronisation in order**: without its last batch the recipient
is covered from the confirmed revision, and with it from the pending one;
a confirmed batch has been applied; the batch of a range of the journal
was made by reading that range; and the answer to the batch is the one
that is waited for. -/
structure Good (has : Key → Mutation → Prop) (s : Source Key Mutation) (b : Sent)
    (st : SyncState) : Prop where
  ordered : st.phase.confirmedRevision ≤ st.phase.pendingRevision
  reached : st.phase.pendingRevision ≤ s.next
  settled : Covers s has Nothing st.UnreadBefore st.phase.confirmedRevision
  covered : Covers s has b.Carries st.Unread st.phase.pendingRevision
  arrived : st.confirmed = true → ∀ k m, b.Carries k m → has k m
  read : ∀ c pending, st.phase = .changes c pending → b.Read s.journal c pending
  answer : (maxAppliedKeys b.records)[b.partition]? = some st.currMaxKey

namespace Good

variable {has has' : Key → Mutation → Prop} {s s' : Source Key Mutation} {b : Sent} {st : SyncState}

/-- It survives the changes of the store. -/
theorem evolve (hg : Good has s b st) (hs : Evolves s s') : Good has s' b st where
  ordered := hg.ordered
  reached := hg.reached.trans hs.next
  settled := hg.settled.evolve (hg.ordered.trans hg.reached) hs
  covered := hg.covered.evolve hg.reached hs
  arrived := hg.arrived
  read := by
    intro c pending hphase r k hr hle hk
    have hpending : pending ≤ s.next := by
      have hreached := hg.reached
      rw [hphase] at hreached
      exact hreached
    exact hg.read c pending hphase r k hr hle (hs.old r k (hle.trans hpending) hk)
  answer := hg.answer

/-- It survives pruning up to the confirmed revision. -/
theorem prune {through : ℕ} (hg : Good has s b st) (hle : through ≤ st.phase.confirmedRevision) :
    Good has { s with journal := s.journal.filter fun r _ => through < r } b st where
  ordered := hg.ordered
  reached := hg.reached
  settled := hg.settled.prune hle
  covered := hg.covered.prune (hle.trans hg.ordered)
  arrived := hg.arrived
  read := by
    intro c pending hphase r k hr hrp hk
    rw [Std.ExtTreeMap.getElem?_filter', Option.filter_eq_some_iff] at hk
    exact hg.read c pending hphase r k hr hrp hk.1
  answer := hg.answer

/-- The recipient gains. -/
theorem mono (hg : Good has s b st) (hmono : ∀ k m, has k m → has' k m) : Good has' s b st where
  ordered := hg.ordered
  reached := hg.reached
  settled := hg.settled.mono hmono fun _ _ hm => Or.inr hm
  covered := hg.covered.mono hmono fun _ _ hm => Or.inr hm
  arrived := fun hc k m hm => hmono k m (hg.arrived hc k m hm)
  read := hg.read
  answer := hg.answer

/-- **A confirmation of a batch that has arrived.** -/
theorem confirm (hg : Good has s b st) (harrived : ∀ k m, b.Carries k m → has k m) :
    Good has s b { st with confirmed := true } where
  ordered := hg.ordered
  reached := hg.reached
  settled := hg.settled
  covered := hg.covered
  arrived := fun _ => harrived
  read := hg.read
  answer := hg.answer

/-- Once the batch is confirmed, the recipient is covered from the pending
revision. -/
theorem covered_of_confirmed (hg : Good has s b st) (hc : st.confirmed = true) :
    Covers s has Nothing st.Unread st.phase.pendingRevision :=
  hg.covered.mono (fun _ _ hm => hm) fun k m hm => Or.inl (hg.arrived hc k m hm)

end Good

/-! ## Moving along the schedule -/

/-- What a round itself may leave on the trace. -/
def Trace.inner : Trace → Bool
  | .gap _ _ => true
  | .timedOut _ _ _ _ => true
  | _ => false

/-- The trace has grown by what a round leaves on it. -/
def Grows (trace trace' : List Trace) : Prop :=
  ∃ extra, trace' = trace ++ extra ∧ ∀ e ∈ extra, e.inner = true

/-- What holds of the trace, and of all that a round leaves on it. -/
theorem Grows.all {P : Trace → Prop} {l l' : List Trace} (hg : Grows l l')
    (hinner : ∀ e, e.inner = true → P e) (hl : ∀ e ∈ l, P e) : ∀ e ∈ l', P e := by
  obtain ⟨extra, rfl, hextra⟩ := hg
  intro e he
  rcases List.mem_append.mp he with hin | hin
  · exact hl e hin
  · exact hinner e (hextra e hin)

theorem Grows.refl (trace : List Trace) : Grows trace trace :=
  ⟨[], (List.append_nil trace).symm, fun _ he => absurd he List.not_mem_nil⟩

theorem Grows.trans {l l' l'' : List Trace} (h₁ : Grows l l') (h₂ : Grows l' l'') :
    Grows l l'' := by
  obtain ⟨extra, rfl, he⟩ := h₁
  obtain ⟨extra', rfl, he'⟩ := h₂
  refine ⟨extra ++ extra', List.append_assoc _ _ _, fun e hin => ?_⟩
  rcases List.mem_append.mp hin with hin | hin
  · exact he e hin
  · exact he' e hin

theorem Grows.isPrefix {l l' : List Trace} (hg : Grows l l') : l <+: l' := by
  obtain ⟨extra, rfl, -⟩ := hg
  exact List.prefix_append _ _

theorem grows_log {t : Tick} {event : Trace} (he : event.inner = true) :
    Grows t.trace (t.log event).trace :=
  ⟨[event], rfl, fun _ hin => List.mem_singleton.mp hin ▸ he⟩

/-! ## The rule of a round -/

/-- What a retry reads again. -/
def reread (me : Me) (p : PartitionId) (h : NodeId) (st : SyncState) (t : Tick) :
    Option Key × Tick :=
  match st.phase with
  | .snapshot _ => syncBatch me p h t st.prevMaxKey
  | .changes confirmedRevision _ =>
    ((syncChangeBatch me p h t confirmedRevision).1.map Prod.snd,
      (syncChangeBatch me p h t confirmedRevision).2)

/-- What a retry notes of what it has read again. -/
def renote (p : PartitionId) (h : NodeId) (st : SyncState) : Option Key × Tick → Tick
  | (some newMaxKey, t) => t.now.2.setSyncState p h
      { st with currMaxKey := newMaxKey, confirmed := false, lastStartTime := t.now.1 }
  | (none, t) => t

/-- A retry waits for the timeout, reads again and notes. -/
theorem retryTimedOutSync_eq (me : Me) (p : PartitionId) (h : NodeId) (t : Tick) (st : SyncState) :
    retryTimedOutSync me p h t st =
      if elapsed t.now.1 st.lastStartTime < syncTimeoutMs then t.now.2
      else renote p h st (reread me p h st
        (t.now.2.log (.timedOut p h st.phase (t.now.2.changes p)))) := by
  obtain ⟨prevMaxKey, currMaxKey, phase, confirmed, lastStartTime⟩ := st
  cases phase with
  | snapshot revision => rfl
  | changes confirmedRevision pendingRevision => rfl

/-- **What every step of a round obeys**: a preorder that the store's
slots, the readings of the clock, the trace, the recipient's own state and
its batches all respect. -/
structure Moving (me : Me) (p : PartitionId) (h : NodeId) (R : Tick → Tick → Prop) : Prop where
  refl : ∀ t, R t t
  trans : ∀ {t t' t''}, R t t' → R t' t'' → R t t''
  interleave : ∀ t, R t t.interleave
  now : ∀ t, R t t.now.2
  log : ∀ t {event : Trace}, event.inner = true → R t (t.log event)
  setSyncState : ∀ t st, R t (t.setSyncState p h st)
  pushBatch : ∀ t records reads, R t (t.pushBatch me p h records reads)

namespace Moving

variable {R : Tick → Tick → Prop} (hm : Moving me p h R)
include hm

theorem syncBatch (t : Tick) (after : Option Key) : R t (syncBatch me p h t after).2 := by
  rcases syncBatch_spec me p h t after with ⟨-, heq⟩ | ⟨last, -, heq⟩
  · rw [heq]
    exact hm.interleave t
  · rw [heq]
    exact hm.trans (hm.interleave t) (hm.pushBatch _ _ _)

theorem changeLoop (fuel : ℕ) : ∀ (t : Tick) (cursor : ℕ)
    (reads : List (ℕ × Key × Option Mutation)), R t (changeLoop me p h fuel t cursor reads).2 := by
  induction fuel with
  | zero => exact fun t _ _ => hm.refl t
  | succ fuel ih =>
    intro t cursor reads
    rcases changeLoop_succ me p h t fuel cursor reads with
      ⟨-, heq⟩ | ⟨last, -, ⟨-, heq⟩ | ⟨key, -, heq⟩⟩
    · rw [heq]
      exact hm.interleave t
    · rw [heq]
      exact hm.trans (hm.interleave t) (ih _ _ _)
    · rw [heq]
      exact hm.trans (hm.interleave t) (hm.pushBatch _ _ _)

theorem syncChangeBatch (t : Tick) (c : ℕ) : R t (syncChangeBatch me p h t c).2 :=
  hm.changeLoop _ t c []

/-- A batch that is sent is noted with the time. -/
theorem note (t : Tick) (st : SyncState) : R t (t.now.2.setSyncState p h st) :=
  hm.trans (hm.now t) (hm.setSyncState _ st)

theorem startSync (t : Tick) : R t (startSync me p h t).2 := by
  unfold Worker.startSync
  dsimp only
  split
  · exact hm.interleave t
  · have hbatch := hm.trans (hm.interleave t) (hm.syncBatch t.interleave none)
    generalize Worker.syncBatch me p h t.interleave none = batch at hbatch
    obtain ⟨_ | key, t₁⟩ := batch
    · exact hm.trans hbatch (hm.interleave _)
    · exact hm.trans hbatch (hm.note _ _)

theorem continueChanges (t : Tick) (st : SyncState) (c : ℕ) :
    R t (continueChanges me p h t st c).2 := by
  have hbatch := hm.syncChangeBatch t c
  unfold Worker.continueChanges
  generalize Worker.syncChangeBatch me p h t c = batch at hbatch
  obtain ⟨_ | key, t₁⟩ := batch
  · have hgap : R t (t₁.log (.gap p (t₁.schedule.headD []))).interleave :=
      hm.trans hbatch (hm.trans (hm.log t₁ rfl) (hm.interleave _))
    dsimp only
    split
    · exact hm.trans hgap (hm.setSyncState _ _)
    · exact hgap
  · exact hm.trans hbatch (hm.note _ _)

theorem continueConfirmedSync (t : Tick) (st : SyncState) :
    R t (continueConfirmedSync me p h t st).2 := by
  unfold Worker.continueConfirmedSync
  cases st.phase with
  | changes c pending => exact hm.continueChanges t st pending
  | snapshot revision =>
    have hbatch := hm.syncBatch t (some st.currMaxKey)
    generalize Worker.syncBatch me p h t (some st.currMaxKey) = batch at hbatch
    obtain ⟨_ | key, t₁⟩ := batch
    · exact hm.trans hbatch (hm.continueChanges t₁ st revision)
    · exact hm.trans hbatch (hm.note _ _)

theorem reread (t : Tick) (st : SyncState) : R t (reread me p h st t).2 := by
  unfold Worker.reread
  cases st.phase with
  | snapshot revision => exact hm.syncBatch t st.prevMaxKey
  | changes confirmed pending => exact hm.syncChangeBatch t confirmed

theorem retryTimedOutSync (t : Tick) (st : SyncState) :
    R t (retryTimedOutSync me p h t st) := by
  rw [retryTimedOutSync_eq]
  split
  · exact hm.now t
  · have hread := hm.trans (hm.trans (hm.now t) (hm.log t.now.2 rfl))
      (hm.reread (t.now.2.log (.timedOut p h st.phase (t.now.2.changes p))) st)
    generalize Worker.reread me p h st _ = read at hread
    obtain ⟨_ | key, t₁⟩ := read
    · exact hread
    · exact hm.trans hread (hm.note _ _)

/-- **The rule of a round.** -/
theorem round (t : Tick) : R t (syncPartitionToRecipient me p h t).2 := by
  unfold syncPartitionToRecipient
  split
  · exact hm.startSync t
  · split
    · exact hm.continueConfirmedSync t _
    · exact hm.retryTimedOutSync t _

end Moving

/-- The store has moved by `n` slots of the schedule, and the trace has
grown. -/
structure Passed (t t' : Tick) (n : ℕ) : Prop where
  store : t'.store = (t.after n).store
  schedule : t'.schedule = (t.after n).schedule
  trace : Grows t.trace t'.trace

/-- Slots are read off the store and the schedule. -/
theorem after_congr (hstore : t.store = t'.store) (hschedule : t.schedule = t'.schedule) (n : ℕ) :
    (t.after n).store = (t'.after n).store ∧ (t.after n).schedule = (t'.after n).schedule := by
  induction n with
  | zero => exact ⟨hstore, hschedule⟩
  | succ n ih =>
    rw [← Tick.after_after, ← Tick.after_after]
    change ((t.after n).schedule.headD []).foldl RuntimeStore.apply (t.after n).store =
      ((t'.after n).schedule.headD []).foldl RuntimeStore.apply (t'.after n).store ∧
      (t.after n).schedule.tail = (t'.after n).schedule.tail
    rw [ih.1, ih.2]
    exact ⟨rfl, rfl⟩

theorem Passed.trans (h₁ : Passed t t' n) (h₂ : Passed t' t'' m) : Passed t t'' (n + m) := by
  obtain ⟨hstore, hschedule⟩ := after_congr h₁.store h₁.schedule m
  rw [Tick.after_after] at hstore hschedule
  exact ⟨h₂.store.trans hstore, h₂.schedule.trans hschedule, h₁.trace.trans h₂.trace⟩

theorem passed_after (t : Tick) (n : ℕ) : Passed t (t.after n) n :=
  ⟨rfl, rfl, by rw [Tick.after_trace]; exact .refl _⟩

/-- A store that has moved has evolved. -/
theorem Passed.evolution (hp : Passed t t' n) : RuntimeStore.Evolution t.store t'.store := by
  rw [hp.store]
  exact t.evolution_after n

/-- A still partition stays still, and only loses records. -/
theorem Passed.still (hp : Passed t t' n) (hs : t.Still p) (hw : t.store.WellFormed) :
    t'.Still p ∧ ∀ (k : Key) (m : Mutation), (t'.records p)[k]? = some m →
      (t.records p)[k]? = some m := by
  obtain ⟨⟨hundisturbed, hidle⟩, hsub⟩ := hs.after hw n
  rw [← hp.schedule] at hundisturbed
  rw [Tick.records, ← hp.store] at hsub
  rw [← hp.store] at hidle
  exact ⟨⟨hundisturbed, hidle⟩, hsub⟩

/-- **A round for one recipient leaves the others alone.** -/
structure Frame (p : PartitionId) (h : NodeId) (t t' : Tick) : Prop where
  passed : ∃ n, Passed t t' n
  nodes : t'.state.nodes = t.state.nodes
  partitions : t'.state.partitions = t.state.partitions
  others : ∀ q g, ¬ (q = p ∧ g = h) → t'.syncState q g = t.syncState q g

theorem Frame.refl (t : Tick) : Frame p h t t :=
  ⟨⟨0, passed_after t 0⟩, rfl, rfl, fun _ _ _ => rfl⟩

theorem Frame.trans (h₁ : Frame p h t t') (h₂ : Frame p h t' t'') : Frame p h t t'' := by
  obtain ⟨n, hn⟩ := h₁.passed
  obtain ⟨m, hm⟩ := h₂.passed
  exact ⟨⟨n + m, hn.trans hm⟩, h₂.nodes.trans h₁.nodes, h₂.partitions.trans h₁.partitions,
    fun q g hne => (h₂.others q g hne).trans (h₁.others q g hne)⟩

theorem frame_after (t : Tick) (n : ℕ) : Frame p h t (t.after n) :=
  ⟨⟨n, passed_after t n⟩, by rw [Tick.after_state], by rw [Tick.after_state],
    fun _ _ _ => Tick.syncState_after t n⟩

theorem frame_now (t : Tick) : Frame p h t t.now.2 :=
  ⟨⟨0, rfl, rfl, .refl _⟩, rfl, rfl, fun _ _ _ => rfl⟩

theorem frame_log (t : Tick) {event : Trace} (he : event.inner = true) :
    Frame p h t (t.log event) :=
  ⟨⟨0, rfl, rfl, grows_log he⟩, rfl, rfl, fun _ _ _ => rfl⟩

theorem frame_pushBatch (t : Tick) (records : List (Key × Mutation))
    (reads : List (ℕ × Key × Option Mutation)) : Frame p h t (t.pushBatch me p h records reads) :=
  ⟨⟨0, rfl, rfl, .refl _⟩, rfl, rfl, fun _ _ _ => rfl⟩

theorem frame_setSyncState (t : Tick) (st : SyncState) : Frame p h t (t.setSyncState p h st) :=
  ⟨⟨0, rfl, rfl, .refl _⟩, rfl, rfl, fun _ _ hne => syncState_setSyncState_of_ne hne⟩

theorem moving_frame (me : Me) (p : PartitionId) (h : NodeId) : Moving me p h (Frame p h) :=
  ⟨Frame.refl, Frame.trans, fun t => frame_after t 1, frame_now, fun t _ he => frame_log t he,
    frame_setSyncState, frame_pushBatch⟩

/-- **A round leaves the other recipients alone.** -/
theorem frame_syncPartitionToRecipient (me : Me) (p : PartitionId) (h : NodeId) (t : Tick) :
    Frame p h t (syncPartitionToRecipient me p h t).2 := (moving_frame me p h).round t

/-! ## The ways a round can end -/

/-- **What a round can do**, and whether it reports completion. -/
inductive Outcome (has : Key → Mutation → Prop) (p : PartitionId) (h : NodeId) (t t' : Tick) :
    Bool → Prop
  /-- The answer to the last batch is still awaited. -/
  | waits (st : SyncState) (hst : t.syncState p h = some st) (hconfirmed : st.confirmed = false)
      (hsent : t'.sent = t.sent) (hsync : t'.syncState p h = t.syncState p h) :
      Outcome has p h t t' false
  /-- A writer was found at work on the partition. -/
  | writing (n : ℕ) (hn : (t.after n).store.stablePartitionRevision p = none)
      (hconfirmed : ∀ st, t.syncState p h = some st → st.confirmed = true)
      (hsent : t'.sent = t.sent) (hsync : t'.syncState p h = t.syncState p h) :
      Outcome has p h t t' false
  /-- The partition was found empty, and something has happened to it since. -/
  | emptied (n : ℕ) (hn : ∀ k : Key, ((t.after n).records p)[k]? = none)
      (hstore : t'.store = ((t.after n).after 1).store) (hst : t.syncState p h = none)
      (hsent : t'.sent = t.sent) (hsync : t'.syncState p h = t.syncState p h) :
      Outcome has p h t t' false
  /-- A batch goes out, the first of a synchronisation, one that follows a
  confirmed one, or one that replaces one that timed out. -/
  | sends (b : Sent) (st : SyncState) (hb : b.partition = p ∧ b.recipient = h) (hproper : b.Proper)
      (hsent : t'.sent = t.sent ++ [b]) (hsync : t'.syncState p h = some st)
      (hconfirmed : st.confirmed = false) (hgood : Good has (t'.source p) b st)
      (hbefore : ∀ st₀, t.syncState p h = some st₀ → st₀.confirmed = true ∨
        ∃ phase journal, Trace.timedOut p h phase journal ∈ t'.trace) :
      Outcome has p h t t' false
  /-- The partition is empty, and nothing has happened to it. -/
  | empty (hst : t.syncState p h = none) (hsent : t'.sent = t.sent)
      (hsync : t'.syncState p h = none) (hnone : ∀ k : Key, (t'.records p)[k]? = none) :
      Outcome has p h t t' true
  /-- Everything stored was at the recipient when the journal was found
  exhausted; one slot of the schedule has passed since. -/
  | copied (n : ℕ) (st : SyncState) (hst : t.syncState p h = some st)
      (hconfirmed : st.confirmed = true) (hsent : t'.sent = t.sent)
      (hsync : t'.syncState p h = some st)
      (hdone : ∀ (k : Key) (m : Mutation), ((t.after n).records p)[k]? = some m → has k m)
      (hstore : t'.store = ((t.after n).after 1).store)
      (hgap : Trace.gap p ((t.after n).schedule.headD []) ∈ t'.trace) : Outcome has p h t t' true

section Rounds

variable {has : Key → Mutation → Prop} {b : Sent} {st : SyncState} {result : Bool}

/-- A round that begins with some slots of the schedule. -/
theorem Outcome.of_after {k : ℕ} (ho : Outcome has p h (t.after k) t' result) :
    Outcome has p h t t' result := by
  cases ho with
  | waits st hst hconfirmed hsent hsync =>
    rw [Tick.syncState_after] at hst hsync
    rw [Tick.after_sent] at hsent
    exact .waits st hst hconfirmed hsent hsync
  | writing n hn hconfirmed hsent hsync =>
    rw [Tick.after_after] at hn
    rw [Tick.syncState_after] at hconfirmed hsync
    rw [Tick.after_sent] at hsent
    exact .writing _ hn hconfirmed hsent hsync
  | emptied n hn hstore hst hsent hsync =>
    rw [Tick.after_after] at hn
    rw [Tick.after_after t k n] at hstore
    rw [Tick.syncState_after] at hst hsync
    rw [Tick.after_sent] at hsent
    exact .emptied _ hn hstore hst hsent hsync
  | sends b st hb hproper hsent hsync hconfirmed hgood hbefore =>
    rw [Tick.syncState_after] at hbefore
    rw [Tick.after_sent] at hsent
    exact .sends b st hb hproper hsent hsync hconfirmed hgood hbefore
  | empty hst hsent hsync hnone =>
    rw [Tick.syncState_after] at hst
    rw [Tick.after_sent] at hsent
    exact .empty hst hsent hsync hnone
  | copied n st hst hconfirmed hsent hsync hdone hstore hgap =>
    rw [Tick.after_after] at hdone hgap
    rw [Tick.after_after t k n] at hstore
    rw [Tick.syncState_after] at hst
    rw [Tick.after_sent] at hsent
    exact .copied _ st hst hconfirmed hsent hsync hdone hstore hgap

/-- The page of a snapshot makes a synchronisation in order. -/
theorem good_page {s : Source Key Mutation} {prev : Option Key} {revision now : ℕ}
    {last : Key × Mutation} (hcovers : Covers s has Nothing (Map.After prev) revision)
    (hreached : revision ≤ s.next)
    (hproper : (batchOf p h (s.records.pageAfter prev syncBatchSize) []).Proper)
    (hlast : (s.records.pageAfter prev syncBatchSize).getLast? = some last) :
    Good has s (batchOf p h (s.records.pageAfter prev syncBatchSize) [])
      ⟨prev, last.1, .snapshot revision, false, now⟩ where
  ordered := le_rfl
  reached := hreached
  settled := hcovers
  covered := (hcovers.page hlast).mono (fun _ _ hm => hm) fun _ _ hm =>
    Or.inr (carries_batchOf.mpr hm)
  arrived := fun hc => by cases hc
  read := fun c pending hphase => by cases hphase
  answer := by
    refine maxAppliedKeys_batchOf hproper (List.max?_eq_some_iff.mpr ⟨?_, fun key hkey => ?_⟩)
    · exact List.mem_map.mpr ⟨last, List.mem_of_getLast? hlast, rfl⟩
    · obtain ⟨e, he, rfl⟩ := List.mem_map.mp hkey
      exact Map.le_last_of_mem_pageAfter hlast he

/-- A page holds what is stored. -/
theorem proper_page (hw : t.store.WellFormed) (prev : Option Key) :
    (batchOf p h ((t.records p).pageAfter prev syncBatchSize) []).Proper :=
  proper_batchOf hw fun _ he => (Map.mem_pageAfter he).1

theorem startSync_outcome (hw : t.store.WellFormed) (hst : t.syncState p h = none) :
    Outcome has p h t (startSync me p h t).2 (startSync me p h t).1 := by
  unfold startSync
  simp only [Tick.interleave_eq_after]
  obtain ⟨hw₁, hev₁⟩ := t.evolution_after 1 hw
  cases hstable : (t.after 1).store.stablePartitionRevision p with
  | none =>
    refine .writing 1 hstable ?_ (Tick.after_sent t 1) (Tick.syncState_after t 1)
    intro st hst'
    rw [hst] at hst'
    cases hst'
  | some revision =>
    have hrev := RuntimeStore.stable_le hw₁ hstable
    obtain ⟨hw₂, hev₂⟩ := (t.after 1).evolution_after 1 hw₁
    have hreached : revision ≤ ((t.after 1).after 1).store.nextRevision := hrev.trans (hev₂ p).next
    rcases syncBatch_spec me p h (t.after 1) none with
      ⟨hnil, heq⟩ | ⟨last, hlast, heq⟩
    · -- the page is empty: the partition is, and stays so unless its revision moves
      simp only [heq]
      have hempty : ∀ k : Key, (((t.after 1).after 1).records p)[k]? = none := by
        intro k
        by_contra hne
        obtain ⟨m, hm⟩ := Option.ne_none_iff_exists'.mp hne
        exact Map.not_after_of_pageAfter_nil (by decide) hnil hm (Map.after_none k)
      have hnewer := RuntimeStore.emptyOrNewer_foldl (p := p) hw₂ hreached (Or.inl hempty)
        (((t.after 1).after 1).schedule.headD [])
      change Outcome has p h t (t.after 3)
        (decide ((t.after 3).store.stablePartitionRevision p = some revision))
      by_cases hsame : (t.after 3).store.stablePartitionRevision p = some revision
      · rw [decide_eq_true hsame]
        refine .empty hst (Tick.after_sent t _) (by rw [Tick.syncState_after, hst]) fun k => ?_
        exact RuntimeStore.no_records_of_stable hnewer hsame k
      · rw [decide_eq_false hsame]
        exact .emptied 2 hempty rfl hst (Tick.after_sent t _) (Tick.syncState_after t _)
    · simp only [heq]
      refine .sends _ _ ⟨rfl, rfl⟩ (proper_page hw₂ none) ?_ syncState_setSyncState_self rfl
        (good_page covers_start hreached (proper_page hw₂ none) hlast) ?_
      · change ((t.after 1).after 1).sent ++ _ = _
        rw [Tick.after_sent, Tick.after_sent]
        rfl
      · intro st₀ hst₀
        rw [hst] at hst₀
        cases hst₀

/-- The state `continue_changes` leaves is the one it found. -/
theorem confirmed_eq (hc : st.confirmed = true) : { st with confirmed := true } = st := by
  cases st
  simp_all

theorem continueChanges_outcome {c : ℕ} (me : Me) (hw : t.store.WellFormed)
    (hst : t.syncState p h = some st) (hconfirmed : st.confirmed = true)
    (hc : c ≤ t.store.nextRevision) (hcovers : Covers (t.source p) has Nothing AllRead c) :
    Outcome has p h t (continueChanges me p h t st c).2 (continueChanges me p h t st c).1 := by
  unfold continueChanges
  have hbatch := syncChangeBatch_spec me h hw hc hcovers
  generalize syncChangeBatch me p h t c = batch at hbatch
  cases hbatch with
  | exhausted n hdone =>
    -- the journal is exhausted; what the gap lets happen is on the trace
    simp only [Tick.interleave_eq_after]
    cases hstable : ((((t.after n).log (.gap p ((t.after n).schedule.headD []))).after 1).store
        ).stablePartitionRevision p with
    | none =>
      refine .writing (n + 1) ?_ ?_ (Tick.after_sent t n) (Tick.syncState_after t n)
      · rw [← Tick.after_after]
        exact hstable
      · intro st' hst'
        rw [hst] at hst'
        cases hst'
        exact hconfirmed
    | some revision =>
      simp only [confirmed_eq hconfirmed]
      refine .copied n st hst hconfirmed (Tick.after_sent t n) syncState_setSyncState_self hdone
        rfl ?_
      exact List.mem_append_right _ (List.mem_singleton_self _)
  | sends n last key records reads hcl hlast hcov hread hproper hkey _ =>
    obtain ⟨-, hev⟩ := t.evolution_after n hw
    refine .sends (batchOf p h records reads) _ ⟨rfl, rfl⟩ hproper ?_ syncState_setSyncState_self
      rfl ?_ ?_
    · change (t.after n).sent ++ _ = _
      rw [Tick.after_sent]
      rfl
    · exact
        { ordered := hcl.le
          reached := hlast
          settled := hcovers.evolve hc (hev p)
          covered := hcov
          arrived := fun hc => by cases hc
          read := fun c' pending hphase => by cases hphase; exact hread
          answer := maxAppliedKeys_batchOf hproper hkey }
    · intro st₀ hst₀
      rw [hst] at hst₀
      cases hst₀
      exact Or.inl hconfirmed

theorem continueConfirmedSync_outcome (hw : t.store.WellFormed) (hst : t.syncState p h = some st)
    (hconfirmed : st.confirmed = true) (hgood : Good has (t.source p) b st) :
    Outcome has p h t (continueConfirmedSync me p h t st).2
      (continueConfirmedSync me p h t st).1 := by
  have hcovers := hgood.covered_of_confirmed hconfirmed
  have hreached := hgood.reached
  unfold continueConfirmedSync
  cases hphase : st.phase with
  | changes c pending =>
    simp only [SyncState.Unread, SyncPhase.pendingRevision, hphase] at hcovers hreached
    exact continueChanges_outcome me hw hst hconfirmed hreached hcovers
  | snapshot revision =>
    simp only [SyncState.Unread, SyncPhase.pendingRevision, hphase] at hcovers hreached
    obtain ⟨hw₁, hev⟩ := t.evolution_after 1 hw
    have hreached₁ : revision ≤ (t.after 1).store.nextRevision := hreached.trans (hev p).next
    -- the keys after the cursor are the ones the page reads
    have hafter : Covers ((t.after 1).source p) has Nothing (Map.After (some st.currMaxKey))
        revision := by
      have hevolved : Covers ((t.after 1).source p) has Nothing (st.currMaxKey < ·) revision :=
        hcovers.evolve hreached (hev p)
      intro k m hk
      simpa only [Map.after_some] using hevolved k m hk
    rcases syncBatch_spec me p h t (some st.currMaxKey) with
      ⟨hnil, heq⟩ | ⟨last, hlast, heq⟩
    · simp only [heq]
      have hround := continueChanges_outcome me hw₁
        ((Tick.syncState_after t 1).trans hst) hconfirmed hreached₁
        (hafter.exhausted (by decide) hnil)
      exact hround.of_after
    · simp only [heq]
      refine .sends _ _ ⟨rfl, rfl⟩ (proper_page hw₁ (some st.currMaxKey)) ?_
        syncState_setSyncState_self rfl ?_ ?_
      · change (t.after 1).sent ++ _ = _
        rw [Tick.after_sent]
        rfl
      · exact good_page hafter hreached₁ (proper_page hw₁ _) hlast
      · intro st₀ hst₀
        rw [hst] at hst₀
        cases hst₀
        exact Or.inl hconfirmed

/-- A batch of changes that has timed out has no more entries in its range
of the journal than a page holds. -/
def Trace.short : Trace → Bool
  | .timedOut _ _ (.changes c pending) journal => (journal.between c pending).length ≤ syncBatchSize
  | _ => true

/-- **The ranges that are read again fit in a page.** -/
def ShortRanges (trace : List Trace) : Prop := ∀ e ∈ trace, e.short

/-- The batch that replaces one that has timed out. -/
theorem retry_sends {phase : SyncPhase} {journal : Map ℕ Key} {records : List (Key × Mutation)}
    {reads : List (ℕ × Key × Option Mutation)} {t₁ : Tick} (hsent : t₁.sent = t.sent)
    (htimeout : Trace.timedOut p h phase journal ∈ t₁.trace)
    (hproper : (batchOf p h records reads).Proper) (hconfirmed : st.confirmed = false)
    (hgood : Good has (t₁.source p) (batchOf p h records reads) st) :
    Outcome has p h t ((t₁.pushBatch me p h records reads).now.2.setSyncState p h st) false := by
  refine .sends _ _ ⟨rfl, rfl⟩ hproper ?_ syncState_setSyncState_self hconfirmed hgood ?_
  · rw [← hsent]
    rfl
  · exact fun _ _ => Or.inr ⟨phase, journal, htimeout⟩

theorem retryTimedOutSync_outcome (hw : t.store.WellFormed) (hst : t.syncState p h = some st)
    (hconfirmed : st.confirmed = false) (hgood : Good has (t.source p) b st)
    (hshort : ShortRanges (retryTimedOutSync me p h t st).trace) :
    Outcome has p h t (retryTimedOutSync me p h t st) false := by
  unfold retryTimedOutSync at hshort ⊢
  by_cases helapsed : elapsed t.now.1 st.lastStartTime < syncTimeoutMs
  · simp only [if_pos helapsed]
    exact .waits st hst hconfirmed rfl rfl
  simp only [if_neg helapsed] at hshort ⊢
  generalize hlogged : t.now.2.log (.timedOut p h st.phase (t.now.2.changes p)) = t₁ at hshort ⊢
  have hmem : Trace.timedOut p h st.phase (t.changes p) ∈ t₁.trace := by
    rw [← hlogged]
    exact List.mem_append_right _ (List.mem_singleton_self _)
  have hstore : t₁.store = t.store := by rw [← hlogged]; rfl
  have hsent₁ : t₁.sent = t.sent := by rw [← hlogged]; rfl
  have hsync₁ : t₁.syncState p h = t.syncState p h := by rw [← hlogged]; rfl
  have hgood₁ : Good has (t₁.source p) b st := by
    rw [Tick.source, hstore]
    exact hgood
  have hw₁ : t₁.store.WellFormed := by rwa [hstore]
  -- a batch that cannot be made again leaves the one that timed out pending
  have hwaits : ∀ n, Outcome has p h t (t₁.after n) false := fun n =>
    .waits st hst hconfirmed ((Tick.after_sent t₁ n).trans hsent₁)
      ((Tick.syncState_after t₁ n).trans hsync₁)
  cases hphase : st.phase with
  | snapshot revision =>
    simp only [hphase] at hshort ⊢
    obtain ⟨hw₂, hev⟩ := t₁.evolution_after 1 hw₁
    have hgood₂ := hgood₁.evolve (hev p)
    have hcovers := hgood₂.settled
    have hreached := hgood₂.reached
    simp only [SyncState.UnreadBefore, SyncPhase.confirmedRevision, SyncPhase.pendingRevision,
      hphase] at hcovers hreached
    rcases syncBatch_spec me p h t₁ st.prevMaxKey with
      ⟨-, heq⟩ | ⟨last, hlast, heq⟩
    · simp only [heq]
      exact hwaits 1
    · simp only [heq]
      rw [← Tick.after_trace t₁ 1] at hmem
      exact retry_sends ((Tick.after_sent t₁ 1).trans hsent₁) hmem (proper_page hw₂ _) rfl
        (good_page hcovers hreached (proper_page hw₂ _) hlast)
  | changes c pending =>
    simp only [hphase] at hshort ⊢
    have hcovers := hgood₁.settled
    have hordered := hgood₁.ordered
    have hreached := hgood₁.reached
    simp only [SyncState.UnreadBefore, SyncPhase.confirmedRevision, SyncPhase.pendingRevision,
      hphase] at hcovers hordered hreached
    have hbatch := syncChangeBatch_spec me h hw₁ (hordered.trans hreached) hcovers
    generalize syncChangeBatch me p h t₁ c = batch at hbatch hshort ⊢
    cases hbatch with
    | exhausted n hdone => exact hwaits n
    | sends n last key records reads hcl hlast hcov hread hproper hkey hreach =>
      obtain ⟨-, hev⟩ := t₁.evolution_after n hw₁
      have hmem₂ : Trace.timedOut p h (.changes c pending) (t.changes p) ∈ (t₁.after n).trace := by
        rw [Tick.after_trace, ← hphase]
        exact hmem
      have hlen : ((t₁.changes p).between c pending).length ≤ syncBatchSize := by
        have hchanges : t₁.changes p = t.changes p := by rw [Tick.changes, hstore]; rfl
        rw [hchanges]
        exact of_decide_eq_true (hshort _ hmem₂)
      have hnone := hreach pending hreached hlen
      refine retry_sends ((Tick.after_sent t₁ n).trans hsent₁) hmem₂ hproper rfl ?_
      -- the phase is kept, so the new batch must reach the pending revision of the old one
      refine
        { ordered := hordered
          reached := hreached.trans (hev p).next
          settled := hcovers.evolve (hordered.trans hreached) (hev p)
          covered := hcov.rebase hnone
          arrived := fun hc => by cases hc
          read := fun c' pending' hphase' r k hr hle hk => ?_
          answer := maxAppliedKeys_batchOf hproper hkey }
      cases hphase'
      by_cases hrl : r ≤ last
      · exact hread r k hr hrl hk
      · have hgap : ((t₁.after n).source p).journal[r]? = none := hnone r (not_le.mp hrl) hle
        rw [hgap] at hk
        cases hk

/-- **What a round can do.** -/
theorem syncPartitionToRecipient_outcome (hw : t.store.WellFormed)
    (hgood : ∀ st, t.syncState p h = some st → ∃ b, Good has (t.source p) b st)
    (hshort : ShortRanges (syncPartitionToRecipient me p h t).2.trace) :
    Outcome has p h t (syncPartitionToRecipient me p h t).2
      (syncPartitionToRecipient me p h t).1 := by
  unfold syncPartitionToRecipient at hshort ⊢
  cases hst : t.syncState p h with
  | none => exact startSync_outcome hw hst
  | some st =>
    obtain ⟨b, hb⟩ := hgood st hst
    simp only [hst] at hshort ⊢
    by_cases hc : st.confirmed = true
    · simp only [if_pos hc]
      exact continueConfirmedSync_outcome hw hst hc hb
    · simp only [if_neg hc] at hshort ⊢
      exact retryTimedOutSync_outcome hw hst (by simpa using hc) hb hshort

end Rounds

end Worker

end NoSqlStore
