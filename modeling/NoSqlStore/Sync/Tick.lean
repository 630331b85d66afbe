import NoSqlStore.Model.System
import NoSqlStore.Sync.Store
/-!
# The parts of a tick

A tick moves the store only by what is scheduled between its calls
(`Tick.after`), reads pages of it, pushes batches and rewrites the states
of its recipients. The lemmas here say what each part reads and writes;
`changeLoop_spec` is the one loop among them.
-/

namespace NoSqlStore

namespace Worker

open Coverage

variable {me : Me} {p q : PartitionId} {h g : NodeId} {t t' : Tick} {n : ℕ}

namespace Tick

/-- The tick after the next `n` slots of its schedule. -/
def after (t : Tick) (n : ℕ) : Tick := interleave^[n] t

/-- A partition as a source. -/
def source (t : Tick) (p : PartitionId) : Source Key Mutation := t.store.source p

@[simp] theorem after_zero (t : Tick) : t.after 0 = t := rfl

theorem interleave_eq_after (t : Tick) : t.interleave = t.after 1 := rfl

theorem after_after (t : Tick) (n m : ℕ) : (t.after n).after m = t.after (n + m) := by
  rw [after, after, after, Nat.add_comm, Function.iterate_add_apply]

@[simp] theorem after_state (t : Tick) (n : ℕ) : (t.after n).state = t.state := by
  induction n with
  | zero => rfl
  | succ n ih => rw [← after_after, ← ih]; rfl

@[simp] theorem after_sent (t : Tick) (n : ℕ) : (t.after n).sent = t.sent := by
  induction n with
  | zero => rfl
  | succ n ih => rw [← after_after, ← ih]; rfl

@[simp] theorem after_trace (t : Tick) (n : ℕ) : (t.after n).trace = t.trace := by
  induction n with
  | zero => rfl
  | succ n ih => rw [← after_after, ← ih]; rfl

@[simp] theorem syncState_after (t : Tick) (n : ℕ) :
    (t.after n).syncState p h = t.syncState p h := by
  rw [syncState, after_state]
  rfl

/-- Nothing happens between the calls of a tick without a schedule. -/
theorem interleave_of_nil (hs : t.schedule = []) : t.interleave = t := by
  cases t
  simp_all [Tick.interleave]

/-- **A schedule is a run of the store's own operations.** -/
theorem evolution_after (t : Tick) (n : ℕ) : RuntimeStore.Evolution t.store (t.after n).store := by
  induction n with
  | zero => exact .refl _
  | succ n ih =>
    rw [← after_after]
    exact ih.trans (RuntimeStore.Evolution.foldl _ RuntimeStore.evolution_apply _ _)

/-- What is scheduled after `n` slots was scheduled before. -/
theorem schedule_after_subset (t : Tick) (n : ℕ) :
    ∀ events ∈ (t.after n).schedule, events ∈ t.schedule := by
  induction n with
  | zero => exact fun _ h => h
  | succ n ih =>
    intro events he
    rw [← after_after] at he
    exact ih events (List.mem_of_mem_tail he)

/-- The next slot, or nothing. -/
theorem mem_schedule_of_mem_headD {event : StoreEvent} (he : event ∈ t.schedule.headD []) :
    t.schedule.headD [] ∈ t.schedule := by
  cases hs : t.schedule with
  | nil => rw [hs] at he; cases he
  | cons events rest => exact List.mem_cons_self

/-- **Nothing that disturbs the partition is scheduled, and no writer is
at work on it.** -/
structure Still (p : PartitionId) (t : Tick) : Prop where
  undisturbed : ∀ events ∈ t.schedule, ∀ event ∈ events, StoreEvent.disturbs p event = false
  idle : (t.store.partition p).activeWriters = 0

/-- A still partition stays still, and only loses records. -/
theorem Still.after (hs : Still p t) (hw : t.store.WellFormed) (n : ℕ) :
    Still p (t.after n) ∧ ∀ (k : Key) (m : Mutation), ((t.after n).records p)[k]? = some m →
      (t.records p)[k]? = some m := by
  induction n with
  | zero => exact ⟨hs, fun _ _ hk => hk⟩
  | succ n ih =>
    obtain ⟨hn, hsub⟩ := ih
    have hquiet : ∀ event ∈ (t.after n).schedule.headD [], StoreEvent.disturbs p event = false :=
      fun event he => hn.undisturbed _ (mem_schedule_of_mem_headD he) event he
    have hloses := RuntimeStore.loses_foldl (p := p) (t.evolution_after n hw).1
      fun event he => StoreEvent.writes_of_not_disturbs (hquiet event he)
    have hidle : ∀ (events : List StoreEvent) (store : RuntimeStore),
        (∀ event ∈ events, StoreEvent.disturbs p event = false) →
        (store.partition p).activeWriters = 0 →
        ((events.foldl RuntimeStore.apply store).partition p).activeWriters = 0 := by
      intro events
      induction events with
      | nil => exact fun store _ hzero => hzero
      | cons event events ihe =>
        intro store hq hzero
        exact ihe _ (fun e he => hq e (List.mem_cons_of_mem _ he))
          (RuntimeStore.activeWriters_apply hzero (hq event List.mem_cons_self))
    rw [← after_after]
    refine ⟨⟨fun events he => hs.undisturbed _ ?_, hidle _ _ hquiet hn.idle⟩, fun k m hk => ?_⟩
    · rw [after_after] at he
      exact schedule_after_subset t _ events he
    · exact hsub k m (hloses.1 k m hk)

theorem Still.stable (hs : Still p t) : t.store.stablePartitionRevision p ≠ none := by
  have hidle := hs.idle
  unfold RuntimeStore.partition at hidle
  unfold RuntimeStore.stablePartitionRevision
  cases hc : t.store.cache[p]? with
  | none => simp
  | some s =>
    rw [hc] at hidle
    simpa using hidle

end Tick

/-! ## The states of the recipients -/

theorem syncState_touch : (t.touch p).syncState q g = t.syncState q g := by
  simp only [Tick.syncState, Tick.touch, Std.ExtTreeMap.getElem?_alter, compare_eq_iff_eq]
  split
  · rename_i hp
    subst hp
    cases t.state.sync[p]? <;> simp
  · rfl

theorem syncState_setSyncState_self {st : SyncState} :
    (t.setSyncState p h st).syncState p h = some st := by
  simp [Tick.syncState, Tick.setSyncState]

theorem syncState_setSyncState_of_ne {st : SyncState} (hne : ¬ (q = p ∧ g = h)) :
    (t.setSyncState p h st).syncState q g = t.syncState q g := by
  simp only [Tick.syncState, Tick.setSyncState, Std.ExtTreeMap.getElem?_alter, compare_eq_iff_eq]
  split
  · rename_i hp
    subst hp
    have hg : h ≠ g := fun hg => hne ⟨rfl, hg.symm⟩
    cases t.state.sync[p]? <;> simp [Std.ExtTreeMap.getElem?_insert, hg]
  · rfl

/-- Retaining keeps the states that pass, of the one partition. -/
theorem syncState_retainRecipients {keep : NodeId → SyncState → Bool} :
    (retainRecipients p t keep).syncState q g =
      if q = p then (t.syncState q g).filter (keep g) else t.syncState q g := by
  simp only [Tick.syncState, retainRecipients, Std.ExtTreeMap.getElem?_alter, compare_eq_iff_eq,
    eq_comm (a := p)]
  split
  · rename_i hp
    subst hp
    cases t.state.sync[q]? with
    | none => rfl
    | some states => simp
  · rfl

/-! ## The batches -/

theorem lastSent_append {sent : List Sent} {b : Sent} :
    lastSent (sent ++ [b]) p h =
      if b.partition = p ∧ b.recipient = h then some (b, sent.length) else lastSent sent p h := by
  unfold lastSent
  rw [List.zipIdx_append, List.filter_append, Nat.zero_add]
  by_cases hb : b.partition = p ∧ b.recipient = h
  · simp [hb]
  · simp [hb]

/-- The last batch to a recipient is one of those sent to it. -/
theorem lastSent_spec {sent : List Sent} {b : Sent} {i : ℕ} (hl : lastSent sent p h = some (b, i)) :
    sent[i]? = some b ∧ b.partition = p ∧ b.recipient = h := by
  have hmem := List.mem_of_getLast? hl
  rw [List.mem_filter, List.mem_zipIdx_iff_getElem?] at hmem
  simpa using hmem

/-- The batch carries this mutation. -/
def Sent.Carries (b : Sent) (k : Key) (m : Mutation) : Prop := mutationToDomain k m ∈ b.records

/-- **The journal has been read for the batch** after `c` and up to
`pending`: each entry was seen, and what was stored under its key then is
carried. -/
def Sent.Read (b : Sent) (journal : Map ℕ Key) (c pending : ℕ) : Prop :=
  ∀ (r : ℕ) (k : Key), c < r → r ≤ pending → journal[r]? = some k →
    ∃ o, (r, k, o) ∈ b.reads ∧ ∀ m, o = some m → b.Carries k m

/-- Every record of the batch lies in the batch's partition. -/
def Sent.Proper (b : Sent) : Prop := ∀ record ∈ b.records, record.key.partition = b.partition

@[simp] theorem mutationToDomain_key (k : Key) (m : Mutation) : (mutationToDomain k m).key = k := by
  cases m <;> rfl

@[simp] theorem mutationToDomain_creationTimeMs (k : Key) (m : Mutation) :
    (mutationToDomain k m).creationTimeMs = m.version := by
  cases m <;> rfl

theorem mutationToDomain_inj {k k' : Key} {m m' : Mutation}
    (heq : mutationToDomain k m = mutationToDomain k' m') : k = k' ∧ m = m' := by
  cases m with
  | put record =>
    cases m' with
    | put record' =>
      cases record
      cases record'
      simp_all [mutationToDomain]
    | delete _ => simp [mutationToDomain] at heq
  | delete _ =>
    cases m' with
    | put _ => simp [mutationToDomain] at heq
    | delete _ => simpa [mutationToDomain] using heq

/-- The batch made of these records. -/
def batchOf (p : PartitionId) (h : NodeId) (records : List (Key × Mutation))
    (reads : List (ℕ × Key × Option Mutation)) : Sent :=
  ⟨p, h, records.map fun e => mutationToDomain e.1 e.2, reads⟩

theorem carries_batchOf {records : List (Key × Mutation)} {reads : List (ℕ × Key × Option Mutation)}
    {k : Key} {m : Mutation} : (batchOf p h records reads).Carries k m ↔ (k, m) ∈ records := by
  constructor
  · intro hc
    obtain ⟨e, he, heq⟩ := List.mem_map.mp hc
    obtain ⟨hk, hm⟩ := mutationToDomain_inj heq
    rwa [← hk, ← hm]
  · exact fun hm => List.mem_map.mpr ⟨(k, m), hm, rfl⟩

/-- Records stored in a partition make a proper batch. -/
theorem proper_batchOf {store : RuntimeStore} (hw : store.WellFormed)
    {records : List (Key × Mutation)} {reads : List (ℕ × Key × Option Mutation)}
    (hstored : ∀ e ∈ records, (store.partition p).records[e.1]? = some e.2) :
    (batchOf p h records reads).Proper := by
  intro record hr
  obtain ⟨e, he, rfl⟩ := List.mem_map.mp hr
  rw [mutationToDomain_key]
  exact hw.keys p e.1 e.2 (hstored e he)

/-- The greatest key of a partition all of whose records are applied. -/
theorem maxAppliedKeys_fold {records : List SyncRecord} :
    ∀ (keys : Map PartitionId Key) (key : Key), keys[p]? = some key →
      (∀ record ∈ records, record.key.partition = p) →
      (records.foldl (fun keys record => keys.alter record.key.partition fun
        | some key => some (if key < record.key then record.key else key)
        | none => some record.key) keys)[p]? =
      some ((records.map SyncRecord.key).foldl max key) := by
  induction records with
  | nil => exact fun keys key hkey _ => hkey
  | cons record records ih =>
    intro keys key hkey hp
    have hmax : (if key < record.key then record.key else key) = max key record.key := by
      rcases lt_or_ge key record.key with hlt | hge
      · rw [if_pos hlt, max_eq_right hlt.le]
      · rw [if_neg (not_lt.mpr hge), max_eq_left hge]
    refine ih _ (max key record.key) ?_ fun r hr => hp r (List.mem_cons_of_mem _ hr)
    dsimp only
    rw [hp record List.mem_cons_self, Std.ExtTreeMap.getElem?_alter_self, hkey]
    exact congrArg some hmax

/-- **The answer to a proper batch names its greatest key.** -/
theorem maxAppliedKeys_batchOf {records : List (Key × Mutation)}
    {reads : List (ℕ × Key × Option Mutation)} {key : Key}
    (hproper : (batchOf p h records reads).Proper)
    (hkey : (records.map Prod.fst).max? = some key) :
    (maxAppliedKeys (batchOf p h records reads).records)[p]? = some key := by
  cases records with
  | nil => cases hkey
  | cons e records =>
    have hkeys : (records.map fun e => mutationToDomain e.1 e.2).map SyncRecord.key =
        records.map Prod.fst := by simp
    rw [List.map_cons, List.max?_cons', Option.some_inj] at hkey
    rw [← hkey, ← hkeys]
    have he : (mutationToDomain e.1 e.2).key.partition = p :=
      hproper (mutationToDomain e.1 e.2) List.mem_cons_self
    refine maxAppliedKeys_fold (p := p) _ e.1 ?_ fun record hr =>
      hproper record (List.mem_cons_of_mem _ hr)
    dsimp only
    rw [he, Std.ExtTreeMap.getElem?_alter_self, mutationToDomain_key]
    rfl

@[simp] theorem pushBatch_sent {records : List (Key × Mutation)}
    {reads : List (ℕ × Key × Option Mutation)} :
    (t.pushBatch me p h records reads).sent = t.sent ++ [batchOf p h records reads] := rfl

/-! ## The pages -/

theorem getPartitionMutations_eq (store : RuntimeStore) (after : Option Key) :
    store.getPartitionMutations p n after = (store.partition p).records.pageAfter after n := by
  unfold RuntimeStore.getPartitionMutations RuntimeStore.partition
  cases store.cache[p]? with
  | none => simp [Map.pageAfter, default]
  | some s => rfl

theorem getPartitionChanges_eq (store : RuntimeStore) (cursor : ℕ) :
    store.getPartitionChanges p cursor n =
      match ((store.partition p).changes.pageAfter (some cursor) n).getLast? with
      | none => none
      | some last => some (last.1, ((store.partition p).changes.pageAfter (some cursor) n).filterMap
          fun e => (store.partition p).records[e.2]?.map fun m => (e.2, m)) := by
  unfold RuntimeStore.getPartitionChanges RuntimeStore.partition
  cases store.cache[p]? with
  | none =>
    have hnil : (default : PartitionStore).changes.pageAfter (some cursor) n = [] := by
      simp [Map.pageAfter, default]
    simp [hnil]
  | some s => rfl

/-- **What `sync_batch` does**: it reads a page, and sends it unless it is
empty. -/
theorem syncBatch_spec (me : Me) (p : PartitionId) (h : NodeId) (t : Tick) (after : Option Key) :
    (((t.after 1).records p).pageAfter after syncBatchSize = [] ∧
      syncBatch me p h t after = (none, t.after 1)) ∨
    ∃ last, (((t.after 1).records p).pageAfter after syncBatchSize).getLast? = some last ∧
      syncBatch me p h t after = (some last.1, (t.after 1).pushBatch me p h
        (((t.after 1).records p).pageAfter after syncBatchSize) []) := by
  unfold syncBatch
  simp only [getPartitionMutations_eq, Tick.interleave_eq_after, Tick.records]
  split
  · rename_i hnone
    exact Or.inl ⟨List.getLast?_eq_none_iff.mp hnone, rfl⟩
  · rename_i last hlast
    exact Or.inr ⟨last, hlast, rfl⟩

/-! ## The journal -/

namespace Tick

/-- A page of the journal. -/
def journalPage (t : Tick) (p : PartitionId) (cursor : ℕ) : List (ℕ × Key) :=
  (t.changes p).pageAfter (some cursor) syncBatchSize

/-- What is stored under the keys of a page. -/
def stored (t : Tick) (p : PartitionId) (page : List (ℕ × Key)) : List (Key × Mutation) :=
  page.filterMap fun e => (t.records p)[e.2]?.map fun m => (e.2, m)

/-- The entries of a page, with what is stored under their keys. -/
def seen (t : Tick) (p : PartitionId) (page : List (ℕ × Key)) : List (ℕ × Key × Option Mutation) :=
  page.map fun e => (e.1, e.2, (t.records p)[e.2]?)

theorem mem_stored {page : List (ℕ × Key)} {k : Key} {m : Mutation} :
    (k, m) ∈ t.stored p page ↔ (∃ r, (r, k) ∈ page) ∧ (t.records p)[k]? = some m := by
  simp only [stored, List.mem_filterMap, Option.map_eq_some_iff, Prod.mk.injEq]
  constructor
  · rintro ⟨e, he, m', hm, hk, rfl⟩
    exact ⟨⟨e.1, by rw [← hk]; exact he⟩, by rw [← hk]; exact hm⟩
  · rintro ⟨⟨r, hr⟩, hm⟩
    exact ⟨(r, k), hr, m, hm, rfl, rfl⟩

theorem mem_seen {page : List (ℕ × Key)} {r : ℕ} {k : Key} (hr : (r, k) ∈ page) :
    (r, k, (t.records p)[k]?) ∈ t.seen p page := List.mem_map.mpr ⟨(r, k), hr, rfl⟩

/-- The end of a schedule does not depend on how much of it has passed. -/
theorem finalRevision_after_one (t : Tick) : (t.after 1).finalRevision = t.finalRevision := by
  have hfold : (t.after 1).schedule.flatten.foldl RuntimeStore.apply (t.after 1).store =
      t.schedule.flatten.foldl RuntimeStore.apply t.store := by
    change t.schedule.tail.flatten.foldl RuntimeStore.apply
      ((t.schedule.headD []).foldl RuntimeStore.apply t.store) = _
    cases t.schedule with
    | nil => rfl
    | cons events rest => simp [List.foldl_append]
  exact congrArg RuntimeStore.nextRevision hfold

theorem nextRevision_le_final (hw : t.store.WellFormed) : t.store.nextRevision ≤ t.finalRevision :=
  ((RuntimeStore.Evolution.foldl _ RuntimeStore.evolution_apply t.schedule.flatten t.store hw).2
    ⟨0⟩).next

end Tick

/-- **What a batch of changes does**: it finds the journal exhausted, with
everything stored at the recipient, or it sends what is stored under the
entries after `c` and up to `last`. -/
inductive ChangeBatch (has : Key → Mutation → Prop) (me : Me) (p : PartitionId) (h : NodeId)
    (c : ℕ) (t : Tick) : Option (ℕ × Key) × Tick → Prop
  | exhausted (n : ℕ) (hdone : ∀ k m, ((t.after n).records p)[k]? = some m → has k m) :
      ChangeBatch has me p h c t (none, t.after n)
  | sends (n last : ℕ) (key : Key) (records : List (Key × Mutation))
      (reads : List (ℕ × Key × Option Mutation)) (hc : c < last)
      (hlast : last ≤ (t.after n).store.nextRevision)
      (hcovers : Covers ((t.after n).source p) has (batchOf p h records reads).Carries AllRead last)
      (hread : (batchOf p h records reads).Read ((t.after n).changes p) c last)
      (hproper : (batchOf p h records reads).Proper)
      (hkey : (records.map Prod.fst).max? = some key)
      (hreach : ∀ pending ≤ t.store.nextRevision,
        ((t.changes p).between c pending).length ≤ syncBatchSize →
          ∀ r, last < r → r ≤ pending → ((t.after n).changes p)[r]? = none) :
      ChangeBatch has me p h c t (some (last, key), (t.after n).pushBatch me p h records reads)

/-- One round of the loop. -/
theorem changeLoop_succ (me : Me) (p : PartitionId) (h : NodeId) (t : Tick) (fuel cursor : ℕ)
    (reads : List (ℕ × Key × Option Mutation)) :
    ((t.after 1).journalPage p cursor = [] ∧
      changeLoop me p h (fuel + 1) t cursor reads = (none, t.after 1)) ∨
    ∃ last, ((t.after 1).journalPage p cursor).getLast? = some last ∧
      (((t.after 1).stored p ((t.after 1).journalPage p cursor) = [] ∧
        changeLoop me p h (fuel + 1) t cursor reads =
          changeLoop me p h fuel (t.after 1) last.1
            (reads ++ (t.after 1).seen p ((t.after 1).journalPage p cursor))) ∨
      ∃ key, (((t.after 1).stored p ((t.after 1).journalPage p cursor)).map Prod.fst).max? =
          some key ∧
        changeLoop me p h (fuel + 1) t cursor reads =
          (some (last.1, key), (t.after 1).pushBatch me p h
            ((t.after 1).stored p ((t.after 1).journalPage p cursor))
            (reads ++ (t.after 1).seen p ((t.after 1).journalPage p cursor)))) := by
  have hchanges := getPartitionChanges_eq (p := p) (n := syncBatchSize) (t.after 1).store cursor
  rw [changeLoop]
  simp only [Tick.interleave_eq_after, hchanges]
  cases hl : (((t.after 1).store.partition p).changes.pageAfter (some cursor)
      syncBatchSize).getLast? with
  | none => exact Or.inl ⟨List.getLast?_eq_none_iff.mp hl, rfl⟩
  | some last =>
    refine Or.inr ⟨last, hl, ?_⟩
    dsimp only
    split
    · rename_i hmax
      refine Or.inl ⟨?_, rfl⟩
      exact List.map_eq_nil_iff.mp (List.max?_eq_none_iff.mp hmax)
    · rename_i key hmax
      exact Or.inr ⟨key, hmax, rfl⟩

section Journal

variable {has : Key → Mutation → Prop} {c cursor : ℕ} {last : ℕ × Key}

/-- What a page of the journal covers. -/
theorem covers_journalPage (hcovers : Covers (t.source p) has Nothing AllRead cursor)
    (hlast : (t.journalPage p cursor).getLast? = some last) :
    Covers (t.source p) has (fun k m => (k, m) ∈ t.stored p (t.journalPage p cursor)) AllRead
      last.1 :=
  (hcovers.changes hlast).mono (fun _ _ hm => hm) fun _ _ hm => Or.inr (Tick.mem_stored.mpr hm)

/-- The entries a page adds to those seen. -/
theorem mem_journalPage (hlast : (t.journalPage p cursor).getLast? = some last) {r : ℕ} {k : Key}
    (hr : cursor < r) (hle : r ≤ last.1) (hk : (t.changes p)[r]? = some k) :
    (r, k) ∈ t.journalPage p cursor :=
  Map.mem_pageAfter_of_le_last hlast hk (Map.after_some.mpr hr) hle

/-- The last entry of a page lies after the cursor, and no further than
the counter. -/
theorem last_journalPage (hw : t.store.WellFormed)
    (hlast : (t.journalPage p cursor).getLast? = some last) :
    cursor < last.1 ∧ last.1 ≤ t.store.nextRevision := by
  obtain ⟨hk, hafter⟩ := Map.mem_pageAfter (List.mem_of_getLast? hlast)
  exact ⟨Map.after_some.mp hafter, hw.journal p last.1 last.2 hk⟩

/-- **The loop of `sync_change_batch`.** The invariant is that nothing
after `c` and up to the cursor is stored any more, so that the cursor may
serve as the base. -/
theorem changeLoop_spec (fuel : ℕ) : ∀ (t : Tick) (cursor : ℕ)
    (reads : List (ℕ × Key × Option Mutation)), t.store.WellFormed →
    cursor ≤ t.store.nextRevision → t.finalRevision < cursor + fuel → c ≤ cursor →
    Covers (t.source p) has Nothing AllRead cursor →
    (∀ (r : ℕ) (k : Key), c < r → r ≤ cursor → (t.changes p)[r]? = some k → (r, k, none) ∈ reads) →
    ChangeBatch has me p h c t (changeLoop me p h fuel t cursor reads) := by
  induction fuel with
  | zero =>
    intro t cursor reads hw hcursor hfuel
    have hfinal := Tick.nextRevision_le_final hw
    omega
  | succ fuel ih =>
    intro t cursor reads hw hcursor hfuel hc hcovers hreads
    obtain ⟨hw₁, hev⟩ := t.evolution_after 1 hw
    have hcovers₁ : Covers ((t.after 1).source p) has Nothing AllRead cursor :=
      hcovers.evolve hcursor (hev p)
    have hold : ∀ (r : ℕ) (k : Key), c < r → r ≤ cursor →
        ((t.after 1).changes p)[r]? = some k → (r, k, none) ∈ reads :=
      fun r k hr hle hk => hreads r k hr hle ((hev p).old r k (hle.trans hcursor) hk)
    -- the range up to any number already passed has not grown
    have hrange : ∀ pending ≤ t.store.nextRevision, ∀ a, c ≤ a →
        (((t.after 1).changes p).between a pending).length ≤
          ((t.changes p).between c pending).length := fun pending hp a ha =>
      Map.length_between_le ha fun r k hr hk => (hev p).old r k (hr.trans hp) hk
    rcases changeLoop_succ me p h t fuel cursor reads with
      ⟨hnil, heq⟩ | ⟨last, hlast, hround⟩
    · rw [heq]
      exact .exhausted 1 fun k m hk => hcovers₁.done (by decide) hnil hk
    obtain ⟨hlt, hle⟩ := last_journalPage hw₁ hlast
    have hpage := covers_journalPage hcovers₁ hlast
    rcases hround with ⟨hnone, heq⟩ | ⟨key, hkey, heq⟩
    · -- nothing of the page is stored: the next round starts at its end
      rw [heq]
      rw [hnone] at hpage
      have hskip : Covers ((t.after 1).source p) has Nothing AllRead last.1 :=
        hpage.mono (fun _ _ hm => hm) fun _ _ hm => absurd hm List.not_mem_nil
      have hseen : ∀ (r : ℕ) (k : Key), c < r → r ≤ last.1 →
          ((t.after 1).changes p)[r]? = some k →
          (r, k, none) ∈ reads ++ (t.after 1).seen p ((t.after 1).journalPage p cursor) := by
        intro r k hr hrl hk
        rcases Nat.lt_or_ge cursor r with hcr | hcr
        · have hin := mem_journalPage hlast hcr hrl hk
          have hsome := Tick.mem_seen (t := t.after 1) (p := p) hin
          cases hrec : ((t.after 1).records p)[k]? with
          | none =>
            rw [hrec] at hsome
            exact List.mem_append_right _ hsome
          | some m =>
            have hm := Tick.mem_stored.mpr ⟨⟨r, hin⟩, hrec⟩
            rw [hnone] at hm
            exact absurd hm List.not_mem_nil
        · exact List.mem_append_left _ (hold r k hr hcr hk)
      have hfuel₁ : (t.after 1).finalRevision < last.1 + fuel := by
        rw [Tick.finalRevision_after_one]
        omega
      have hrest := ih (t.after 1) last.1 _ hw₁ hle hfuel₁ (by omega) hskip hseen
      generalize changeLoop me p h fuel (t.after 1) last.1 _ = result at hrest
      cases hrest with
      | exhausted n hdone =>
        rw [Tick.after_after] at hdone ⊢
        exact .exhausted _ hdone
      | sends n l key records reads hcl hll hcov hread hproper hkey hreach =>
        rw [Tick.after_after] at hll hcov hread hreach ⊢
        refine .sends _ l key records reads hcl hll hcov hread hproper hkey
          fun pending hp hlen => ?_
        exact hreach pending (hp.trans (hev p).next) ((hrange pending hp c le_rfl).trans hlen)
    · rw [heq]
      refine .sends 1 last.1 key _ _ (by omega) hle ?_ ?_ ?_ hkey ?_
      · exact hpage.mono (fun _ _ hm => hm) fun _ _ hm => Or.inr (carries_batchOf.mpr hm)
      · intro r k hr hrl hk
        rcases Nat.lt_or_ge cursor r with hcr | hcr
        · have hin := mem_journalPage hlast hcr hrl hk
          refine ⟨_, List.mem_append_right _ (Tick.mem_seen hin), fun m hm => ?_⟩
          exact carries_batchOf.mpr (Tick.mem_stored.mpr ⟨⟨r, hin⟩, hm⟩)
        · refine ⟨none, List.mem_append_left _ (hold r k hr hcr hk), fun m hm => ?_⟩
          cases hm
      · exact proper_batchOf hw₁ fun e he => (Tick.mem_stored.mp he).2
      · intro pending hp hlen r hr hrp
        exact Map.eq_none_of_page_reaches ((hrange pending hp cursor hc).trans hlen) hlast hr hrp

/-- **What `sync_change_batch` does** from a base that covers. -/
theorem syncChangeBatch_spec (me : Me) (h : NodeId) (hw : t.store.WellFormed)
    (hc : c ≤ t.store.nextRevision)
    (hcovers : Covers (t.source p) has Nothing AllRead c) :
    ChangeBatch has me p h c t (syncChangeBatch me p h t c) :=
  changeLoop_spec _ t c [] hw hc (by omega) le_rfl hcovers fun r k hr hle => by omega

end Journal

end Worker

end NoSqlStore
