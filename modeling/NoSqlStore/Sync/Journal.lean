import NoSqlStore.Sync.Tick
/-!
# What the journal of a partition shows

The journal is read page by page from a cursor, each page with what is
stored under the keys it names. Of a store that stays, the pages name
every entry after the cursor, whatever their sizes (`mem_readChanges`). A
key that holds another mutation than it did at a stable revision has an
entry after that revision, since its partition is covered from there by
what it held (`Coverage.Covers`), also when the partition was dropped and
has come back; so a reader that starts there is shown it
(`journal_is_complete`). `sync_change_batch` passes over the pages of which
nothing is stored; its cursor goes up in every round, so it ends
(`changeLoop_ends`), and it passes over nothing else
(`change_batch_skips_nothing`).
-/

namespace NoSqlStore

open Coverage Runs

namespace RuntimeStore

variable {store : RuntimeStore} {p : PartitionId} {k : Key} {m : Mutation} {r cursor amount : ℕ}

/-! ## Reading the journal -/

/-- Pages of the journal, one for each size, each from the last revision
of the one before: what they show, and the cursor after them. -/
def readChanges (store : RuntimeStore) (p : PartitionId) :
    List ℕ → ℕ → List (Key × Mutation) × ℕ
  | [], cursor => ([], cursor)
  | amount :: amounts, cursor =>
    match store.getPartitionChanges p cursor amount with
    | none => ([], cursor)
    | some (lastRevision, records) =>
      let rest := store.readChanges p amounts lastRevision
      (records ++ rest.1, rest.2)

/-- One page shows the entries up to its last one. -/
theorem getPartitionChanges_cases (hamount : 1 ≤ amount)
    (hk : (store.partition p).changes[r]? = some k) (hr : cursor < r) :
    ∃ last records, store.getPartitionChanges p cursor amount = some (last, records) ∧
      cursor < last ∧ (∃ key, (store.partition p).changes[last]? = some key) ∧
      (r ≤ last → ∀ m, (store.partition p).records[k]? = some m → (k, m) ∈ records) := by
  rw [Worker.getPartitionChanges_eq]
  cases hlast : ((store.partition p).changes.pageAfter (some cursor) amount).getLast? with
  | none =>
    -- an entry lies after the cursor, so the page has one
    have hnil := List.getLast?_eq_none_iff.mp hlast
    exact absurd (Map.after_some.mpr hr) (Map.not_after_of_pageAfter_nil hamount hnil hk)
  | some last =>
    obtain ⟨hentry, hafter⟩ := Map.mem_pageAfter (List.mem_of_getLast? hlast)
    refine ⟨_, _, rfl, Map.after_some.mp hafter, ⟨_, hentry⟩, fun hle m hm => ?_⟩
    have hin := Map.mem_pageAfter_of_le_last hlast hk (Map.after_some.mpr hr) hle
    refine List.mem_filterMap.mpr ⟨_, hin, ?_⟩
    simp [hm]

/-- **The pages show every entry after the cursor**, if there are as many
of them as entries. -/
theorem mem_readChanges {amounts : List ℕ} (hamounts : ∀ n ∈ amounts, 1 ≤ n)
    (henough : (store.partition p).changes.countAfter cursor ≤ amounts.length)
    (hk : (store.partition p).changes[r]? = some k) (hr : cursor < r)
    (hm : (store.partition p).records[k]? = some m) :
    (k, m) ∈ (store.readChanges p amounts cursor).1 := by
  induction amounts generalizing cursor with
  | nil =>
    -- the entry itself is counted, so there is a page left for it
    have hlt := Map.countAfter_lt hk hr
    rw [List.length_nil] at henough
    omega
  | cons amount amounts ih =>
    obtain ⟨last, records, hpage, hlt, ⟨key, hlast⟩, hshows⟩ :=
      getPartitionChanges_cases (hamounts amount List.mem_cons_self) hk hr
    simp only [readChanges, hpage]
    rcases Nat.lt_or_ge last r with hbeyond | hle
    · -- not on this page: the next cursor has fewer entries after it
      have hfewer := Map.countAfter_lt hlast hlt
      rw [List.length_cons] at henough
      exact List.mem_append_right _ (ih (fun n hn => hamounts n (List.mem_cons_of_mem _ hn))
        (by omega) hbeyond)
    · exact List.mem_append_left _ (hshows hle m hm)

/-! ## Completeness -/

/-- The operation prunes the partition up to `r` at most. -/
def Spares (p : PartitionId) (r : ℕ) : StoreOperation → Prop
  | .prunePartitionChanges q throughRevision => q = p → throughRevision ≤ r
  | .event _ | .removePartition _ => True

instance (p : PartitionId) (r : ℕ) : ∀ op, Decidable (Spares p r op)
  | .prunePartitionChanges q throughRevision =>
    inferInstanceAs (Decidable (q = p → throughRevision ≤ r))
  | .event _ | .removePartition _ => inferInstanceAs (Decidable True)

/-- The partition holds what `has` says, or has an entry after `r`. -/
def Journalled (p : PartitionId) (r : ℕ) (has : Key → Mutation → Prop) (store : RuntimeStore) :
    Prop :=
  store.WellFormed ∧ r ≤ store.nextRevision ∧ Covers (store.source p) has Nothing AllRead r

theorem Journalled.step {has : Key → Mutation → Prop} (h : Journalled p r has store)
    {op : StoreOperation} (hspares : Spares p r op) : Journalled p r has (store.operate op) := by
  obtain ⟨hw, hr, hcovers⟩ := h
  have hw' := wellFormed_operate hw op
  cases op with
  | event event =>
    obtain ⟨-, hev⟩ := evolution_apply store event hw
    exact ⟨hw', hr.trans (hev p).next, hcovers.evolve hr (hev p)⟩
  | removePartition q =>
    obtain ⟨-, hev⟩ := evolution_removePartition q hw
    exact ⟨hw', hr.trans (hev p).next, hcovers.evolve hr (hev p)⟩
  | prunePartitionChanges q through =>
    refine ⟨hw', hr, ?_⟩
    by_cases hq : q = p
    · subst hq
      have hsource : (store.prunePartitionChanges q through).source q =
          { store.source q with
            journal := (store.source q).journal.filter fun r _ => through < r } := by
        rw [source, partition_prune, if_pos rfl]
        rfl
      change Covers ((store.prunePartitionChanges q through).source q) has Nothing AllRead r
      rw [hsource]
      -- what is pruned lies at `r` or before, where nothing is owed
      exact hcovers.prune (hspares rfl)
    · have hsource : (store.prunePartitionChanges q through).source p = store.source p := by
        rw [source, partition_prune, if_neg hq]
        rfl
      change Covers ((store.prunePartitionChanges q through).source p) has Nothing AllRead r
      rw [hsource]
      exact hcovers

/-- **The journal is complete.** -/
theorem journal_is_complete (before after : List StoreOperation) (p : PartitionId) (r : ℕ)
    (hstable : (run operate default before).stablePartitionRevision p = some r)
    (hspares : ∀ op ∈ after, Spares p r op) (k : Key) (m : Mutation)
    (hstored : ((run operate default (before ++ after)).partition p).records[k]? = some m)
    (hnew : ((run operate default before).partition p).records[k]? ≠ some m) (amounts : List ℕ)
    (hamounts : ∀ n ∈ amounts, 1 ≤ n)
    (henough : ((run operate default (before ++ after)).partition p).changes.size ≤
      amounts.length) :
    (k, m) ∈ ((run operate default (before ++ after)).readChanges p amounts r).1 := by
  have hw := wellFormed_operations before
  have hstart : Journalled p r
      (fun k m => ((run operate default before).partition p).records[k]? = some m)
      (run operate default before) :=
    ⟨hw, stable_le hw hstable, fun k m hm => Or.inl hm⟩
  have hok : Along operate (fun _ op => Spares p r op) (run operate default before) after :=
    along_of_forall hspares
  have hend := run_inv (I := Journalled p r _) (fun _ _ h hspares => h.step hspares) hstart hok
  rw [← run_append] at hend
  obtain ⟨-, -, hcovers⟩ := hend
  -- held at `r` already, or journalled after it: nothing is outside or unread here
  rcases hcovers k m hstored with hwas | hout | hunread | ⟨r', hr', hk⟩
  · exact absurd hwas hnew
  · exact hout.elim
  · exact hunread.elim
  · exact mem_readChanges hamounts ((Map.countAfter_le_size _ _).trans henough) hk hr' hstored

/-- A record that expires. -/
def recreatedBefore : List StoreOperation := [.event (.put ⟨5⟩ ⟨10, 1, [1]⟩)]

/-- The journal is pruned up to the stable revision, an expired read drops
the partition, and two puts bring it back. -/
def recreatedAfter : List StoreOperation :=
  [.prunePartitionChanges ⟨5⟩ 1, .event (.getVersioned ⟨5⟩ 10), .event (.put ⟨4101⟩ ⟨0, 2, [2]⟩),
    .event (.put ⟨5⟩ ⟨0, 3, [3]⟩)]

theorem journal_is_complete_recreated :
    (run operate default (recreatedBefore ++ recreatedAfter.take 2)).cache[(⟨5⟩ : PartitionId)]? =
      none ∧
    ((⟨5⟩ : Key), Mutation.put ⟨0, 3, [3]⟩) ∈
      ((run operate default (recreatedBefore ++ recreatedAfter)).readChanges ⟨5⟩ [1, 1] 1).1 := by
  have hdropped : (run operate default
      (recreatedBefore ++ recreatedAfter.take 2)).cache[(⟨5⟩ : PartitionId)]?.isNone := by
    decide +kernel
  refine ⟨Option.isNone_iff_eq_none.mp hdropped, ?_⟩
  refine journal_is_complete recreatedBefore recreatedAfter ⟨5⟩ 1 ?_ ?_ ⟨5⟩ _ ?_ ?_ [1, 1] ?_ ?_
  all_goals decide +kernel

end RuntimeStore

/-! ## The loop of a batch of changes -/

namespace Worker

variable {me : Me} {p : PartitionId} {h : NodeId} {t : Tick} {c cursor fuel : ℕ}
  {reads : List (ℕ × Key × Option Mutation)} {result : Option (ℕ × Key) × Tick}

/-- **The loop of `sync_change_batch`**, without a bound on its rounds. -/
inductive ChangeLoop (me : Me) (p : PartitionId) (h : NodeId) :
    Tick → ℕ → List (ℕ × Key × Option Mutation) → Option (ℕ × Key) × Tick → Prop
  /-- The journal is exhausted. -/
  | exhausted {t : Tick} {cursor : ℕ} {reads : List (ℕ × Key × Option Mutation)}
      (hpage : t.interleave.store.getPartitionChanges p cursor syncBatchSize = none) :
      ChangeLoop me p h t cursor reads (none, t.interleave)
  /-- Nothing of the page is stored: the next page starts at its end. -/
  | skips {t : Tick} {cursor last : ℕ} {reads : List (ℕ × Key × Option Mutation)}
      {result : Option (ℕ × Key) × Tick}
      (hpage : t.interleave.store.getPartitionChanges p cursor syncBatchSize = some (last, []))
      (hrest : ChangeLoop me p h t.interleave last
        (reads ++ t.interleave.seen p (t.interleave.journalPage p cursor)) result) :
      ChangeLoop me p h t cursor reads result
  /-- What is stored of the page is sent. -/
  | sends {t : Tick} {cursor last : ℕ} {reads : List (ℕ × Key × Option Mutation)}
      {records : List (Key × Mutation)} {key : Key}
      (hpage : t.interleave.store.getPartitionChanges p cursor syncBatchSize =
        some (last, records))
      (hkey : (records.map Prod.fst).max? = some key) :
      ChangeLoop me p h t cursor reads (some (last, key), t.interleave.pushBatch me p h records
        (reads ++ t.interleave.seen p (t.interleave.journalPage p cursor)))

/-- The loop ends in one way. -/
theorem ChangeLoop.unique {result' : Option (ℕ × Key) × Tick}
    (hloop : ChangeLoop me p h t cursor reads result)
    (hloop' : ChangeLoop me p h t cursor reads result') : result = result' := by
  induction hloop with
  | exhausted hpage =>
    cases hloop' with
    | exhausted _ => rfl
    | skips hpage' _ => simp [hpage] at hpage'
    | sends hpage' _ => simp [hpage] at hpage'
  | skips hpage hrest ih =>
    cases hloop' with
    | exhausted hpage' => simp [hpage] at hpage'
    | skips hpage' hrest' =>
      rw [hpage] at hpage'
      cases hpage'
      exact ih hrest'
    | sends hpage' hkey =>
      rw [hpage] at hpage'
      cases hpage'
      cases hkey
  | sends hpage hkey =>
    cases hloop' with
    | exhausted hpage' => simp [hpage] at hpage'
    | skips hpage' _ =>
      rw [hpage] at hpage'
      cases hpage'
      cases hkey
    | sends hpage' hkey' =>
      rw [hpage] at hpage'
      cases hpage'
      rw [hkey] at hkey'
      cases hkey'
      rfl

/-- A page of the journal, as the loop reads it. -/
theorem getPartitionChanges_page (t : Tick) (p : PartitionId) (cursor : ℕ) :
    t.store.getPartitionChanges p cursor syncBatchSize =
      match (t.journalPage p cursor).getLast? with
      | none => none
      | some last => some (last.1, t.stored p (t.journalPage p cursor)) :=
  getPartitionChanges_eq t.store cursor

/-- **The loop ends.** The cursor goes up in every round, and no further
than the last revision of the schedule. -/
theorem changeLoop_ends (hw : t.store.WellFormed) (hpos : 0 < fuel)
    (hfuel : t.finalRevision < cursor + fuel) :
    ChangeLoop me p h t cursor reads (changeLoop me p h fuel t cursor reads) := by
  induction fuel generalizing t cursor reads with
  | zero => cases hpos
  | succ fuel ih =>
    obtain ⟨hw₁, -⟩ := t.evolution_after 1 hw
    -- the store may change before the page is read
    have hpage := getPartitionChanges_page t.interleave p cursor
    rcases changeLoop_succ me p h t fuel cursor reads with
      ⟨hnil, heq⟩ | ⟨last, hlast, hround⟩
    · rw [Tick.interleave_eq_after, hnil] at hpage
      rw [heq]
      exact .exhausted hpage
    rw [Tick.interleave_eq_after, hlast] at hpage
    rcases hround with ⟨hnone, heq⟩ | ⟨key, hkey, heq⟩
    · obtain ⟨hlt, hle⟩ := last_journalPage hw₁ hlast
      have hfinal : last.1 ≤ (t.after 1).finalRevision :=
        hle.trans (Tick.nextRevision_le_final hw₁)
      -- one round of the fuel is spent and the cursor has gone up
      have hend := Tick.finalRevision_after_one t
      rw [hnone] at hpage
      rw [heq]
      exact .skips hpage (ih hw₁ (by omega) (by rw [Tick.interleave_eq_after]; omega))
    · rw [heq]
      exact .sends hpage hkey

/-- No entry after `c` and up to the cursor has a key that is stored. -/
def Tick.Vanished (t : Tick) (p : PartitionId) (c cursor : ℕ) : Prop :=
  ∀ (r : ℕ) (k : Key), c < r → r ≤ cursor → (t.changes p)[r]? = some k → (t.records p)[k]? = none

/-- What is stored of a page is what is stored under the entries after `c`
and up to its last one. -/
theorem mem_stored_page {last : ℕ × Key} (hgone : t.Vanished p c cursor) (hc : c ≤ cursor)
    (hlast : (t.journalPage p cursor).getLast? = some last) {k : Key} {m : Mutation} :
    (k, m) ∈ t.stored p (t.journalPage p cursor) ↔
      (∃ r, c < r ∧ r ≤ last.1 ∧ (t.changes p)[r]? = some k) ∧ (t.records p)[k]? = some m := by
  rw [Tick.mem_stored]
  constructor
  · rintro ⟨⟨r, hr⟩, hm⟩
    obtain ⟨hk, hafter⟩ := Map.mem_pageAfter hr
    have hlt := Map.after_some.mp hafter
    exact ⟨⟨r, by omega, Map.le_last_of_mem_pageAfter hlast hr, hk⟩, hm⟩
  · rintro ⟨⟨r, hr, hle, hk⟩, hm⟩
    rcases Nat.lt_or_ge cursor r with hbeyond | hold
    · exact ⟨⟨r, mem_journalPage hlast hbeyond hle hk⟩, hm⟩
    · rw [hgone r k hr hold hk] at hm
      cases hm

/-- **The loop skips nothing**, where nothing is scheduled: the invariant
is that the entries it has passed have no key stored. -/
theorem ChangeLoop.spec (hloop : ChangeLoop me p h t cursor reads result)
    (hs : t.schedule = []) (hc : c ≤ cursor) (hgone : t.Vanished p c cursor) :
    match result.1 with
    | none => result.2 = t ∧ ∀ (r : ℕ) (k : Key), c < r → (t.changes p)[r]? = some k →
        (t.records p)[k]? = none
    | some (last, key) => c < last ∧ ∃ records reads',
        result.2 = t.pushBatch me p h records reads' ∧
        (records.map Prod.fst).max? = some key ∧
        ∀ (k : Key) (m : Mutation), (k, m) ∈ records ↔
          (∃ r, c < r ∧ r ≤ last ∧ (t.changes p)[r]? = some k) ∧ (t.records p)[k]? = some m := by
  induction hloop with
  | @exhausted t cursor reads hpage =>
    rw [Tick.interleave_of_nil hs] at hpage ⊢
    rw [getPartitionChanges_page] at hpage
    split at hpage
    · rename_i hlast
      refine ⟨rfl, fun r k hr hk => ?_⟩
      have hnil := List.getLast?_eq_none_iff.mp hlast
      have hle := Map.not_after_of_pageAfter_nil (by decide) hnil hk
      rw [Map.after_some, Nat.not_lt] at hle
      exact hgone r k hr hle hk
    · cases hpage
  | @skips t cursor last reads result hpage hrest ih =>
    rw [Tick.interleave_of_nil hs] at hpage ih
    rw [getPartitionChanges_page] at hpage
    split at hpage
    · cases hpage
    · rename_i entry hlast
      simp only [Option.some.injEq, Prod.mk.injEq] at hpage
      obtain ⟨rfl, hnone⟩ := hpage
      obtain ⟨-, hafter⟩ := Map.mem_pageAfter (List.mem_of_getLast? hlast)
      have hlt := Map.after_some.mp hafter
      refine ih hs (by omega) fun r k hr hle hk => ?_
      cases hm : (t.records p)[k]? with
      | none => rfl
      | some m =>
        -- stored, it would have been among the records of the page
        have hin := (mem_stored_page hgone hc hlast).mpr ⟨⟨r, hr, hle, hk⟩, hm⟩
        rw [hnone] at hin
        cases hin
  | @sends t cursor last reads records key hpage hkey =>
    rw [Tick.interleave_of_nil hs] at hpage ⊢
    rw [getPartitionChanges_page] at hpage
    split at hpage
    · cases hpage
    · rename_i entry hlast
      simp only [Option.some.injEq, Prod.mk.injEq] at hpage
      obtain ⟨rfl, rfl⟩ := hpage
      obtain ⟨-, hafter⟩ := Map.mem_pageAfter (List.mem_of_getLast? hlast)
      have hlt := Map.after_some.mp hafter
      exact ⟨by omega, _, _, rfl, hkey, fun k m => mem_stored_page hgone hc hlast⟩

/-- **A batch of changes ends and skips nothing.** -/
theorem change_batch_skips_nothing (ops : List StoreOperation) (t : Tick) (me : Me)
    (p : PartitionId) (h : NodeId) (afterRevision : ℕ) :
    let t := { t with store := Runs.run RuntimeStore.operate default ops, schedule := [] }
    let result := syncChangeBatch me p h t afterRevision
    (∀ result', ChangeLoop me p h t afterRevision [] result' ↔ result' = result) ∧
    (∀ last key, result.1 = some (last, key) → afterRevision < last ∧
      ∃ records : List (Key × Mutation),
        result.2.output = t.output ++
          [.syncBatch h ⟨me.id, records.map fun e => mutationToDomain e.1 e.2⟩] ∧
        (records.map Prod.fst).max? = some key ∧
        ∀ (k : Key) (m : Mutation), (k, m) ∈ records ↔
          (∃ r, afterRevision < r ∧ r ≤ last ∧ (t.changes p)[r]? = some k) ∧
            (t.records p)[k]? = some m) ∧
    (result.1 = none → result.2.output = t.output ∧
      ∀ (r : ℕ) (k : Key), afterRevision < r → (t.changes p)[r]? = some k →
        (t.records p)[k]? = none) := by
  intro t result
  have hw : t.store.WellFormed := RuntimeStore.wellFormed_operations ops
  have hends : ChangeLoop me p h t afterRevision [] result :=
    changeLoop_ends hw (Nat.succ_pos _) (by omega)
  have hspec := hends.spec (c := afterRevision) rfl le_rfl fun r k hr hle => by omega
  refine ⟨fun result' => ⟨fun hends' => hends'.unique hends, fun heq => heq ▸ hends⟩, ?_, ?_⟩
  · intro last key hresult
    rw [hresult] at hspec
    obtain ⟨hlt, records, reads, hpush, hkey, hmem⟩ := hspec
    exact ⟨hlt, records, by rw [hpush]; rfl, hkey, hmem⟩
  · intro hresult
    rw [hresult] at hspec
    obtain ⟨hsame, hnone⟩ := hspec
    exact ⟨by rw [hsame], hnone⟩

end Worker

end NoSqlStore
