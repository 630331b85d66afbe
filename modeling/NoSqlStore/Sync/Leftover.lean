import NoSqlStore.Sync.Rounds
/-!
# What is left to be sent

A recipient for which a record is left to be sent is not reported
complete. The record is one that is stored, beyond the page last sent or
under an entry of the journal that has not been read; writes during the
tick add records and entries, and only an expiry takes them away. `Owing`
is what the visits of a tick keep until the recipient's own round, and
that round ends without completing it (`Owing.not_completed`).
-/

namespace NoSqlStore

open Coverage

/-- The event expires a mutation of the partition. -/
def StoreEvent.expires (p : PartitionId) (m : Mutation) : StoreEvent → Bool
  | .getVersioned key nowMs | .removeEntry key nowMs => key.partition = p ∧ m.expired nowMs
  | .removeExpired nowMs => m.expired nowMs
  | _ => false

/-- Whether the event stores the mutation in the partition. -/
def StoreEvent.stores (p : PartitionId) (m : Mutation) : StoreEvent → Bool
  | .put key record => key.partition = p ∧ m = .put record
  | .deleteAt key deletionTimeMs => key.partition = p ∧ m = .delete deletionTimeMs
  | _ => false

namespace RuntimeStore

variable {store store' store'' : RuntimeStore} {p q : PartitionId} {events rest : List StoreEvent}

/-- **Nothing of the partition is lost**: what is stored stays stored, and
so do the entries of the journal under whose keys something is stored. -/
structure Keeps (p : PartitionId) (store store' : RuntimeStore) : Prop where
  records : ∀ k : Key, k ∈ (store.partition p).records → k ∈ (store'.partition p).records
  changes : ∀ (r : ℕ) (k : Key), k ∈ (store.partition p).records →
    (store.partition p).changes[r]? = some k → (store'.partition p).changes[r]? = some k

theorem Keeps.refl (store : RuntimeStore) : Keeps p store store :=
  ⟨fun _ hk => hk, fun _ _ _ hr => hr⟩

theorem Keeps.trans (h₁ : Keeps p store store') (h₂ : Keeps p store' store'') :
    Keeps p store store'' :=
  ⟨fun k hk => h₂.records k (h₁.records k hk),
    fun r k hk hr => h₂.changes r k (h₁.records k hk) (h₁.changes r k hk hr)⟩

theorem Keeps.of_eq (hrecords : (store'.partition p).records = (store.partition p).records)
    (hchanges : (store'.partition p).changes = (store.partition p).changes) :
    Keeps p store store' :=
  ⟨fun _ hk => hrecords ▸ hk, fun _ _ _ hr => hchanges ▸ hr⟩

theorem Keeps.of_partition_eq (h : store'.partition p = store.partition p) :
    Keeps p store store' := .of_eq (by rw [h]) (by rw [h])

theorem mem_compareInsert {records : Map Key Mutation} {key k : Key} {mutation : Mutation}
    (hk : k ∈ records) : k ∈ compareInsert records key mutation := by
  unfold compareInsert
  split
  · split
    · exact Std.ExtTreeMap.mem_insert.mpr (Or.inr hk)
    · exact hk
  · exact Std.ExtTreeMap.mem_insert.mpr (Or.inr hk)

/-- A write adds. Its entry of the journal takes a number no other has. -/
theorem keeps_applyMutation (hw : WellFormed store) (key : Key) (mutation : Mutation) :
    Keeps p store (store.applyMutation key mutation) := by
  by_cases hp : key.partition = p
  · have hpart : (store.applyMutation key mutation).partition p =
        { store.partition p with
          records := compareInsert (store.partition p).records key mutation
          changes := (store.partition p).changes.insert (store.nextRevision + 1) key
          revision := store.nextRevision + 1 } := by
      rw [partition_applyMutation, if_pos hp]
    refine ⟨fun k hk => ?_, fun r k _ hr => ?_⟩
    · rw [hpart]
      exact mem_compareInsert hk
    · have hle := hw.journal p r k hr
      have hne : ¬ compare (store.nextRevision + 1) r = .eq := by
        rw [compare_eq_iff_eq]
        omega
      rw [hpart]
      dsimp only
      rw [Std.ExtTreeMap.getElem?_insert, if_neg hne]
      exact hr
  · refine .of_partition_eq ?_
    rw [partition_applyMutation, if_neg hp]

theorem keeps_enterWriter (q : PartitionId) : Keeps p store (store.enterWriter q) := by
  have hpart : ((store.enterWriter q).partition p).records = (store.partition p).records ∧
      ((store.enterWriter q).partition p).changes = (store.partition p).changes := by
    rw [enterWriter, partition_modify, partition]
    split
    · cases store.cache[p]? <;> exact ⟨rfl, rfl⟩
    · exact ⟨rfl, rfl⟩
  exact .of_eq hpart.1 hpart.2

/-- A partition that is removed because it is empty loses nothing. -/
theorem keeps_removePartitionIfEmpty (q : PartitionId) :
    Keeps p store (store.removePartitionIfEmpty q) := by
  by_cases hq : q = p
  · subst hq
    unfold removePartitionIfEmpty
    split
    · rename_i hempty
      have hnone : ∀ k : Key, k ∉ (store.partition q).records := by
        intro k hk
        rw [partition] at hk
        cases hc : store.cache[q]? with
        | none =>
          rw [hc] at hempty
          cases hempty
        | some s =>
          rw [hc] at hempty hk
          have hrecords : s.records = ∅ := by simpa using hempty
          rw [Option.getD_some, hrecords] at hk
          exact Std.ExtTreeMap.not_mem_empty hk
      exact ⟨fun k hk => absurd hk (hnone k), fun r k hk => absurd hk (hnone k)⟩
    · exact .refl store
  · exact .of_partition_eq (partition_removePartitionIfEmpty_of_ne hq)

/-- A scan that finds nothing expired in the partition. -/
theorem keeps_removeExpiredOf (hw : WellFormed store) {nowMs : ℕ}
    (hlive : ∀ (k : Key) (m : Mutation), (store.partition p).records[k]? = some m →
      m.expired nowMs = false) (q : PartitionId) :
    Keeps p store (store.removeExpiredOf q nowMs) := by
  have hfold : Keeps p store (((store.partition q).records.toList.filter fun e =>
      e.2.expired nowMs).foldl (fun store e => store.expire e.1 nowMs) store) := by
    by_cases hq : q = p
    · subst hq
      have hnil : ((store.partition q).records.toList.filter fun e => e.2.expired nowMs) = [] := by
        refine List.filter_eq_nil_iff.mpr fun e he => ?_
        rw [hlive e.1 e.2 (Map.mem_toList.mp he)]
        exact Bool.false_ne_true
      rw [hnil]
      exact .refl store
    · -- the keys found lie in the partition scanned, which is another one
      have hkeys : ∀ e ∈ (store.partition q).records.toList.filter fun e => e.2.expired nowMs,
          e.1.partition ≠ p := by
        intro e he heq
        have hin := hw.keys q e.1 e.2 (Map.mem_toList.mp (List.mem_filter.mp he).1)
        exact hq (hin.symm.trans heq)
      generalize (store.partition q).records.toList.filter _ = l at hkeys
      clear hw hlive
      induction l generalizing store with
      | nil => exact .refl store
      | cons e l ih =>
        have hfirst : Keeps p store (store.expire e.1 nowMs) :=
          .of_partition_eq (partition_expire_of_ne (hkeys e List.mem_cons_self))
        exact hfirst.trans (ih fun e' he' => hkeys e' (List.mem_cons_of_mem _ he'))
  exact hfold.trans (keeps_removePartitionIfEmpty q)

theorem keeps_removeExpired (hw : WellFormed store) {nowMs : ℕ}
    (hlive : ∀ (k : Key) (m : Mutation), (store.partition p).records[k]? = some m →
      m.expired nowMs = false) : Keeps p store (store.removeExpired nowMs) := by
  unfold removeExpired
  generalize store.cache.keys = l
  induction l generalizing store with
  | nil => exact .refl store
  | cons q l ih =>
    have hloses := loses_removeExpiredOf (p := p) hw q nowMs
    refine (keeps_removeExpiredOf hw hlive q).trans (ih (evolution_removeExpiredOf q nowMs hw).1 ?_)
    exact fun k m hk => hlive k m (hloses.1 k m hk)

/-- **An event that expires nothing stored in the partition keeps it.** -/
theorem keeps_apply (hw : WellFormed store) {event : StoreEvent}
    (hlive : ∀ (k : Key) (m : Mutation), (store.partition p).records[k]? = some m →
      event.expires p m = false) : Keeps p store (store.apply event) := by
  cases event with
  | put key record => exact keeps_applyMutation hw key _
  | deleteAt key deletionTimeMs => exact keeps_applyMutation hw key _
  | getVersioned key nowMs =>
    simp only [apply, getVersioned]
    split
    · rename_i m hm
      split
      · rename_i hexpired
        have hne : key.partition ≠ p := by
          rintro rfl
          have hnot := hlive key m hm
          simp [StoreEvent.expires, hexpired] at hnot
        exact (Keeps.of_partition_eq (partition_expire_of_ne hne)).trans
          (keeps_removePartitionIfEmpty _)
      · exact .refl store
    · exact .refl store
  | removeExpired nowMs => exact keeps_removeExpired hw hlive
  | enterWriter q => exact keeps_enterWriter q
  | removeEntry key nowMs =>
    refine .of_partition_eq ((partition_removeEntry key nowMs).trans (if_neg ?_))
    rintro ⟨rfl, hany⟩
    obtain ⟨m, hm, hexpired⟩ := (Option.any_eq_true _ _).mp hany
    have hnot := hlive key m hm
    simp [StoreEvent.expires, hexpired] at hnot
  | dropWriter q =>
    obtain ⟨hrecords, hchanges, -⟩ := partition_dropWriter store q p
    exact .of_eq hrecords hchanges
  | removePartitionIfEmpty q => exact keeps_removePartitionIfEmpty q

theorem stored_compareInsert {records : Map Key Mutation} {key k : Key} {mutation m : Mutation}
    (hk : (compareInsert records key mutation)[k]? = some m) :
    records[k]? = some m ∨ m = mutation := by
  by_cases hne : key = k
  · subst hne
    unfold compareInsert at hk
    split at hk
    · split at hk
      · rw [Std.ExtTreeMap.getElem?_insert_self, Option.some_inj] at hk
        exact Or.inr hk.symm
      · exact Or.inl hk
    · rw [Std.ExtTreeMap.getElem?_insert_self, Option.some_inj] at hk
      exact Or.inr hk.symm
  · rw [getElem?_compareInsert hne] at hk
    exact Or.inl hk

/-- What is stored after an event was stored before it, or by it. -/
theorem stored_apply (hw : WellFormed store) {event : StoreEvent} {k : Key} {m : Mutation}
    (hk : ((store.apply event).partition p).records[k]? = some m) :
    (store.partition p).records[k]? = some m ∨ event.stores p m = true := by
  have hwrite : ∀ (key : Key) (mutation : Mutation), key.partition = p →
      ((store.applyMutation key mutation).partition p).records[k]? = some m →
      (store.partition p).records[k]? = some m ∨ m = mutation := by
    intro key mutation hp hm
    rw [partition_applyMutation, if_pos hp] at hm
    exact stored_compareInsert hm
  by_cases hwrites : event.writes p = true
  · cases event with
    | put key record =>
      have hp : key.partition = p := by simpa [StoreEvent.writes] using hwrites
      exact (hwrite key _ hp hk).imp_right fun hm => by simp [StoreEvent.stores, hp, hm]
    | deleteAt key deletionTimeMs =>
      have hp : key.partition = p := by simpa [StoreEvent.writes] using hwrites
      exact (hwrite key _ hp hk).imp_right fun hm => by simp [StoreEvent.stores, hp, hm]
    | _ => cases hwrites
  · rw [Bool.not_eq_true] at hwrites
    exact Or.inl ((loses_apply hw hwrites).1 k m hk)

/-- **No record of the partition expires in the course of the events**,
neither one that is stored nor one that they store. -/
structure Lasting (p : PartitionId) (store : RuntimeStore) (events : List StoreEvent) : Prop where
  stored : ∀ (k : Key) (m : Mutation), (store.partition p).records[k]? = some m →
    ∀ event ∈ events, event.expires p m = false
  written : ∀ event ∈ events, ∀ m, event.stores p m = true →
    ∀ event' ∈ events, event'.expires p m = false

theorem Lasting.apply {event : StoreEvent} (hl : Lasting p store (event :: events))
    (hw : WellFormed store) : Lasting p (store.apply event) events := by
  refine ⟨fun k m hk e he => ?_, fun e he m hm e' he' => ?_⟩
  · rcases stored_apply hw hk with hbefore | hby
    · exact hl.stored k m hbefore e (List.mem_cons_of_mem _ he)
    · exact hl.written event List.mem_cons_self m hby e (List.mem_cons_of_mem _ he)
  · exact hl.written e (List.mem_cons_of_mem _ he) m hm e' (List.mem_cons_of_mem _ he')

/-- **Events in whose course nothing expires keep the partition.** -/
theorem Lasting.foldl (hl : Lasting p store (events ++ rest)) (hw : WellFormed store) :
    Keeps p store (events.foldl RuntimeStore.apply store) ∧
      Lasting p (events.foldl RuntimeStore.apply store) rest := by
  induction events generalizing store with
  | nil => exact ⟨.refl store, hl⟩
  | cons event events ih =>
    have hkeeps := keeps_apply hw fun k m hk => hl.stored k m hk event List.mem_cons_self
    obtain ⟨hrest, hlast⟩ := ih (hl.apply hw) (evolution_apply store event hw).1
    exact ⟨hkeeps.trans hrest, hlast⟩

end RuntimeStore

namespace Worker

variable {me : Me} {p q : PartitionId} {h g : NodeId} {t t' : Tick} {st : SyncState} {c n : ℕ}

/-- An entry of the journal after `c` under whose key something is stored. -/
def Unsent (s : PartitionStore) (c : ℕ) : Prop :=
  ∃ k ∈ s.records, ∃ r, c < r ∧ s.changes[r]? = some k

/-- **Something is left to be sent to a recipient**: if no synchronisation
is under way, any record; if its last batch is confirmed, a record the
page has not reached, or one of the journal after it; and an unconfirmed
batch is itself awaited. -/
def Owes (s : PartitionStore) : Option SyncState → Prop
  | none => ∃ k, k ∈ s.records
  | some st => st.confirmed = true →
      (∃ k ∈ s.records, st.Unread k) ∨ Unsent s st.phase.pendingRevision

instance (st : SyncState) : DecidablePred st.Unread := fun k =>
  match hphase : st.phase with
  | .snapshot _ => decidable_of_iff (st.currMaxKey < k) (by simp [SyncState.Unread, hphase])
  | .changes _ _ => isFalse (by simp [SyncState.Unread, hphase, AllRead])

instance (s : PartitionStore) (c : ℕ) : Decidable (Unsent s c) :=
  decidable_of_iff (∃ k ∈ s.records.keys, ∃ e ∈ s.changes.toList, c < e.1 ∧ e.2 = k)
    ⟨fun ⟨k, hk, e, he, hr, heq⟩ => ⟨k, Std.ExtTreeMap.mem_keys.mp hk, e.1, hr,
        heq ▸ Map.mem_toList.mp he⟩,
      fun ⟨k, hk, r, hr, he⟩ => ⟨k, Std.ExtTreeMap.mem_keys.mpr hk, (r, k),
        Map.mem_toList.mpr he, hr, rfl⟩⟩

instance (s : PartitionStore) : DecidablePred (Owes s)
  | none => decidable_of_iff (∃ k ∈ s.records.keys, True) (by simp [Owes])
  | some st => decidable_of_iff (st.confirmed = true →
      (∃ k ∈ s.records.keys, st.Unread k) ∨ Unsent s st.phase.pendingRevision)
      (imp_congr_right fun _ => or_congr_left (exists_congr fun _ =>
        and_congr_left fun _ => Std.ExtTreeMap.mem_keys))

theorem Unsent.keeps {store store' : RuntimeStore} (hu : Unsent (store.partition p) c)
    (hk : store.Keeps p store') : Unsent (store'.partition p) c := by
  obtain ⟨k, hmem, r, hr, hentry⟩ := hu
  exact ⟨k, hk.records k hmem, r, hr, hk.changes r k hmem hentry⟩

theorem Owes.keeps {store store' : RuntimeStore} {o : Option SyncState}
    (ho : Owes (store.partition p) o) (hk : store.Keeps p store') :
    Owes (store'.partition p) o := by
  cases o with
  | none =>
    obtain ⟨k, hmem⟩ := ho
    exact ⟨k, hk.records k hmem⟩
  | some st =>
    intro hconfirmed
    rcases ho hconfirmed with ⟨k, hmem, hunread⟩ | hunsent
    · exact Or.inl ⟨k, hk.records k hmem, hunread⟩
    · exact Or.inr (hunsent.keeps hk)

/-- What is awaited is owed. -/
theorem owes_of_waiting {s : PartitionStore} {o : Option SyncState} (ho : o = some st)
    (hc : st.confirmed = false) : Owes s o := by
  subst ho
  intro hconfirmed
  rw [hc] at hconfirmed
  cases hconfirmed

/-- **The recipient is owed a record, and keeps being owed one until its
round**: nothing of the partition expires in what is still scheduled. -/
structure Owing (p : PartitionId) (h : NodeId) (t : Tick) : Prop where
  wellFormed : t.store.WellFormed
  lasting : t.store.Lasting p t.schedule.flatten
  connected : h ∈ t.state.nodes
  owes : Owes (t.store.partition p) (t.syncState p h)
  uncompleted : (p, h) ∉ completions t.trace

/-- The slots of a schedule in which nothing expires keep the partition. -/
theorem keeps_after (hw : t.store.WellFormed) (hl : t.store.Lasting p t.schedule.flatten) (n : ℕ) :
    t.store.Keeps p (t.after n).store ∧
      (t.after n).store.Lasting p (t.after n).schedule.flatten := by
  induction n with
  | zero => exact ⟨.refl _, hl⟩
  | succ n ih =>
    obtain ⟨hkeeps, hlast⟩ := ih
    have hw₁ := (t.evolution_after n hw).1
    rw [← Tick.after_after]
    change t.store.Keeps p (((t.after n).schedule.headD []).foldl RuntimeStore.apply
        (t.after n).store) ∧ RuntimeStore.Lasting p (((t.after n).schedule.headD []).foldl
          RuntimeStore.apply (t.after n).store) (t.after n).schedule.tail.flatten
    generalize (t.after n).schedule = schedule at hlast
    cases schedule with
    | nil => exact ⟨hkeeps, hlast⟩
    | cons events rest =>
      obtain ⟨hmore, hrest⟩ := RuntimeStore.Lasting.foldl hlast hw₁
      exact ⟨hkeeps.trans hmore, hrest⟩

/-- A round for any recipient keeps what is owed to this one, if its own
state is none the better for it. -/
theorem Owing.frame (ho : Owing p h t) (hf : Frame q g t t')
    (hsync : t'.syncState p h = t.syncState p h ∨
      ∃ st, t'.syncState p h = some st ∧ st.confirmed = false) : Owing p h t' := by
  obtain ⟨n, hpassed⟩ := hf.passed
  obtain ⟨hkeeps, hlast⟩ := keeps_after ho.wellFormed ho.lasting n
  rw [← hpassed.store] at hkeeps
  rw [← hpassed.store, ← hpassed.schedule] at hlast
  refine ⟨(hpassed.evolution ho.wellFormed).1, hlast, hf.nodes ▸ ho.connected, ?_, ?_⟩
  · rcases hsync with hsame | ⟨st, hst, hc⟩
    · rw [hsame]
      exact ho.owes.keeps hkeeps
    · exact owes_of_waiting hst hc
  · rw [completions_of_grows hpassed.trace]
    exact ho.uncompleted

theorem Owing.after (ho : Owing p h t) (n : ℕ) : Owing p h (t.after n) :=
  ho.frame (frame_after (p := p) (h := h) t n) (Or.inl (Tick.syncState_after t n))

/-! ## The recipient's own round -/

/-- **A batch of changes is found.** Each page that holds nothing stored
lies before the entry that does, so the loop reaches it before its rounds
are used up. -/
theorem changeLoop_finds (fuel : ℕ) : ∀ (t : Tick) (cursor : ℕ)
    (reads : List (ℕ × Key × Option Mutation)), t.store.WellFormed →
    (∀ n, (t.after n).store.Keeps p (t.after (n + 1)).store) →
    Unsent (t.store.partition p) cursor →
    t.finalRevision < cursor + fuel → (changeLoop me p h fuel t cursor reads).1 ≠ none := by
  induction fuel with
  | zero =>
    intro t cursor reads hw hkeeps hu hfuel
    obtain ⟨k, -, r, hr, hentry⟩ := hu
    have hle := hw.journal p r k hentry
    have hfinal := Tick.nextRevision_le_final hw
    omega
  | succ fuel ih =>
    intro t cursor reads hw hkeeps hu hfuel
    have hw₁ := (t.evolution_after 1 hw).1
    have hkeeps₁ : ∀ n, ((t.after 1).after n).store.Keeps p ((t.after 1).after (n + 1)).store := by
      intro n
      rw [Tick.after_after, Tick.after_after, ← Nat.add_assoc]
      exact hkeeps (1 + n)
    obtain ⟨k, hmem, r, hr, hentry⟩ := hu.keeps (hkeeps 0)
    rcases changeLoop_succ me p h t fuel cursor reads with
      ⟨hnil, -⟩ | ⟨last, hpage, ⟨hnone, heq⟩ | ⟨key, -, heq⟩⟩
    · have hafter := Map.not_after_of_pageAfter_nil (by decide) hnil hentry
      exact absurd (Map.after_some.mpr hr) hafter
    · -- the entry is not on the page, so it lies beyond it
      have hbeyond : last.1 < r := by
        by_contra hle
        have hin := mem_journalPage hpage hr (not_lt.mp hle) hentry
        obtain ⟨m, hm⟩ := Option.isSome_iff_exists.mp
          (Std.ExtTreeMap.mem_iff_isSome_getElem?.mp hmem)
        have hstored := Tick.mem_stored.mpr ⟨⟨r, hin⟩, hm⟩
        rw [hnone] at hstored
        exact absurd hstored List.not_mem_nil
      obtain ⟨hlt, -⟩ := last_journalPage hw₁ hpage
      rw [heq]
      refine ih _ _ _ hw₁ hkeeps₁ ⟨k, hmem, r, hbeyond, hentry⟩ ?_
      rw [Tick.finalRevision_after_one]
      omega
    · rw [heq]
      exact Option.some_ne_none _

theorem continueChanges_waits (hw : t.store.WellFormed)
    (hl : t.store.Lasting p t.schedule.flatten) (hu : Unsent (t.store.partition p) c)
    (me : Me) (h : NodeId) (st : SyncState) :
    (continueChanges me p h t st c).1 = false ∧
      ∃ st', (continueChanges me p h t st c).2.syncState p h = some st' ∧
        st'.confirmed = false := by
  have hkeeps : ∀ n, (t.after n).store.Keeps p (t.after (n + 1)).store := by
    intro n
    have hlast := (keeps_after hw hl n).2
    rw [← Tick.after_after]
    exact (keeps_after (t.evolution_after n hw).1 hlast 1).1
  have hfinds : (syncChangeBatch me p h t c).1 ≠ none :=
    changeLoop_finds _ t c [] hw hkeeps hu (by omega)
  unfold continueChanges
  generalize syncChangeBatch me p h t c = batch at hfinds
  obtain ⟨_ | key, t₁⟩ := batch
  · exact absurd rfl hfinds
  · exact ⟨rfl, _, syncState_setSyncState_self, rfl⟩

/-- A page is found where something is stored after the cursor. -/
theorem syncBatch_finds {after : Option Key} {k : Key} (me : Me) (h : NodeId)
    (hmem : k ∈ (t.after 1).records p) (hafter : Map.After after k) :
    ∃ last, syncBatch me p h t after = (some last, (syncBatch me p h t after).2) := by
  rcases syncBatch_spec me p h t after with ⟨hnil, -⟩ | ⟨last, -, heq⟩
  · obtain ⟨m, hm⟩ := Option.isSome_iff_exists.mp (Std.ExtTreeMap.mem_iff_isSome_getElem?.mp hmem)
    exact absurd hafter (Map.not_after_of_pageAfter_nil (by decide) hnil hm)
  · rw [heq]
    exact ⟨last.1, rfl⟩

theorem startSync_waits (ho : Owing p h t) (hst : t.syncState p h = none) (me : Me) :
    (startSync me p h t).1 = false ∧ ((startSync me p h t).2.syncState p h = t.syncState p h ∨
      ∃ st, (startSync me p h t).2.syncState p h = some st ∧ st.confirmed = false) := by
  have ho₁ := (ho.after 1).after 1
  unfold startSync
  simp only [Tick.interleave_eq_after]
  cases (t.after 1).store.stablePartitionRevision p with
  | none => exact ⟨rfl, Or.inl (Tick.syncState_after t 1)⟩
  | some revision =>
    have howes := ho₁.owes
    rw [Tick.syncState_after, Tick.syncState_after, hst] at howes
    obtain ⟨k, hmem⟩ := howes
    obtain ⟨last, heq⟩ := syncBatch_finds (t := t.after 1) me h hmem (Map.after_none k)
    rw [heq]
    exact ⟨rfl, Or.inr ⟨_, syncState_setSyncState_self, rfl⟩⟩

theorem continueConfirmedSync_waits (ho : Owing p h t) (hst : t.syncState p h = some st)
    (hconfirmed : st.confirmed = true) (me : Me) :
    (continueConfirmedSync me p h t st).1 = false ∧
      ∃ st', (continueConfirmedSync me p h t st).2.syncState p h = some st' ∧
        st'.confirmed = false := by
  have howes := ho.owes
  have howes₁ := (ho.after 1).owes
  rw [Tick.syncState_after] at howes₁
  rw [hst] at howes howes₁
  have hleft := howes hconfirmed
  have hleft₁ := howes₁ hconfirmed
  unfold continueConfirmedSync
  cases hphase : st.phase with
  | changes confirmed pending =>
    simp only [SyncState.Unread, SyncPhase.pendingRevision, hphase, AllRead] at hleft
    have hunsent : Unsent (t.store.partition p) pending := by simpa using hleft
    exact continueChanges_waits ho.wellFormed ho.lasting hunsent me h st
  | snapshot revision =>
    simp only [SyncState.Unread, SyncPhase.pendingRevision, hphase] at hleft₁
    -- the page is found, or all that is left is in the journal
    rcases syncBatch_spec me p h t (some st.currMaxKey) with ⟨hnil, heq⟩ | ⟨last, -, heq⟩
    · have hunsent : Unsent ((t.after 1).store.partition p) revision := by
        rcases hleft₁ with ⟨k, hmem, hunread⟩ | hunsent
        · obtain ⟨m, hm⟩ := Option.isSome_iff_exists.mp
            (Std.ExtTreeMap.mem_iff_isSome_getElem?.mp hmem)
          have hafter := Map.not_after_of_pageAfter_nil (by decide) hnil hm
          exact absurd (Map.after_some.mpr hunread) hafter
        · exact hunsent
      simp only [heq]
      exact continueChanges_waits (ho.after 1).wellFormed (ho.after 1).lasting hunsent me h st
    · simp only [heq]
      exact ⟨trivial, _, syncState_setSyncState_self, rfl⟩

theorem state_syncBatch (me : Me) (p : PartitionId) (h : NodeId) (t : Tick) (after : Option Key) :
    (syncBatch me p h t after).2.state = t.state := by
  rcases syncBatch_spec me p h t after with ⟨-, heq⟩ | ⟨last, -, heq⟩
  · rw [heq]
    exact Tick.after_state t 1
  · rw [heq]
    exact Tick.after_state t 1

theorem state_changeLoop (fuel : ℕ) : ∀ (t : Tick) (cursor : ℕ)
    (reads : List (ℕ × Key × Option Mutation)),
    (changeLoop me p h fuel t cursor reads).2.state = t.state := by
  induction fuel with
  | zero => exact fun t _ _ => rfl
  | succ fuel ih =>
    intro t cursor reads
    rcases changeLoop_succ me p h t fuel cursor reads with
      ⟨-, heq⟩ | ⟨last, -, ⟨-, heq⟩ | ⟨key, -, heq⟩⟩
    · rw [heq]
      exact Tick.after_state t 1
    · rw [heq, ih]
      exact Tick.after_state t 1
    · rw [heq]
      exact Tick.after_state t 1

theorem state_reread (me : Me) (p : PartitionId) (h : NodeId) (t : Tick) (st : SyncState) :
    (reread me p h st t).2.state = t.state := by
  unfold reread
  cases st.phase with
  | snapshot revision => exact state_syncBatch me p h t st.prevMaxKey
  | changes confirmed pending => exact state_changeLoop _ t confirmed []

theorem syncState_of_state (hstate : t'.state = t.state) : t'.syncState p h = t.syncState p h := by
  rw [Tick.syncState, hstate]
  rfl

/-- A batch that is sent again is awaited as the one it replaces. -/
theorem retryTimedOutSync_waits (hst : t.syncState p h = some st)
    (hconfirmed : st.confirmed = false) (me : Me) :
    ∃ st', (retryTimedOutSync me p h t st).syncState p h = some st' ∧ st'.confirmed = false := by
  rw [retryTimedOutSync_eq]
  split
  · exact ⟨st, hst, hconfirmed⟩
  · have hstate := state_reread me p h (t.now.2.log (.timedOut p h st.phase (t.now.2.changes p))) st
    generalize reread me p h st _ = read at hstate
    obtain ⟨_ | key, t₁⟩ := read
    · exact ⟨st, (syncState_of_state hstate).trans hst, hconfirmed⟩
    · exact ⟨_, syncState_setSyncState_self, rfl⟩

/-- **The round of a recipient that is owed something does not complete
it**, and leaves it owed. -/
theorem Owing.round (ho : Owing p h t) (me : Me) :
    (syncPartitionToRecipient me p h t).1 = false ∧
      Owing p h (syncPartitionToRecipient me p h t).2 := by
  have hround : (syncPartitionToRecipient me p h t).1 = false ∧
      ((syncPartitionToRecipient me p h t).2.syncState p h = t.syncState p h ∨
        ∃ st, (syncPartitionToRecipient me p h t).2.syncState p h = some st ∧
          st.confirmed = false) := by
    unfold syncPartitionToRecipient
    cases hst : t.syncState p h with
    | none =>
      have hstart := startSync_waits ho hst me
      rwa [hst] at hstart
    | some st =>
      by_cases hc : st.confirmed = true
      · simp only [if_pos hc]
        obtain ⟨hfalse, hwaits⟩ := continueConfirmedSync_waits ho hst hc me
        exact ⟨hfalse, Or.inr hwaits⟩
      · simp only [if_neg hc]
        rw [Bool.not_eq_true] at hc
        exact ⟨trivial, Or.inr (retryTimedOutSync_waits hst hc me)⟩
  exact ⟨hround.1, ho.frame (frame_syncPartitionToRecipient me p h t) hround.2⟩

/-! ## The visits -/

/-- What a round adds to the completions. -/
theorem completions_syncRecipient (me : Me) (p : PartitionId) (h : NodeId) (t : Tick) :
    completions (syncRecipient me p h t).trace = completions t.trace ++
      if (syncPartitionToRecipient me p h (t.touch p)).1 = true then [(p, h)] else [] := by
  obtain ⟨n, hpassed⟩ := (frame_syncPartitionToRecipient me p h (t.touch p)).passed
  have htrace := completions_of_grows hpassed.trace
  have htouch : completions (t.touch p).trace = completions t.trace := rfl
  unfold syncRecipient
  generalize syncPartitionToRecipient me p h (t.touch p) = result at htrace
  obtain ⟨_ | _, t₁⟩ := result
  · simpa using htrace.trans htouch
  · have hlogged : (recordCompletedSync me p h (t₁.log (.completed p h (t₁.records p)))).trace =
        t₁.trace ++ [.completed p h (t₁.records p)] := rfl
    dsimp only
    rw [hlogged, completions_append, if_pos rfl]
    exact congrArg (· ++ [(p, h)]) (htrace.trans htouch)

/-- **A visit completes recipients it was given**, of its own partition. -/
theorem mem_completions_syncPartition {ids : List NodeId}
    (hin : (p, h) ∈ completions (syncPartition me q t ids).trace) :
    (p, h) ∈ completions t.trace ∨ (p = q ∧ h ∈ ids) := by
  unfold syncPartition at hin
  rw [trace_pruneChanges] at hin
  change (p, h) ∈ completions (ids.foldl (fun t h => syncRecipient me q h t)
    (retainRecipients q t fun id _ => id ∈ t.state.nodes)).trace at hin
  have hloop : ∀ (ids : List NodeId) (t : Tick),
      (p, h) ∈ completions (ids.foldl (fun t h => syncRecipient me q h t) t).trace →
      (p, h) ∈ completions t.trace ∨ (p = q ∧ h ∈ ids) := by
    intro ids
    induction ids with
    | nil => exact fun t hin => Or.inl hin
    | cons g ids ih =>
      intro t hin
      rcases ih _ hin with hfirst | ⟨hp, hg⟩
      · rw [completions_syncRecipient] at hfirst
        rcases List.mem_append.mp hfirst with hbefore | hnow
        · exact Or.inl hbefore
        · split at hnow
          · cases List.mem_singleton.mp hnow
            exact Or.inr ⟨rfl, List.mem_cons_self⟩
          · cases hnow
      · exact Or.inr ⟨hp, List.mem_cons_of_mem _ hg⟩
  exact hloop ids (retainRecipients q t fun id _ => id ∈ t.state.nodes) hin

/-- What is owed to a recipient, the steps that concern others keep. -/
theorem bystander_owing (me : Me) (p : PartitionId) (h : NodeId) :
    Bystander me p h (Owing p h) where
  touch t q ho := by
    refine ⟨ho.wellFormed, ho.lasting, ho.connected, ?_, ho.uncompleted⟩
    rw [syncState_touch]
    exact ho.owes
  interleave t ho := ho.after 1
  round t t' q g hne hf _ ho :=
    ho.frame hf (Or.inl (hf.others p h fun heq => hne ⟨heq.1.symm, heq.2.symm⟩))
  record t q g records hne ho := by
    refine ⟨ho.wellFormed, ho.lasting, ?_, ?_, fun hin => ?_⟩
    · unfold recordCompletedSync
      dsimp only
      split <;> exact ho.connected
    · rw [syncState_recordCompletedSync]
      exact ho.owes
    · exact ho.uncompleted ((mem_completions_record hne records).mp hin)
  leave t q ho := by
    refine ⟨ho.wellFormed, ho.lasting, ho.connected, ?_, ho.uncompleted⟩
    rw [syncState_retainRecipients]
    split
    · have hfilter : (t.syncState p h).filter (fun _ => decide (h ∈ t.state.nodes)) =
          t.syncState p h := by
        cases t.syncState p h with
        | none => rfl
        | some st => exact Option.filter_some_eq_some.mpr (decide_eq_true ho.connected)
      rw [hfilter]
      exact ho.owes
    · exact ho.owes
  settle t q hq ho := by
    refine ⟨ho.wellFormed, ho.lasting, ho.connected, ?_, ho.uncompleted⟩
    rw [syncState_retainRecipients, if_neg hq.symm]
    exact ho.owes
  prune t q through hq ho := by
    have hpart : (t.store.prunePartitionChanges q through).partition p = t.store.partition p := by
      rw [RuntimeStore.prunePartitionChanges, RuntimeStore.partition_modify, if_neg hq]
    have howes := ho.owes
    have hlast := ho.lasting
    refine ⟨RuntimeStore.wellFormed_prune ho.wellFormed through, ⟨fun k m hk => ?_, hlast.written⟩,
      ho.connected, ?_, ho.uncompleted⟩
    · rw [hpart] at hk
      exact hlast.stored k m hk
    · rw [← hpart] at howes
      exact howes

/-- **A round for any recipient leaves this one owed.** -/
theorem Owing.syncRecipient (ho : Owing p h t) (me : Me) (q : PartitionId) (g : NodeId) :
    Owing p h (syncRecipient me q g t) := by
  by_cases hsame : q = p ∧ g = h
  · obtain ⟨rfl, rfl⟩ := hsame
    obtain ⟨hfalse, hround⟩ := ((bystander_owing me q g).touch t q ho).round me
    unfold Worker.syncRecipient
    generalize syncPartitionToRecipient me q g (t.touch q) = result at hfalse hround
    obtain ⟨_ | _, t₁⟩ := result
    · exact hround
    · cases hfalse
  · exact (bystander_owing me p h).syncRecipient hsame ho

/-- The visit of its own partition does not complete the recipient. -/
theorem Owing.visit (ho : Owing p h t) (me : Me) (ids : List NodeId) :
    (p, h) ∉ completions (Worker.syncPartition me p t ids).trace := by
  have hrounds := Runs.run_keeps (fun _ g ho => ho.syncRecipient me p g)
    ((bystander_owing me p h).leave t p ho) ids
  rw [syncPartition_eq, trace_pruneChanges]
  exact hrounds.uncompleted

/-- The closing loop completes nobody. -/
theorem completions_removeCompletedSyncs (me : Me) (t : Tick) :
    completions (removeCompletedSyncsAndObsoletePartitions me t).trace = completions t.trace := by
  refine Runs.run_keeps (I := fun t' : Tick => completions t'.trace = completions t.trace)
    (fun t' e heq => ?_) rfl t.state.sync.toList
  rw [← heq]
  unfold removeCompletedSync
  split
  · dsimp only
    split
    · rfl
    · exact (completions_append t'.trace _).trans (List.append_nil _)
  · rfl

/-- **A tick does not complete a recipient that is owed something.** The
partition is visited once: before that the recipient stays owed, and after
it nobody of the partition is completed. -/
theorem Owing.not_completed (ho : Owing p h t) (me : Me) (order : Enumeration) :
    (p, h) ∉ completions (syncPartitions me order t).trace := by
  rw [syncPartitions_eq, completions_removeCompletedSyncs, Tick.synced]
  generalize t.state.getCurrentlySyncedActualNodes = synced
  have hfold : ∀ (l : List ℕ) (t : Tick), l.Nodup → (p.id ∈ l → Owing p h t) →
      (p, h) ∉ completions t.trace →
      (p, h) ∉ completions (l.foldl (fun t' partition => Worker.syncPartition me ⟨partition⟩ t'
        (order.toList (recipients me ⟨partition⟩ t'.state synced))) t).trace := by
    intro l
    induction l with
    | nil => exact fun t _ _ hnot => hnot
    | cons i l ih =>
      intro t hnodup howing hnot
      obtain ⟨hi, hnodup⟩ := List.nodup_cons.mp hnodup
      refine ih _ hnodup (fun hin => ?_) ?_
      · refine (bystander_owing me p h).syncPartition ?_ _ (howing (List.mem_cons_of_mem _ hin))
        rintro rfl
        exact hi hin
      · by_cases hp : p = ⟨i⟩
        · subst hp
          exact (howing List.mem_cons_self).visit me _
        · intro hin
          rcases mem_completions_syncPartition hin with hbefore | ⟨heq, -⟩
          · exact hnot hbefore
          · exact hp heq
  exact hfold _ t List.nodup_range (fun _ => ho) ho.uncompleted

/-- **A tick completes recipients only**, those of its start. -/
theorem mem_recipients_of_completed {order : Enumeration} (ha : Announced me t t)
    (hstart : completions t.trace = [])
    (hin : (p, h) ∈ completions (syncPartitions me order t).trace) :
    h ∈ recipients me p t.state t.state.getCurrentlySyncedActualNodes := by
  rw [syncPartitions_eq, completions_removeCompletedSyncs, Tick.synced] at hin
  generalize t.state.getCurrentlySyncedActualNodes = synced at hin
  have hvisit : ∀ (t' : Tick) (partition : ℕ), (Announced me t t' ∧
      ((p, h) ∈ completions t'.trace → h ∈ recipients me p t.state synced)) →
      Announced me t (syncPartition me ⟨partition⟩ t' (order.toList
        (recipients me ⟨partition⟩ t'.state synced))) ∧
      ((p, h) ∈ completions (syncPartition me ⟨partition⟩ t' (order.toList
        (recipients me ⟨partition⟩ t'.state synced))).trace →
        h ∈ recipients me p t.state synced) := by
    rintro t' partition ⟨hannounced, hcompleted⟩
    refine ⟨hannounced.syncPartition _ _, fun hin => ?_⟩
    rcases mem_completions_syncPartition hin with hbefore | ⟨rfl, hid⟩
    · exact hcompleted hbefore
    · rw [order.mem_toList, recipients, hannounced.fixed.partitions, hannounced.fixed.nodes] at hid
      exact hid
  refine (Runs.run_keeps hvisit ⟨ha, fun hin => ?_⟩ (List.range partitionsAmount)).2 hin
  rw [hstart] at hin
  exact absurd hin List.not_mem_nil

end Worker

end NoSqlStore
