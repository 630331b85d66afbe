import NoSqlStore.Sync.Recipient
/-!
# A tick as a sequence of moves

`Move` lists the elementary things a tick does, the rounds of
`Sync/Recipient.lean` among them, and `moves_syncPartitions` says that a
tick is a sequence of them. Every invariant of a tick is then shown one
move at a time. `Sound` is the first of these: every synchronisation under
way is in order.
-/

namespace NoSqlStore

namespace Worker

open Coverage

variable {me : Me} {has : NodeId → Key → Mutation → Prop} {t t' t'' : Tick} {p q : PartitionId}
  {h g : NodeId}

/-- **Every synchronisation under way is in order**, read off the states
of the recipients, the store and the batches sent. -/
structure Sound (has : NodeId → Key → Mutation → Prop)
    (sync : PartitionId → NodeId → Option SyncState) (store : RuntimeStore) (sent : List Sent) :
    Prop where
  wellFormed : store.WellFormed
  proper : ∀ b ∈ sent, b.Proper
  good : ∀ p h st, sync p h = some st →
    ∃ b i, lastSent sent p h = some (b, i) ∧ Good (has h) (store.source p) b st

/-- A tick whose synchronisations are in order. -/
def Tick.Sound (has : NodeId → Key → Mutation → Prop) (t : Tick) : Prop :=
  Worker.Sound has t.syncState t.store t.sent

/-- The elementary moves of a tick. -/
inductive Move (has : NodeId → Key → Mutation → Prop) (me : Me) : Tick → Tick → Prop
  | touch (t : Tick) (p : PartitionId) : Move has me t (t.touch p)
  | round (t t' : Tick) (p : PartitionId) (h : NodeId) (hh : h ∈ t.state.nodes)
      (hframe : Frame p h t t') (ho : Outcome (has h) p h t t' false) : Move has me t t'
  | complete (t t' : Tick) (p : PartitionId) (h : NodeId) (hh : h ∈ t.state.nodes)
      (hframe : Frame p h t t') (ho : Outcome (has h) p h t t' true) :
      Move has me t (recordCompletedSync me p h (t'.log (.completed p h (t'.records p))))
  | leave (t : Tick) (p : PartitionId) :
      Move has me t (retainRecipients p t fun id _ => id ∈ t.state.nodes)
  | settle (t : Tick) (p : PartitionId) :
      Move has me t (retainRecipients p t fun _ st => !st.confirmed)
  | interleave (t : Tick) : Move has me t t.interleave
  | prune (t : Tick) (p : PartitionId) (through : ℕ)
      (hthrough : ∀ h st, t.syncState p h = some st → through ≤ st.phase.confirmedRevision) :
      Move has me t { t with store := t.store.prunePartitionChanges p through }
  | remove (t : Tick) (p : PartitionId) (hnone : ∀ h, t.syncState p h = none)
      (hown : nodeOwnsPartition t.state.partitions p me.id = false) :
      Move has me t { t.log (.removed p (t.records p) (t.state.partitions.holders p)) with
        store := t.store.removePartition p }
  | forget (t : Tick) (p : PartitionId) (hnone : ∀ h, t.syncState p h = none) :
      Move has me t { t with state := { t.state with sync := t.state.sync.erase p } }

/-- A sequence of moves. -/
abbrev Moves (has : NodeId → Key → Mutation → Prop) (me : Me) : Tick → Tick → Prop :=
  Relation.ReflTransGen (Move has me)

/-! ## The moves keep the tick sound -/

/-- Fewer states, a store that has evolved, and the batches the same. -/
theorem Sound.shrink {sync sync' : PartitionId → NodeId → Option SyncState}
    {store store' : RuntimeStore} {sent : List Sent} (hs : Sound has sync store sent)
    (hsync : ∀ p h st, sync' p h = some st → sync p h = some st)
    (hstore : RuntimeStore.Evolution store store') : Sound has sync' store' sent := by
  obtain ⟨hw, hev⟩ := hstore hs.wellFormed
  refine ⟨hw, hs.proper, fun p h st hst => ?_⟩
  obtain ⟨b, i, hl, hg⟩ := hs.good p h st (hsync p h st hst)
  exact ⟨b, i, hl, hg.evolve (hev p)⟩

/-- A batch sent to one recipient leaves the last batches of the others. -/
theorem lastSent_append_of_ne {sent : List Sent} {b : Sent} (hb : b.partition = p ∧ b.recipient = h)
    (hne : ¬ (q = p ∧ g = h)) : lastSent (sent ++ [b]) q g = lastSent sent q g := by
  rw [lastSent_append, if_neg]
  rintro ⟨hq, hg⟩
  exact hne ⟨hq.symm.trans hb.1, hg.symm.trans hb.2⟩

/-- **A round keeps the tick sound.** -/
theorem Tick.Sound.round {result : Bool} (hs : t.Sound has) (hframe : Frame p h t t')
    (ho : Outcome (has h) p h t t' result) : t'.Sound has := by
  obtain ⟨n, hpassed⟩ := hframe.passed
  obtain ⟨hw, hev⟩ := hpassed.evolution hs.wellFormed
  -- where nothing is sent, no state is new
  have hquiet : t'.sent = t.sent → (∀ st, t'.syncState p h = some st → t.syncState p h = some st) →
      t'.Sound has := by
    intro hsent hsync
    have hshrunk : ∀ q g st, t'.syncState q g = some st → t.syncState q g = some st := by
      intro q g st hst
      by_cases heq : q = p ∧ g = h
      · obtain ⟨rfl, rfl⟩ := heq
        exact hsync st hst
      · rwa [hframe.others q g heq] at hst
    unfold Tick.Sound
    rw [hsent]
    exact Sound.shrink hs hshrunk hpassed.evolution
  cases ho with
  | waits st hst hconfirmed hsent hsync => exact hquiet hsent fun st hst => by rwa [hsync] at hst
  | writing n hn hconfirmed hsent hsync => exact hquiet hsent fun st hst => by rwa [hsync] at hst
  | emptied n hn hstore hst hsent hsync => exact hquiet hsent fun st hst => by rwa [hsync] at hst
  | empty hst hsent hsync hnone =>
    refine hquiet hsent fun st hst' => ?_
    rw [hsync] at hst'
    cases hst'
  | copied n st hst hconfirmed hsent hsync hdone hstore hgap =>
    refine hquiet hsent fun st' hst' => ?_
    rw [hsync] at hst'
    rw [← hst', hst]
  | sends b st hb hproper hsent hsync hconfirmed hgood hbefore =>
    refine ⟨hw, fun b' hb' => ?_, fun q g st' hst' => ?_⟩
    · rw [hsent] at hb'
      rcases List.mem_append.mp hb' with hin | hin
      · exact hs.proper b' hin
      · rw [List.mem_singleton.mp hin]
        exact hproper
    · by_cases heq : q = p ∧ g = h
      · obtain ⟨rfl, rfl⟩ := heq
        rw [hsync] at hst'
        cases hst'
        refine ⟨b, t.sent.length, ?_, hgood⟩
        rw [hsent, lastSent_append, if_pos hb]
      · rw [hframe.others q g heq] at hst'
        obtain ⟨b', i, hl, hg⟩ := hs.good q g st' hst'
        refine ⟨b', i, ?_, hg.evolve (hev q)⟩
        rw [hsent, lastSent_append_of_ne hb heq, hl]

theorem Tick.Sound.prune {through : ℕ} (hs : t.Sound has)
    (hthrough : ∀ h st, t.syncState p h = some st → through ≤ st.phase.confirmedRevision) :
    Tick.Sound has { t with store := t.store.prunePartitionChanges p through } := by
  refine ⟨RuntimeStore.wellFormed_prune hs.wellFormed through, hs.proper, fun q g st hst => ?_⟩
  obtain ⟨b, i, hl, hg⟩ := hs.good q g st hst
  refine ⟨b, i, hl, ?_⟩
  by_cases hp : p = q
  · subst hp
    have hsource : (t.store.prunePartitionChanges p through).source p =
        { t.store.source p with
          journal := (t.store.source p).journal.filter fun r _ => through < r } := by
      rw [RuntimeStore.source, RuntimeStore.partition_prune, if_pos rfl]
      rfl
    rw [hsource]
    exact hg.prune (hthrough g st hst)
  · have hsource : (t.store.prunePartitionChanges p through).source q = t.store.source q := by
      rw [RuntimeStore.source, RuntimeStore.partition_prune, if_neg hp]
      rfl
    rw [hsource]
    exact hg

theorem syncState_erase_subset {st : SyncState}
    (hst : Tick.syncState { t with state := { t.state with sync := t.state.sync.erase p } } q g =
      some st) : t.syncState q g = some st := by
  simp only [Tick.syncState, Std.ExtTreeMap.getElem?_erase] at hst
  split at hst
  · cases hst
  · exact hst

/-- Recording a completion changes no state of a recipient. -/
theorem syncState_recordCompletedSync :
    (recordCompletedSync me p h t).syncState = t.syncState := by
  unfold recordCompletedSync
  dsimp only
  split <;> rfl

/-- **Every move keeps the tick sound.** -/
theorem Tick.Sound.move (hs : t.Sound has) (hm : Move has me t t') : t'.Sound has := by
  cases hm with
  | touch p =>
    refine Sound.shrink hs (fun q g st hst => ?_) (.refl _)
    rwa [syncState_touch] at hst
  | round _ p h hh hframe ho => exact hs.round hframe ho
  | complete t' p h hh hframe ho =>
    have hround := hs.round hframe ho
    refine Sound.shrink hround (fun q g st hst => ?_) (.refl _)
    rw [syncState_recordCompletedSync] at hst
    exact hst
  | leave p =>
    refine Sound.shrink hs (fun q g st hst => ?_) (.refl _)
    rw [syncState_retainRecipients] at hst
    split at hst
    · exact (Option.filter_eq_some_iff.mp hst).1
    · exact hst
  | settle p =>
    refine Sound.shrink hs (fun q g st hst => ?_) (.refl _)
    rw [syncState_retainRecipients] at hst
    split at hst
    · exact (Option.filter_eq_some_iff.mp hst).1
    · exact hst
  | interleave => exact Sound.shrink hs (fun _ _ _ hst => hst) (t.evolution_after 1)
  | prune p through hthrough => exact hs.prune hthrough
  | remove p hnone hown =>
    exact Sound.shrink hs (fun _ _ _ hst => hst) (RuntimeStore.evolution_removePartition p)
  | forget p hnone =>
    refine Sound.shrink hs (fun q g st hst => ?_) (.refl _)
    exact syncState_erase_subset hst

/-- A sequence of moves keeps the tick sound. -/
theorem Tick.Sound.moves (hs : t.Sound has) (hm : Moves has me t t') : t'.Sound has := by
  induction hm with
  | refl => exact hs
  | tail _ hmove ih => exact ih.move hmove

/-- **The invariant rule of a tick.** -/
theorem moves_inv {I : Tick → Prop} (hI : ∀ t t', t.Sound has → I t → Move has me t t' → I t')
    (hs : t.Sound has) (ht : I t) (hm : Moves has me t t') : I t' := by
  induction hm with
  | refl => exact ht
  | tail hmoves hmove ih => exact hI _ _ (hs.moves hmoves) ih hmove

/-- The membership and the table are the same. -/
structure SameTable (t t' : Tick) : Prop where
  nodes : t'.state.nodes = t.state.nodes
  partitions : t'.state.partitions = t.state.partitions

theorem SameTable.trans (h₁ : SameTable t t') (h₂ : SameTable t' t'') : SameTable t t'' :=
  ⟨h₂.nodes.trans h₁.nodes, h₂.partitions.trans h₁.partitions⟩

/-- No move changes the membership or the table. -/
theorem sameTable_move (hm : Move has me t t') : SameTable t t' := by
  cases hm with
  | round _ p h hh hframe ho => exact ⟨hframe.nodes, hframe.partitions⟩
  | complete t' p h hh hframe ho =>
    refine ⟨Eq.trans ?_ hframe.nodes, Eq.trans ?_ hframe.partitions⟩
    all_goals
      unfold recordCompletedSync
      dsimp only
      split <;> rfl
  | _ => exact ⟨rfl, rfl⟩

theorem sameTable_moves (hm : Moves has me t t') : SameTable t t' := by
  induction hm with
  | refl => exact ⟨rfl, rfl⟩
  | tail _ hmove ih => exact ih.trans (sameTable_move hmove)

/-! ## The trace only grows -/

theorem trace_move (hm : Move has me t t') : t.trace <+: t'.trace := by
  cases hm with
  | round _ p h hh hframe ho =>
    obtain ⟨n, hpassed⟩ := hframe.passed
    exact hpassed.trace.isPrefix
  | complete t' p h hh hframe ho =>
    obtain ⟨n, hpassed⟩ := hframe.passed
    exact hpassed.trace.isPrefix.trans (List.prefix_append _ _)
  | remove p hnone hown => exact List.prefix_append _ _
  | _ => exact List.prefix_refl _

theorem trace_syncRecipient (me : Me) (p : PartitionId) (t : Tick) (h : NodeId) :
    t.trace <+: (syncRecipient me p h t).trace := by
  obtain ⟨n, hpassed⟩ := (frame_syncPartitionToRecipient me p h (t.touch p)).passed
  have hprefix : t.trace <+: (syncPartitionToRecipient me p h (t.touch p)).2.trace :=
    hpassed.trace.isPrefix
  unfold syncRecipient
  generalize syncPartitionToRecipient me p h (t.touch p) = result at hprefix
  obtain ⟨_ | _, t₁⟩ := result
  · exact hprefix
  · exact hprefix.trans (List.prefix_append _ _)

/-- A loop whose rounds only add to the trace. -/
theorem trace_foldl {α : Type} {f : Tick → α → Tick} (hf : ∀ t a, t.trace <+: (f t a).trace)
    (l : List α) (t : Tick) : t.trace <+: (l.foldl f t).trace :=
  Runs.run_rel_of_step (R := fun t t' : Tick => t.trace <+: t'.trace)
    (fun t => List.prefix_refl t.trace) (fun _ _ _ => List.IsPrefix.trans) hf t l

theorem trace_pruneChanges (t : Tick) : (pruneChanges p t).trace = t.trace := by
  unfold pruneChanges
  dsimp only
  split
  · rfl
  · split <;> rfl

theorem trace_syncPartition (t : Tick) (ids : List NodeId) :
    t.trace <+: (syncPartition me p t ids).trace := by
  unfold syncPartition
  rw [trace_pruneChanges]
  exact trace_foldl (trace_syncRecipient me p) ids
    (retainRecipients p t fun id _ => id ∈ t.state.nodes)

/-- Short ranges up to the end were short at any time before. -/
theorem ShortRanges.of_prefix {trace trace' : List Trace} (hs : ShortRanges trace')
    (hp : trace <+: trace') : ShortRanges trace :=
  fun e he => hs e (hp.subset he)

/-! ## A tick is a sequence of moves -/

/-- **What a round of the recipients' loop is**: a round, and the record of
its completion if it completes. -/
theorem syncRecipient_cases (hs : t.Sound has)
    (hshort : ShortRanges (syncRecipient me p h t).trace) :
    ∃ t₁, Frame p h (t.touch p) t₁ ∧
      ((Outcome (has h) p h (t.touch p) t₁ false ∧ syncRecipient me p h t = t₁) ∨
        (Outcome (has h) p h (t.touch p) t₁ true ∧ syncRecipient me p h t =
          recordCompletedSync me p h (t₁.log (.completed p h (t₁.records p))))) := by
  have hs₁ := hs.move (Move.touch t p : Move has me t (t.touch p))
  have hframe := frame_syncPartitionToRecipient me p h (t.touch p)
  have hgood : ∀ st, (t.touch p).syncState p h = some st →
      ∃ b, Good (has h) ((t.touch p).source p) b st := by
    intro st hst
    obtain ⟨b, -, -, hg⟩ := hs₁.good p h st hst
    exact ⟨b, hg⟩
  have hshort₁ : ShortRanges (syncPartitionToRecipient me p h (t.touch p)).2.trace := by
    refine hshort.of_prefix ?_
    unfold syncRecipient
    generalize syncPartitionToRecipient me p h (t.touch p) = result
    obtain ⟨_ | _, t₁⟩ := result
    · exact List.prefix_refl _
    · exact List.prefix_append _ _
  have ho := syncPartitionToRecipient_outcome hs₁.wellFormed hgood hshort₁
  unfold syncRecipient
  generalize syncPartitionToRecipient me p h (t.touch p) = result at hframe ho
  obtain ⟨_ | _, t₁⟩ := result
  · exact ⟨t₁, hframe, Or.inl ⟨ho, rfl⟩⟩
  · exact ⟨t₁, hframe, Or.inr ⟨ho, rfl⟩⟩

theorem moves_syncRecipient (hs : t.Sound has) (hh : h ∈ t.state.nodes)
    (hshort : ShortRanges (syncRecipient me p h t).trace) :
    Moves has me t (syncRecipient me p h t) := by
  refine Relation.ReflTransGen.head (.touch t p) (.single ?_)
  obtain ⟨t₁, hframe, ⟨ho, heq⟩ | ⟨ho, heq⟩⟩ := syncRecipient_cases hs hshort
  · rw [heq]
    exact .round _ _ p h hh hframe ho
  · rw [heq]
    exact .complete _ t₁ p h hh hframe ho

/-- A loop of sequences of moves. -/
theorem moves_foldl {α : Type} {f : Tick → α → Tick} {t₀ : Tick} {l : List α}
    (hf : ∀ t, ∀ a ∈ l, t.Sound has → SameTable t₀ t → ShortRanges (f t a).trace →
      Moves has me t (f t a))
    (htrace : ∀ t a, t.trace <+: (f t a).trace) (t : Tick) (hs : t.Sound has)
    (htable : SameTable t₀ t) (hshort : ShortRanges (l.foldl f t).trace) :
    Moves has me t (l.foldl f t) := by
  induction l generalizing t with
  | nil => exact .refl
  | cons a l ih =>
    have hm := hf t a List.mem_cons_self hs htable
      (hshort.of_prefix (trace_foldl htrace l (f t a)))
    exact hm.trans (ih (fun t a ha => hf t a (List.mem_cons_of_mem _ ha)) _ (hs.moves hm)
      (htable.trans (sameTable_moves hm)) hshort)

/-- Pruning goes up to what every recipient under way has confirmed. -/
theorem moves_pruneChanges (t : Tick) : Moves has me t (pruneChanges p t) := by
  unfold pruneChanges
  dsimp only
  split
  · rename_i through hleast
    refine Relation.ReflTransGen.head (.interleave t) (.single (.prune _ p through ?_))
    intro h st hst
    obtain ⟨states, hstates, hget⟩ := Option.bind_eq_some_iff.mp
      (show t.state.sync[p]?.bind (fun states => states[h]?) = some st from hst)
    rw [hstates, Option.bind_some] at hleast
    refine (List.min?_eq_some_iff.mp hleast).2 _ (List.mem_map.mpr ⟨(h, st), ?_, rfl⟩)
    exact Map.mem_toList.mpr hget
  · rename_i hleast
    -- no recipient is under way, so any revision will do
    have hnone : ∀ h st, t.syncState p h ≠ some st := by
      intro h st hst
      obtain ⟨states, hstates, hget⟩ := Option.bind_eq_some_iff.mp
        (show t.state.sync[p]?.bind (fun states => states[h]?) = some st from hst)
      rw [hstates, Option.bind_some, List.min?_eq_none_iff, List.map_eq_nil_iff] at hleast
      have hin := Map.mem_toList.mpr hget
      rw [hleast] at hin
      cases hin
    split
    · rename_i through _
      refine Relation.ReflTransGen.head (.interleave t)
        (Relation.ReflTransGen.head (.interleave _) (.single (.prune _ p through ?_)))
      exact fun h st hst => absurd hst (hnone h st)
    · exact .single (.interleave t)

theorem moves_syncPartition (hs : t.Sound has) {ids : List NodeId}
    (hids : ∀ h ∈ ids, h ∈ t.state.nodes)
    (hshort : ShortRanges (syncPartition me p t ids).trace) :
    Moves has me t (syncPartition me p t ids) := by
  unfold syncPartition at hshort ⊢
  rw [trace_pruneChanges] at hshort
  have hleave : Move has me t (retainRecipients p t fun id _ => id ∈ t.state.nodes) := .leave t p
  have hloop := moves_foldl
    (fun t' h hh hs (htable : SameTable t t') =>
      moves_syncRecipient (p := p) hs (htable.nodes ▸ hids h hh))
    (trace_syncRecipient me p) _ (hs.move hleave) ⟨rfl, rfl⟩ hshort
  exact (Relation.ReflTransGen.head hleave hloop).trans
    (Relation.ReflTransGen.head (.settle _ p) (moves_pruneChanges _))

/-! ## The end of a tick -/

theorem moves_removeCompletedSync {e : PartitionId × Map NodeId SyncState}
    (he : e.2.isEmpty → ∀ h, t.syncState e.1 h = none) :
    Moves has me t (removeCompletedSync me t e) := by
  unfold removeCompletedSync
  split
  · rename_i hempty
    by_cases hown : nodeOwnsPartition t.state.partitions e.1 me.id = true
    · simp only [if_pos hown]
      exact .single (.forget t e.1 (he hempty))
    · simp only [if_neg hown]
      rw [Bool.not_eq_true] at hown
      exact Relation.ReflTransGen.head (.interleave t) (Relation.ReflTransGen.head
        (.remove t.interleave e.1 (he hempty) hown) (.single (.forget _ e.1 (he hempty))))
  · exact .refl

/-- No state appears in the loop. -/
theorem syncState_removeCompletedSync {e : PartitionId × Map NodeId SyncState} {st : SyncState}
    (hst : (removeCompletedSync me t e).syncState q g = some st) : t.syncState q g = some st := by
  unfold removeCompletedSync at hst
  split at hst
  · by_cases hown : nodeOwnsPartition t.state.partitions e.1 me.id = true
    · simp only [if_pos hown] at hst
      exact syncState_erase_subset hst
    · simp only [if_neg hown] at hst
      exact syncState_erase_subset (t := t) hst
  · exact hst

theorem moves_removeLoop (l : List (PartitionId × Map NodeId SyncState)) (t : Tick)
    (hl : ∀ e ∈ l, e.2.isEmpty → ∀ h, t.syncState e.1 h = none) :
    Moves has me t (l.foldl (removeCompletedSync me) t) := by
  induction l generalizing t with
  | nil => exact .refl
  | cons e l ih =>
    refine (moves_removeCompletedSync (hl e List.mem_cons_self)).trans
      (ih _ fun e' he' hempty h => ?_)
    by_contra hne
    obtain ⟨st, hst⟩ := Option.ne_none_iff_exists'.mp hne
    have hbefore := syncState_removeCompletedSync hst
    rw [hl e' (List.mem_cons_of_mem _ he') hempty h] at hbefore
    cases hbefore

theorem moves_removeCompletedSyncs (t : Tick) :
    Moves has me t (removeCompletedSyncsAndObsoletePartitions me t) := by
  refine moves_removeLoop _ t fun e he hempty h => ?_
  have hget : t.state.sync[e.1]? = some e.2 := Map.mem_toList.mp he
  rw [Tick.syncState, hget, Option.bind_some]
  simp only [Std.ExtTreeMap.isEmpty_iff] at hempty
  rw [hempty]
  exact Std.ExtTreeMap.getElem?_empty

theorem trace_removeCompletedSync (t : Tick) (e : PartitionId × Map NodeId SyncState) :
    t.trace <+: (removeCompletedSync me t e).trace := by
  unfold removeCompletedSync
  split
  · dsimp only
    split
    · exact List.prefix_refl _
    · exact List.prefix_append _ _
  · exact List.prefix_refl _

/-- The tick up to its last loop. -/
def Tick.synced (me : Me) (order : Enumeration) (t : Tick) : Tick :=
  (List.range partitionsAmount).foldl
    (fun t' partition => syncPartition me ⟨partition⟩ t' (order.toList
      (recipients me ⟨partition⟩ t'.state t.state.getCurrentlySyncedActualNodes))) t

theorem syncPartitions_eq (order : Enumeration) (t : Tick) :
    syncPartitions me order t = removeCompletedSyncsAndObsoletePartitions me (t.synced me order) :=
  rfl

/-- Recipients are connected. -/
theorem mem_nodes_of_recipient {state : State} {synced : Map PartitionId (Finset NodeId)}
    (hh : h ∈ recipients me p state synced) : h ∈ state.nodes :=
  (Finset.mem_filter.mp hh).2

theorem moves_synced {order : Enumeration} (hs : t.Sound has)
    (hshort : ShortRanges (t.synced me order).trace) : Moves has me t (t.synced me order) := by
  refine moves_foldl
    (fun t' partition _ hs (_ : SameTable t t') hshort =>
      moves_syncPartition hs (fun h hh => ?_) hshort)
    (fun t' partition => trace_syncPartition t' _) t hs ⟨rfl, rfl⟩ hshort
  rw [order.mem_toList] at hh
  exact mem_nodes_of_recipient hh

theorem trace_synced (order : Enumeration) (t : Tick) :
    (t.synced me order).trace <+: (syncPartitions me order t).trace :=
  trace_foldl trace_removeCompletedSync _ _

/-- **A tick is a sequence of moves.** -/
theorem moves_syncPartitions {order : Enumeration} (hs : t.Sound has)
    (hshort : ShortRanges (syncPartitions me order t).trace) :
    Moves has me t (syncPartitions me order t) :=
  (moves_synced hs (hshort.of_prefix (trace_synced order t))).trans (moves_removeCompletedSyncs _)

end Worker

end NoSqlStore
