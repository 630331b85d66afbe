import NoSqlStore.Sync.Idle
import NoSqlStore.Worker.Recipients
/-!
# When a partition may be deleted

A tick deletes a partition this node does not own when no recipient of it
is under way. That happens when every holder is complete, but also when a
recipient is disconnected, when the node has ceased to be an old replica,
and when a start is put off because a writer is at work. Where none of
these is the case, `Done` carries the argument: the visit of the partition
leaves each holder complete or under way (`done_synced`), nothing later in
the tick undoes that, and so a holder that is not under way when the
partition goes has everything.
-/

namespace NoSqlStore

namespace Worker

open Coverage Runs

variable {me : Me} {has : NodeId → Key → Mutation → Prop} {t t' t'' : Tick} {p q : PartitionId}
  {h : NodeId}

/-- The recipient has every record of the partition, or is under way. -/
def Done (has : NodeId → Key → Mutation → Prop) (p : PartitionId) (h : NodeId) (t : Tick) : Prop :=
  (∀ (k : Key) (m : Mutation), (t.records p)[k]? = some m → has h k m) ∨
    ∃ st, t.syncState p h = some st ∧ st.confirmed = false

/-- Being done survives the loss of records. -/
theorem Done.shrink (hd : Done has p h t)
    (hrecords : ∀ (k : Key) (m : Mutation), (t'.records p)[k]? = some m →
      (t.records p)[k]? = some m)
    (hsync : ∀ st, t.syncState p h = some st → st.confirmed = false →
      t'.syncState p h = some st) : Done has p h t' := by
  rcases hd with hall | ⟨st, hst, hc⟩
  · exact Or.inl fun k m hk => hall k m (hrecords k m hk)
  · exact Or.inr ⟨st, hsync st hst hc, hc⟩

/-- What is stored one slot later was stored before. -/
theorem records_after_one {n : ℕ} (hs : t.Sound has) (hstill : t.Still p) {k : Key} {m : Mutation}
    (hk : (((t.after n).after 1).records p)[k]? = some m) : ((t.after n).records p)[k]? = some m :=
  ((hstill.after hs.wellFormed n).1.after (t.evolution_after n hs.wellFormed).1 1).2 k m hk

/-- **A round for a recipient of a still partition leaves it done.** -/
theorem done_of_outcome {result : Bool} (hs : t.Sound has) (hstill : t.Still p)
    (ho : Outcome (has h) p h t t' result) : Done has p h t' := by
  cases ho with
  | waits st hst hconfirmed hsent hsync => exact Or.inr ⟨st, hsync.trans hst, hconfirmed⟩
  | writing n hn hconfirmed hsent hsync =>
    exact absurd hn (hstill.after hs.wellFormed n).1.stable
  | emptied n hn hstore hst hsent hsync =>
    refine Or.inl fun k m hk => ?_
    rw [Tick.records, hstore] at hk
    have hbefore := records_after_one hs hstill hk
    rw [hn k] at hbefore
    cases hbefore
  | sends b st hb hproper hsent hsync hconfirmed hgood hbefore =>
    exact Or.inr ⟨st, hsync, hconfirmed⟩
  | empty hst hsent hsync hnone =>
    refine Or.inl fun k m hk => ?_
    rw [hnone k] at hk
    cases hk
  | copied n st hst hconfirmed hsent hsync hdone hstore hgap =>
    refine Or.inl fun k m hk => ?_
    rw [Tick.records, hstore] at hk
    exact hdone k m (records_after_one hs hstill hk)

/-- A still partition stays so under every move, and only loses records. -/
theorem still_move (hs : t.Sound has) (hstill : t.Still p) (hm : Move has me t t') :
    t'.Still p ∧ ∀ (k : Key) (m : Mutation), (t'.records p)[k]? = some m →
      (t.records p)[k]? = some m := by
  cases hm with
  | round _ q g hg hframe ho =>
    obtain ⟨n, hpassed⟩ := hframe.passed
    exact hpassed.still hstill hs.wellFormed
  | complete t₁ q g hg hframe ho =>
    obtain ⟨n, hpassed⟩ := hframe.passed
    obtain ⟨hstill₁, hsub⟩ := hpassed.still hstill hs.wellFormed
    exact ⟨⟨hstill₁.undisturbed, hstill₁.idle⟩, hsub⟩
  | interleave => exact hstill.after hs.wellFormed 1
  | prune q through hthrough =>
    have hidle := hstill.idle
    refine ⟨⟨hstill.undisturbed, ?_⟩, fun k m hk => ?_⟩
    · rw [RuntimeStore.partition_prune]
      split <;> exact hidle
    · rw [Tick.records, RuntimeStore.partition_prune] at hk
      split at hk <;> exact hk
  | remove q hnone hown =>
    have hidle := hstill.idle
    refine ⟨⟨hstill.undisturbed, ?_⟩, fun k m hk => ?_⟩
    · rw [RuntimeStore.partition_removePartition]
      split
      · rfl
      · exact hidle
    · rw [Tick.records, RuntimeStore.partition_removePartition] at hk
      split at hk
      · cases hk
      · exact hk
  | _ => exact ⟨⟨hstill.undisturbed, hstill.idle⟩, fun _ _ hk => hk⟩

/-- **Being done survives every move**, for a recipient that is
connected. -/
theorem done_move (hs : t.Sound has) (hstill : t.Still p) (hh : h ∈ t.state.nodes)
    (hd : Done has p h t) (hm : Move has me t t') : Done has p h t' := by
  obtain ⟨-, hsub⟩ := still_move hs hstill hm
  cases hm with
  | touch q => exact hd.shrink hsub fun st hst _ => by rwa [syncState_touch]
  | round _ q g hg hframe ho =>
    by_cases heq : p = q ∧ h = g
    · obtain ⟨rfl, rfl⟩ := heq
      exact done_of_outcome hs hstill ho
    · exact hd.shrink hsub fun st hst _ => by rwa [hframe.others p h heq]
  | complete t₁ q g hg hframe ho =>
    have hsync : (recordCompletedSync me q g (t₁.log (.completed q g (t₁.records q)))).syncState =
        t₁.syncState := syncState_recordCompletedSync
    by_cases heq : p = q ∧ h = g
    · obtain ⟨rfl, rfl⟩ := heq
      refine (done_of_outcome hs hstill ho).shrink (fun _ _ hk => hk) fun st hst _ => ?_
      rw [hsync]
      exact hst
    · refine hd.shrink hsub fun st hst _ => ?_
      rw [hsync, hframe.others p h heq]
      exact hst
  | leave q =>
    refine hd.shrink hsub fun st hst _ => ?_
    rw [syncState_retainRecipients]
    split
    · exact Option.filter_eq_some_iff.mpr ⟨hst, decide_eq_true hh⟩
    · exact hst
  | settle q =>
    refine hd.shrink hsub fun st hst hc => ?_
    rw [syncState_retainRecipients]
    split
    · exact Option.filter_eq_some_iff.mpr ⟨hst, by rw [hc]; rfl⟩
    · exact hst
  | forget q hnone =>
    refine hd.shrink hsub fun st hst _ => ?_
    have hne : q ≠ p := fun heq => by
      rw [← heq, hnone h] at hst
      cases hst
    simp only [Tick.syncState, Std.ExtTreeMap.getElem?_erase, compare_eq_iff_eq, if_neg hne]
    exact hst
  | _ => exact hd.shrink hsub fun st hst _ => hst

theorem done_moves (hs : t.Sound has) (hstill : t.Still p) (hh : h ∈ t.state.nodes)
    (hd : Done has p h t) (hm : Moves has me t t') : t'.Still p ∧ Done has p h t' := by
  have hinv := moves_inv (I := fun t' => t'.Still p ∧ h ∈ t'.state.nodes ∧ Done has p h t')
    (fun t t' hs hI hmove => ?_) hs ⟨hstill, hh, hd⟩ hm
  · exact ⟨hinv.1, hinv.2.2⟩
  · obtain ⟨hstill, hh, hd⟩ := hI
    exact ⟨(still_move hs hstill hmove).1, (sameTable_move hmove).nodes ▸ hh,
      done_move hs hstill hh hd hmove⟩

theorem still_moves (hs : t.Sound has) (hstill : t.Still p) (hm : Moves has me t t') :
    t'.Still p :=
  moves_inv (I := fun t' => t'.Still p) (fun _ _ hs hI hmove => (still_move hs hI hmove).1) hs
    hstill hm

/-! ## The visit of a partition -/

/-- A loop one of whose rounds leaves the recipient done. -/
theorem done_foldl {α : Type} (me : Me) {f : Tick → α → Tick} {t₀ : Tick} {l : List α} {a : α}
    (hf : ∀ t, ∀ a ∈ l, t.Sound has → SameTable t₀ t → ShortRanges (f t a).trace →
      Moves has me t (f t a))
    (htrace : ∀ t a, t.trace <+: (f t a).trace)
    (hmake : ∀ t, t.Sound has → SameTable t₀ t → t.Still p → ShortRanges (f t a).trace →
      Done has p h (f t a))
    (ha : a ∈ l) (hh : h ∈ t₀.state.nodes) (t : Tick) (hs : t.Sound has) (htable : SameTable t₀ t)
    (hstill : t.Still p) (hshort : ShortRanges (l.foldl f t).trace) :
    Done has p h (l.foldl f t) := by
  induction l generalizing t with
  | nil => cases ha
  | cons b l ih =>
    have hshort₁ := hshort.of_prefix (trace_foldl htrace l (f t b))
    have hm := hf t b List.mem_cons_self hs htable hshort₁
    have htable₁ := htable.trans (sameTable_moves hm)
    have hf₁ := fun t a (ha : a ∈ l) => hf t a (List.mem_cons_of_mem _ ha)
    have hstill₁ := still_moves hs hstill hm
    rcases List.mem_cons.mp ha with rfl | hin
    · -- this round does it, and the others do not undo it
      have hd := hmake t hs htable hstill hshort₁
      have hrest := moves_foldl hf₁ htrace (f t a) (hs.moves hm) htable₁ hshort
      exact (done_moves (hs.moves hm) hstill₁ (htable₁.nodes ▸ hh) hd hrest).2
    · exact ih hf₁ hin _ (hs.moves hm) htable₁ hstill₁ hshort

theorem done_syncRecipient (hs : t.Sound has) (hstill : t.Still p)
    (hshort : ShortRanges (syncRecipient me p h t).trace) :
    Done has p h (syncRecipient me p h t) := by
  have hs₁ := hs.move (Move.touch t p : Move has me t (t.touch p))
  have hstill₁ : (t.touch p).Still p := ⟨hstill.undisturbed, hstill.idle⟩
  obtain ⟨t₁, -, ⟨ho, heq⟩ | ⟨ho, heq⟩⟩ := syncRecipient_cases hs hshort
  · rw [heq]
    exact done_of_outcome hs₁ hstill₁ ho
  · rw [heq]
    refine (done_of_outcome hs₁ hstill₁ ho).shrink (fun _ _ hk => hk) fun st hst _ => ?_
    rw [syncState_recordCompletedSync]
    exact hst

/-- **The visit of a still partition leaves its recipients done.** -/
theorem done_syncPartition {ids : List NodeId} (hs : t.Sound has) (hstill : t.Still p)
    (hids : ∀ h ∈ ids, h ∈ t.state.nodes) (hh : h ∈ ids)
    (hshort : ShortRanges (syncPartition me p t ids).trace) :
    Done has p h (syncPartition me p t ids) := by
  unfold syncPartition at hshort ⊢
  rw [trace_pruneChanges] at hshort
  have hleave : Move has me t (retainRecipients p t fun id _ => id ∈ t.state.nodes) := .leave t p
  have hs₁ := hs.move hleave
  have hstill₁ := (still_move hs hstill hleave).1
  have hf : ∀ t', ∀ h ∈ ids, t'.Sound has → SameTable t t' →
      ShortRanges (syncRecipient me p h t').trace → Moves has me t' (syncRecipient me p h t') :=
    fun t' h hh hs htable => moves_syncRecipient hs (htable.nodes ▸ hids h hh)
  have hloop := moves_foldl hf (trace_syncRecipient me p) _ hs₁ ⟨rfl, rfl⟩ hshort
  have hd := done_foldl me hf (trace_syncRecipient me p)
    (fun t' hs _ hstill => done_syncRecipient hs hstill) hh (hids h hh) _ hs₁ ⟨rfl, rfl⟩ hstill₁
    hshort
  have hnodes := (sameTable_moves hloop).nodes
  have hconnected := hids h hh
  change h ∈ (retainRecipients p t fun id _ => id ∈ t.state.nodes).state.nodes at hconnected
  rw [← hnodes] at hconnected
  have hend : ∀ t' : Tick, Moves has me t'
      (pruneChanges p (retainRecipients p t' fun _ st => !st.confirmed)) :=
    fun t' => Relation.ReflTransGen.head (.settle t' p) (moves_pruneChanges _)
  exact (done_moves (hs₁.moves hloop) (still_moves hs₁ hstill₁ hloop) hconnected hd (hend _)).2

/-- **What the removal of a partition asks of the tick**: this node is an
old replica of it, its holders are connected, and nothing disturbs it. -/
structure Ready (me : Me) (p : PartitionId) (t : Tick) : Prop where
  old : me.id ∈ t.state.partitions.olds p
  connected : ∀ n ∈ t.state.partitions.holders p, n ∈ t.state.nodes
  still : t.Still p

/-- This node does not hold what it does not own. -/
theorem not_mem_holders {partitions : Partitions} {n : NodeId}
    (hown : nodeOwnsPartition partitions p n = false) : n ∉ partitions.holders p := by
  intro hn
  obtain ⟨e, he, hin⟩ := Partitions.mem_holders.mp hn
  rw [Partition.mem_holders] at hin
  rw [nodeOwnsPartition, he] at hown
  have hown' : ¬ (e.master = n ∨ n ∈ e.replicas) := by simpa using hown
  exact hown' (hin.imp_left Eq.symm)

/-- **After the visits, every holder of a partition that may go is done.** -/
theorem done_synced {order : Enumeration} (hs : t.Sound has) (hready : Ready me p t)
    (hp : p.id < partitionsAmount)
    (hown : nodeOwnsPartition t.state.partitions p me.id = false)
    (hh : h ∈ t.state.partitions.holders p) (hshort : ShortRanges (t.synced me order).trace) :
    Done has p h (t.synced me order) := by
  have hnodes := hready.connected h hh
  have hne : h ≠ me.id := fun heq => not_mem_holders hown (heq ▸ hh)
  refine done_foldl me (a := p.id) (fun t' partition _ hs (_ : SameTable t t') hshort => ?_)
    (fun t' partition => trace_syncPartition t' _) (fun t' hs htable hstill hshort => ?_)
    (List.mem_range.mpr hp) hnodes t hs ⟨rfl, rfl⟩ hready.still hshort
  · refine moves_syncPartition hs (fun h hh => ?_) hshort
    rw [order.mem_toList] at hh
    exact mem_nodes_of_recipient hh
  · refine done_syncPartition hs hstill (fun h hh => ?_) ?_ hshort
    · rw [order.mem_toList] at hh
      exact mem_nodes_of_recipient hh
    · rw [order.mem_toList, recipients, Manager.mem_recipients, htable.nodes, htable.partitions]
      exact ⟨hnodes, Or.inl ⟨hready.old, hh, hne⟩⟩

/-! ## The removals -/

/-- A partition is deleted. -/
def Trace.removing : Trace → Bool
  | .removed _ _ _ => true
  | _ => false

/-- A deleted record is at some holder neither as it was nor newer. -/
def Trace.Lost (has : NodeId → Key → Mutation → Prop) : Trace → Prop
  | .removed _ records holders =>
    ∃ h ∈ holders, ∃ (k : Key) (m : Mutation), records[k]? = some m ∧ ¬ has h k m
  | _ => False

theorem Trace.not_lost_of_not_removing {e : Trace} (he : e.removing = false) : ¬ e.Lost has := by
  cases e with
  | removed p records holders => cases he
  | _ => exact id

theorem not_removing_of_inner {e : Trace} (he : e.inner = true) : e.removing = false := by
  cases e with
  | removed _ _ _ => cases he
  | _ => rfl

/-- The visits delete nothing. -/
theorem removing_syncRecipient (ht : ∀ e ∈ t.trace, e.removing = false) :
    ∀ e ∈ (syncRecipient me p h t).trace, e.removing = false := by
  obtain ⟨n, hpassed⟩ := (frame_syncPartitionToRecipient me p h (t.touch p)).passed
  have hround := hpassed.trace.all (P := fun e => e.removing = false)
    (fun _ => not_removing_of_inner) ht
  unfold syncRecipient
  generalize syncPartitionToRecipient me p h (t.touch p) = result at hround
  obtain ⟨_ | _, t₁⟩ := result
  · exact hround
  · intro e he
    rcases List.mem_append.mp he with hin | hin
    · exact hround e hin
    · rw [List.mem_singleton.mp hin]
      rfl

theorem removing_synced {order : Enumeration} (ht : ∀ e ∈ t.trace, e.removing = false) :
    ∀ e ∈ (t.synced me order).trace, e.removing = false := by
  have hvisit : ∀ (t' : Tick) (p : PartitionId) (ids : List NodeId),
      (∀ e ∈ t'.trace, e.removing = false) →
      ∀ e ∈ (syncPartition me p t' ids).trace, e.removing = false := by
    intro t' p ids ht'
    have hrounds : ∀ (t : Tick) (h : NodeId), (∀ e ∈ t.trace, e.removing = false) →
        ∀ e ∈ (syncRecipient me p h t).trace, e.removing = false :=
      fun _ _ ht => removing_syncRecipient ht
    unfold syncPartition
    rw [trace_pruneChanges]
    exact Runs.run_keeps (I := fun t : Tick => ∀ e ∈ t.trace, e.removing = false) hrounds
      (s := retainRecipients p t' fun id _ => id ∈ t'.state.nodes) ht' ids
  exact Runs.run_keeps (I := fun t : Tick => ∀ e ∈ t.trace, e.removing = false)
    (fun t' partition ht' => hvisit t' ⟨partition⟩ _ ht') ht (List.range partitionsAmount)

/-- What the closing loop of a tick keeps: the partitions that may go are
done, and no deletion so far has lost a record. -/
structure Closing (has : NodeId → Key → Mutation → Prop) (me : Me) (t t' : Tick) : Prop where
  table : SameTable t t'
  done : ∀ p, p.id < partitionsAmount → Ready me p t →
    nodeOwnsPartition t.state.partitions p me.id = false →
    t'.Still p ∧ ∀ h ∈ t.state.partitions.holders p, Done has p h t'
  kept : (∀ p records holders, Trace.removed p records holders ∈ t'.trace → Ready me p t) →
    ∀ e ∈ t'.trace, ¬ e.Lost has

/-- **A partition that goes is at all its holders.** -/
theorem not_lost_remove (hs : t'.Sound has) (hc : Closing has me t t') (hready : Ready me p t)
    (hnone : ∀ h, t'.syncState p h = none)
    (hown : nodeOwnsPartition t'.state.partitions p me.id = false) :
    ¬ (Trace.removed p (t'.records p) (t'.state.partitions.holders p)).Lost has := by
  rintro ⟨h, hh, k, m, hk, hmissing⟩
  rw [hc.table.partitions] at hown hh
  have hp : p.id < partitionsAmount := by
    rw [← hs.wellFormed.keys p k m hk]
    exact k.partition_lt
  obtain ⟨-, hdone⟩ := hc.done p hp hready hown
  rcases hdone h hh with hall | ⟨st, hst, -⟩
  · exact hmissing (hall k m hk)
  · rw [hnone h] at hst
    cases hst

theorem closing_move (hs : t'.Sound has) (hc : Closing has me t t') (hm : Move has me t' t'') :
    Closing has me t t'' := by
  refine ⟨hc.table.trans (sameTable_move hm), fun p hp hready hown => ?_, fun hready => ?_⟩
  · obtain ⟨hstill, hdone⟩ := hc.done p hp hready hown
    refine ⟨(still_move hs hstill hm).1, fun h hh => ?_⟩
    have hnodes : h ∈ t'.state.nodes := by
      rw [hc.table.nodes]
      exact hready.connected h hh
    exact done_move hs hstill hnodes (hdone h hh) hm
  · have hold := hc.kept fun p records holders hin =>
      hready p records holders ((trace_move hm).subset hin)
    have hinner : ∀ e : Trace, e.inner = true → ¬ e.Lost has := fun _ he =>
      Trace.not_lost_of_not_removing (not_removing_of_inner he)
    cases hm with
    | round _ p h hh hframe ho =>
      obtain ⟨n, hpassed⟩ := hframe.passed
      exact hpassed.trace.all hinner hold
    | complete t₁ p h hh hframe ho =>
      obtain ⟨n, hpassed⟩ := hframe.passed
      intro e he
      rcases List.mem_append.mp he with hin | hin
      · exact hpassed.trace.all hinner hold e hin
      · rw [List.mem_singleton.mp hin]
        exact id
    | remove p hnone hown =>
      intro e he
      rcases List.mem_append.mp he with hin | hin
      · exact hold e hin
      · have hlast := List.mem_singleton.mp hin
        have hmem : Trace.removed p (t'.records p) (t'.state.partitions.holders p) ∈
            t'.trace ++ [Trace.removed p (t'.records p) (t'.state.partitions.holders p)] :=
          List.mem_append_right _ (List.mem_singleton_self _)
        rw [hlast]
        exact not_lost_remove hs hc (hready p _ _ hmem) hnone hown
    | _ => exact hold

/-- **A tick loses no record**, if it deletes only partitions that are
ready to go. -/
theorem not_lost_syncPartitions {order : Enumeration} (hs : t.Sound has) (htrace : t.trace = [])
    (hshort : ShortRanges (syncPartitions me order t).trace)
    (hready : ∀ p records holders,
      Trace.removed p records holders ∈ (syncPartitions me order t).trace → Ready me p t) :
    ∀ e ∈ (syncPartitions me order t).trace, ¬ e.Lost has := by
  have hshort₁ := hshort.of_prefix (trace_synced order t)
  have hvisits := moves_synced hs hshort₁
  have hempty : ∀ e ∈ t.trace, e.removing = false := by
    rw [htrace]
    exact fun e he => absurd he List.not_mem_nil
  have hstart : Closing has me t (t.synced me order) := by
    refine ⟨sameTable_moves hvisits, fun p hp hready hown => ?_, fun _ e he => ?_⟩
    · exact ⟨still_moves hs hready.still hvisits,
        fun h hh => done_synced hs hready hp hown hh hshort₁⟩
    · exact Trace.not_lost_of_not_removing (removing_synced hempty e he)
  have hend := moves_inv (I := fun t' => Closing has me t t')
    (fun t' t'' hs hc hm => closing_move hs hc hm) (hs.moves hvisits) hstart
    (moves_removeCompletedSyncs (t.synced me order))
  exact hend.kept hready

/-! ## Runs -/

/-- **Where a deletion is safe**, read at the world its tick begins with:
this node is an old replica of the partition, all its holders are
connected, no expiry is at work on it, and no client writes it and no
expiry begins on it during the tick. -/
def Trace.Safe (me : Me) (w : World) (env : Env) : Trace → Prop
  | .removed p _ _ => me.id ∈ w.state.partitions.olds p ∧
      (∀ n ∈ w.state.partitions.holders p, n ∈ w.state.nodes) ∧
      (w.store.partition p).activeWriters = 0 ∧
      ∀ events ∈ env.schedule, ∀ event ∈ events, StoreEvent.disturbs p event = false
  | _ => True

instance decidableSafe (me : Me) (w : World) (env : Env) : ∀ e : Trace, Decidable (e.Safe me w env)
  | .removed p _ _ => inferInstanceAs (Decidable (me.id ∈ w.state.partitions.olds p ∧
      (∀ n ∈ w.state.partitions.holders p, n ∈ w.state.nodes) ∧
      (w.store.partition p).activeWriters = 0 ∧
      ∀ events ∈ env.schedule, ∀ event ∈ events, StoreEvent.disturbs p event = false))
  | .gap _ _ | .timedOut _ _ _ _ | .completed _ _ _ => inferInstanceAs (Decidable True)

namespace World

variable {w : World} {a : Action}

/-- **No deletion has lost a record**: every holder of a deleted partition
has applied each of its records, or something at least as recent. -/
def NothingLost (w : World) : Prop := ∀ e ∈ w.trace, ¬ e.Lost w.Has

/-- A careful step that deletes only where that is safe. -/
structure Prudent (me : Me) (w : World) (a : Action) (trace : List Trace) : Prop where
  careful : w.Careful a trace
  safe : ∀ env ∈ a.env, ∀ e ∈ trace, e.Safe me (w.receive me a) env

instance (w : World) (a : Action) (trace : List Trace) : Decidable (Prudent me w a trace) :=
  decidable_of_iff (w.Careful a trace ∧ ∀ env ∈ a.env, ∀ e ∈ trace, e.Safe me (w.receive me a) env)
    ⟨fun ⟨h₁, h₂⟩ => ⟨h₁, h₂⟩, fun ⟨h₁, h₂⟩ => ⟨h₁, h₂⟩⟩

theorem NothingLost.receive (hl : w.NothingLost) : (w.receive me a).NothingLost := by
  obtain ⟨happlied, htrace⟩ := applied_receive me w a
  intro e he
  rw [htrace] at he
  have hold := hl e he
  cases e with
  | removed p records holders =>
    rintro ⟨h, hh, k, m, hk, hmissing⟩
    exact hold ⟨h, hh, k, m, hk, fun hhas => hmissing (hhas.mono happlied)⟩
  | _ => exact id

theorem partitions_heartbeats (state : State) (now : ℕ) :
    (heartbeats state me now).1.partitions = state.partitions := by
  unfold heartbeats
  split
  · split <;> rfl
  · rfl

/-- A deletion that is safe is of a partition ready to go. -/
theorem ready_of_safe {env : Env} {records : Map Key Mutation} {holders : Finset NodeId}
    (hsafe : (Trace.removed p records holders).Safe me w env) :
    Ready me p ⟨(heartbeats w.state me env.heartbeatNow).1, w.store,
      (heartbeats w.state me env.heartbeatNow).2, env.schedule, env.clock, w.sent, []⟩ := by
  obtain ⟨hold, hconnected, hidle, hquiet⟩ := hsafe
  refine ⟨?_, fun n hn => ?_, ⟨hquiet, hidle⟩⟩
  · rw [partitions_heartbeats]
    exact hold
  · rw [partitions_heartbeats] at hn
    exact mem_nodes_heartbeats.mpr (hconnected n hn)

theorem nothingLost_step (hs : w.Sound) (hl : w.NothingLost)
    (ha : Prudent me w a (w.traceOf me a)) : (w.step me a).NothingLost := by
  have hr := sound_receive me hs ha.careful.matched
  rcases step_eq me w a with ⟨-, heq, -⟩ | ⟨env, henv, heq, htrace⟩
  · rw [heq]
    exact hl.receive
  · have hshort := ha.careful.short
    have hsafe := ha.safe env henv
    rw [htrace] at hshort hsafe
    rw [heq]
    intro e he
    rcases List.mem_append.mp he with hin | hin
    · exact hl.receive e hin
    · exact not_lost_syncPartitions (hr.ticking env) rfl hshort
        (fun p records holders hmem => ready_of_safe (hsafe _ hmem)) e hin

/-- **Deletion loses nothing**, in every run whose steps are prudent. -/
theorem deletion_loses_nothing {now : ℕ} {actions : List Action}
    (hok : (start me now).Guarded me (Prudent me) actions) :
    (run (step me) (start me now) actions).NothingLost := by
  have hinv := run_inv (I := fun w : World => w.Sound ∧ w.NothingLost) (fun w a hw ha => ?_)
    ⟨sound_start now, ?_⟩ hok
  · exact hinv.2
  · obtain ⟨hs, hl⟩ := hw
    exact ⟨sound_step hs ha.careful, nothingLost_step hs hl ha⟩
  · exact fun e he => absurd he List.not_mem_nil

end World

/-- A deletion, with its records listed. -/
def Trace.deletion : Trace → Option (PartitionId × List (Key × Mutation) × Finset NodeId)
  | .removed p records holders => some (p, records.toList, holders)
  | _ => none

theorem exists_of_deletion {trace : List Trace} {records : List (Key × Mutation)}
    {holders : Finset NodeId} (hc : trace.filterMap Trace.deletion = [(p, records, holders)]) :
    ∃ stored, Trace.removed p stored holders ∈ trace ∧ stored.toList = records := by
  have hmem : (p, records, holders) ∈ trace.filterMap Trace.deletion := by
    rw [hc]
    exact List.mem_singleton_self _
  obtain ⟨e, he, heq⟩ := List.mem_filterMap.mp hmem
  cases e with
  | removed p' stored holders' =>
    cases heq
    exact ⟨stored, he, rfl⟩
  | _ => cases heq

namespace World

theorem deletion_loses_nothing_handover :
    (∃ records, Trace.removed ⟨0⟩ records {⟨2⟩} ∈ (run (step sender) (start sender 0)
      (handoverStarts ++ [.deliver 0, .respond 0 (during [])])).trace ∧
        records.toList = [(⟨0⟩, .put ⟨0, 1, [1]⟩)]) ∧
    (run (step sender) (start sender 0)
      (handoverStarts ++ [.deliver 0, .respond 0 (during [])])).NothingLost := by
  refine ⟨?_, deletion_loses_nothing (guarded_of_first (by decide +kernel))⟩
  rw [run_of_first (by decide +kernel)]
  exact exists_of_deletion (by decide +kernel)

/-- **A recipient that leaves takes the only copy with it.** The first
batch is out, undelivered, when worker 2 disconnects; the tick drops its
state, finds no recipient under way, and deletes the partition. -/
theorem leaving_recipient_loses_partition :
    ¬ (run (step sender) (start sender 0)
      (handoverStarts ++ [.message (.nodeDisconnected ⟨2⟩) (during [])])).NothingLost := by
  rw [run_of_first (by decide +kernel)]
  intro hkept
  have hdeletion : ∃ records, Trace.removed ⟨0⟩ records {⟨2⟩} ∈
      (run (firstStep sender) (start sender 0)
        (handoverStarts ++ [.message (.nodeDisconnected ⟨2⟩) (during [])])).trace ∧
      records.toList = [(⟨0⟩, .put ⟨0, 1, [1]⟩)] := exists_of_deletion (by decide +kernel)
  obtain ⟨records, hmem, hlist⟩ := hdeletion
  refine hkept _ hmem ⟨⟨2⟩, by decide, ⟨0⟩, .put ⟨0, 1, [1]⟩,
    Map.mem_toList.mp (by rw [hlist]; simp), ?_⟩
  rintro ⟨record, hrecord, -, -⟩
  have happlied : (run (firstStep sender) (start sender 0)
      (handoverStarts ++ [.message (.nodeDisconnected ⟨2⟩) (during [])])).applied = [] := by
    decide +kernel
  rw [happlied] at hrecord
  cases hrecord

end World

end Worker

end NoSqlStore
