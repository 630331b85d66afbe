import NoSqlStore.Sync.Visits
/-!
# What rounds, visits and ticks send

A round sends batches of its own partition to its own recipient, and
nothing else of a tick sends any (`Adds`). So the batches of a partition to
a recipient are those of their own rounds, of which a tick has one if the
recipient is one of the partition's, and none otherwise.
-/

namespace NoSqlStore

namespace Worker

open Runs

variable {me : Me} {p q : PartitionId} {h g : NodeId} {t t' t'' : Tick}

/-- The batches of a partition sent to a recipient. -/
def batchesTo (p : PartitionId) (h : NodeId) (sent : List Sent) : List Sent :=
  sent.filter fun b => b.partition = p ∧ b.recipient = h

theorem batchesTo_append (sent sent' : List Sent) :
    batchesTo p h (sent ++ sent') = batchesTo p h sent ++ batchesTo p h sent' :=
  List.filter_append _ _

/-- **What a round adds**: batches of its partition to its recipient. The
clock moves on. -/
structure Adds (p : PartitionId) (h : NodeId) (t t' : Tick) : Prop where
  sent : ∃ bs : List Sent, t'.sent = t.sent ++ bs ∧ ∀ b ∈ bs, b.partition = p ∧ b.recipient = h
  clock : t'.clock <:+ t.clock

theorem Adds.of_eq (hsent : t'.sent = t.sent) (hclock : t'.clock = t.clock) : Adds p h t t' :=
  ⟨⟨[], by rw [hsent, List.append_nil], fun _ hb => absurd hb List.not_mem_nil⟩,
    by rw [hclock]⟩

theorem Adds.trans (h₁ : Adds p h t t') (h₂ : Adds p h t' t'') : Adds p h t t'' := by
  obtain ⟨bs₁, hs₁, hb₁⟩ := h₁.sent
  obtain ⟨bs₂, hs₂, hb₂⟩ := h₂.sent
  refine ⟨⟨bs₁ ++ bs₂, by rw [hs₂, hs₁, List.append_assoc], fun b hb => ?_⟩,
    h₂.clock.trans h₁.clock⟩
  rcases List.mem_append.mp hb with hb | hb
  · exact hb₁ b hb
  · exact hb₂ b hb

theorem moving_adds (me : Me) (p : PartitionId) (h : NodeId) : Moving me p h (Adds p h) where
  refl _ := .of_eq rfl rfl
  trans := .trans
  interleave _ := .of_eq rfl rfl
  now t := ⟨⟨[], (List.append_nil _).symm, fun _ hb => absurd hb List.not_mem_nil⟩,
    List.tail_suffix t.clock⟩
  log _ _ _ := .of_eq rfl rfl
  setSyncState _ _ := .of_eq rfl rfl
  pushBatch _ _ _ := ⟨⟨[_], rfl, fun _ hb => List.mem_singleton.mp hb ▸ ⟨rfl, rfl⟩⟩,
    List.suffix_refl _⟩

/-- The record of a completion sends nothing. -/
theorem adds_recordCompletedSync (event : Trace) :
    Adds p h t (recordCompletedSync me q g (t.log event)) := by
  unfold recordCompletedSync
  exact .of_eq rfl rfl

theorem adds_syncRecipient (me : Me) (p : PartitionId) (h : NodeId) (t : Tick) :
    Adds p h t (syncRecipient me p h t) := by
  have htouch : Adds p h t (t.touch p) := .of_eq rfl rfl
  have hround := htouch.trans ((moving_adds me p h).round (t.touch p))
  unfold syncRecipient
  generalize syncPartitionToRecipient me p h (t.touch p) = result at hround
  obtain ⟨_ | _, t₁⟩ := result
  · exact hround
  · exact hround.trans (adds_recordCompletedSync _)

theorem completions_record (records : Map Key Mutation) :
    completions (recordCompletedSync me q g (t.log (.completed q g records))).trace =
      completions t.trace ++ [(q, g)] :=
  completions_append t.trace _

/-- The completion of another. -/
theorem mem_completions_record (hne : ¬ (q = p ∧ g = h)) (records : Map Key Mutation) :
    (p, h) ∈ completions (recordCompletedSync me q g (t.log (.completed q g records))).trace ↔
      (p, h) ∈ completions t.trace := by
  rw [completions_record, List.mem_append, List.mem_singleton, Prod.mk.injEq]
  exact or_iff_left fun heq => hne ⟨heq.1.symm, heq.2.symm⟩

/-- A round of another recipient, or of another partition. -/
theorem Adds.batchesTo_eq (ha : Adds q g t t') (hne : ¬ (q = p ∧ g = h)) :
    batchesTo p h t'.sent = batchesTo p h t.sent := by
  obtain ⟨bs, hsent, hbs⟩ := ha.sent
  have hnone : batchesTo p h bs = [] := by
    refine List.filter_eq_nil_iff.mpr fun b hb => ?_
    obtain ⟨hq, hg⟩ := hbs b hb
    rw [hq, hg]
    simpa using fun hp hh => hne ⟨hp, hh⟩
  rw [hsent, batchesTo_append, hnone, List.append_nil]

/-! ## Rounds that complete -/

/-- An empty page is not sent. -/
theorem sent_syncBatch_of_none {after : Option Key} (hnone : (syncBatch me p h t after).1 = none) :
    (syncBatch me p h t after).2.sent = t.sent := by
  rcases syncBatch_spec me p h t after with ⟨-, heq⟩ | ⟨last, -, heq⟩
  · rw [heq]
    exact t.after_sent 1
  · rw [heq] at hnone
    cases hnone

/-- A journal under whose entries nothing is stored is not sent. -/
theorem sent_changeLoop_of_none (fuel : ℕ) : ∀ (t : Tick) (cursor : ℕ)
    (reads : List (ℕ × Key × Option Mutation)), (changeLoop me p h fuel t cursor reads).1 = none →
    (changeLoop me p h fuel t cursor reads).2.sent = t.sent := by
  induction fuel with
  | zero => exact fun t _ _ _ => rfl
  | succ fuel ih =>
    intro t cursor reads hnone
    rcases changeLoop_succ me p h t fuel cursor reads with
      ⟨-, heq⟩ | ⟨last, -, ⟨-, heq⟩ | ⟨key, -, heq⟩⟩
    · rw [heq]
      exact t.after_sent 1
    · rw [heq] at hnone ⊢
      exact (ih _ _ _ hnone).trans (t.after_sent 1)
    · rw [heq] at hnone
      cases hnone

theorem sent_startSync_of_completed (hc : (startSync me p h t).1 = true) :
    (startSync me p h t).2.sent = t.sent := by
  have hnone := @sent_syncBatch_of_none me p h t.interleave none
  unfold startSync at hc ⊢
  dsimp only at hc ⊢
  split at hc
  · cases hc
  · generalize syncBatch me p h t.interleave none = batch at hc hnone
    obtain ⟨_ | key, t₁⟩ := batch
    · exact hnone rfl
    · cases hc

theorem sent_continueChanges_of_completed {st : SyncState} {c : ℕ}
    (hc : (continueChanges me p h t st c).1 = true) :
    (continueChanges me p h t st c).2.sent = t.sent := by
  have hnone : (syncChangeBatch me p h t c).1 = none →
      (syncChangeBatch me p h t c).2.sent = t.sent :=
    sent_changeLoop_of_none _ t c []
  unfold continueChanges at hc ⊢
  generalize syncChangeBatch me p h t c = batch at hc hnone
  obtain ⟨_ | found, t₁⟩ := batch
  · dsimp only
    split <;> exact hnone rfl
  · cases hc

theorem sent_continueConfirmedSync_of_completed {st : SyncState}
    (hc : (continueConfirmedSync me p h t st).1 = true) :
    (continueConfirmedSync me p h t st).2.sent = t.sent := by
  have hnone := @sent_syncBatch_of_none me p h t (some st.currMaxKey)
  unfold continueConfirmedSync at hc ⊢
  cases hphase : st.phase with
  | changes confirmed pending =>
    rw [hphase] at hc
    exact sent_continueChanges_of_completed hc
  | snapshot revision =>
    rw [hphase] at hc
    dsimp only at hc ⊢
    generalize syncBatch me p h t (some st.currMaxKey) = batch at hc hnone
    obtain ⟨_ | key, t₁⟩ := batch
    · exact (sent_continueChanges_of_completed hc).trans (hnone rfl)
    · cases hc

/-- **A round that completes sends nothing.** -/
theorem sent_of_completed (hc : (syncPartitionToRecipient me p h t).1 = true) :
    (syncPartitionToRecipient me p h t).2.sent = t.sent := by
  unfold syncPartitionToRecipient at hc ⊢
  cases hst : t.syncState p h with
  | none =>
    rw [hst] at hc
    exact sent_startSync_of_completed hc
  | some st =>
    rw [hst] at hc
    dsimp only at hc ⊢
    by_cases hconfirmed : st.confirmed = true
    · rw [if_pos hconfirmed] at hc ⊢
      exact sent_continueConfirmedSync_of_completed hc
    · rw [if_neg hconfirmed] at hc
      cases hc

/-! ## Visits -/

/-- **What a tick has sent stays sent**, and the clock moves on. -/
structure Onward (t t' : Tick) : Prop where
  sent : t.sent <+: t'.sent
  clock : t'.clock <:+ t.clock

theorem Onward.of_eq (hsent : t'.sent = t.sent) (hclock : t'.clock = t.clock) : Onward t t' :=
  ⟨by rw [hsent], by rw [hclock]⟩

theorem Onward.trans (h₁ : Onward t t') (h₂ : Onward t' t'') : Onward t t'' :=
  ⟨h₁.sent.trans h₂.sent, h₂.clock.trans h₁.clock⟩

theorem Adds.onward (ha : Adds p h t t') : Onward t t' := by
  obtain ⟨bs, hsent, -⟩ := ha.sent
  exact ⟨⟨bs, hsent.symm⟩, ha.clock⟩

/-- The batches of a partition to a recipient only become more. -/
theorem Onward.batchesTo_length (ho : Onward t t') :
    (batchesTo p h t.sent).length ≤ (batchesTo p h t'.sent).length :=
  (ho.sent.filter _).length_le

theorem sent_pruneChanges (p : PartitionId) (t : Tick) :
    (pruneChanges p t).sent = t.sent ∧ (pruneChanges p t).clock = t.clock := by
  unfold pruneChanges
  dsimp only
  split
  · exact ⟨rfl, rfl⟩
  · split <;> exact ⟨rfl, rfl⟩

theorem sent_removeCompletedSync (me : Me) (t : Tick) (e : PartitionId × Map NodeId SyncState) :
    (removeCompletedSync me t e).sent = t.sent ∧ (removeCompletedSync me t e).clock = t.clock := by
  unfold removeCompletedSync
  split
  · dsimp only
    split <;> exact ⟨rfl, rfl⟩
  · exact ⟨rfl, rfl⟩

/-- The last loop of a tick sends nothing. -/
theorem sent_removeCompletedSyncs (me : Me) (t : Tick) :
    (removeCompletedSyncsAndObsoletePartitions me t).sent = t.sent ∧
      (removeCompletedSyncsAndObsoletePartitions me t).clock = t.clock := by
  refine run_keeps (I := fun t' : Tick => t'.sent = t.sent ∧ t'.clock = t.clock)
    (fun t' e heq => ?_) ⟨rfl, rfl⟩ t.state.sync.toList
  obtain ⟨hsent, hclock⟩ := sent_removeCompletedSync me t' e
  exact ⟨hsent.trans heq.1, hclock.trans heq.2⟩

/-- The rounds of a visit. -/
def rounds (me : Me) (q : PartitionId) (t : Tick) (ids : List NodeId) : Tick :=
  ids.foldl (fun t g => syncRecipient me q g t) t

theorem syncPartition_eq (me : Me) (q : PartitionId) (t : Tick) (ids : List NodeId) :
    syncPartition me q t ids = pruneChanges q (retainRecipients q
      (rounds me q (retainRecipients q t fun id _ => id ∈ t.state.nodes) ids)
      fun _ st => !st.confirmed) := rfl

/-- What a visit sends, its rounds send. -/
theorem sent_syncPartition (me : Me) (q : PartitionId) (t : Tick) (ids : List NodeId) :
    (syncPartition me q t ids).sent =
        (rounds me q (retainRecipients q t fun id _ => id ∈ t.state.nodes) ids).sent ∧
      (syncPartition me q t ids).clock =
        (rounds me q (retainRecipients q t fun id _ => id ∈ t.state.nodes) ids).clock := by
  rw [syncPartition_eq]
  exact sent_pruneChanges q _

theorem onward_rounds (me : Me) (q : PartitionId) (t : Tick) (ids : List NodeId) :
    Onward t (rounds me q t ids) :=
  run_keeps (I := Onward t) (fun t' g ho => ho.trans (adds_syncRecipient me q g t').onward)
    (.of_eq rfl rfl) ids

theorem onward_syncPartition (me : Me) (q : PartitionId) (t : Tick) (ids : List NodeId) :
    Onward t (syncPartition me q t ids) := by
  obtain ⟨hsent, hclock⟩ := sent_syncPartition me q t ids
  have hrounds := onward_rounds me q (retainRecipients q t fun id _ => id ∈ t.state.nodes) ids
  exact ⟨hsent ▸ hrounds.sent, hclock ▸ hrounds.clock⟩

/-- The rounds of other recipients. -/
theorem batchesTo_rounds {ids : List NodeId} (hne : ¬ (q = p ∧ h ∈ ids)) (t : Tick) :
    batchesTo p h (rounds me q t ids).sent = batchesTo p h t.sent := by
  induction ids generalizing t with
  | nil => rfl
  | cons g ids ih =>
    have hrest : ¬ (q = p ∧ h ∈ ids) := fun hin => hne ⟨hin.1, List.mem_cons_of_mem _ hin.2⟩
    have hfirst : ¬ (q = p ∧ g = h) := fun hin => hne ⟨hin.1, hin.2 ▸ List.mem_cons_self⟩
    exact (ih hrest _).trans ((adds_syncRecipient me q g t).batchesTo_eq hfirst)

/-! ## The rule of a bystander -/

/-- **What the steps that concern others keep**: the rounds of other
recipients and other partitions, the record of their completion, and what
a visit does before and after its rounds. -/
structure Bystander (me : Me) (p : PartitionId) (h : NodeId) (I : Tick → Prop) : Prop where
  touch : ∀ t q, I t → I (t.touch q)
  interleave : ∀ t, I t → I t.interleave
  round : ∀ t t' q g, ¬ (q = p ∧ g = h) → Frame q g t t' → Adds q g t t' → I t → I t'
  record : ∀ t q g records, ¬ (q = p ∧ g = h) → I t →
    I (recordCompletedSync me q g (t.log (.completed q g records)))
  leave : ∀ t q, I t → I (retainRecipients q t fun id _ => id ∈ t.state.nodes)
  settle : ∀ t q, q ≠ p → I t → I (retainRecipients q t fun _ st => !st.confirmed)
  prune : ∀ t q through, q ≠ p → I t →
    I { t with store := t.store.prunePartitionChanges q through }

namespace Bystander

variable {I : Tick → Prop} (hb : Bystander me p h I)
include hb

theorem syncRecipient (hne : ¬ (q = p ∧ g = h)) (ht : I t) : I (syncRecipient me q g t) := by
  have hround := hb.round _ _ q g hne (frame_syncPartitionToRecipient me q g (t.touch q))
    ((moving_adds me q g).round (t.touch q)) (hb.touch t q ht)
  unfold Worker.syncRecipient
  generalize syncPartitionToRecipient me q g (t.touch q) = result at hround
  obtain ⟨_ | _, t₁⟩ := result
  · exact hround
  · exact hb.record t₁ q g _ hne hround

theorem pruneChanges (hq : q ≠ p) (ht : I t) : I (pruneChanges q t) := by
  unfold Worker.pruneChanges
  dsimp only
  split
  · exact hb.prune _ q _ hq (hb.interleave t ht)
  · split
    · exact hb.prune _ q _ hq (hb.interleave _ (hb.interleave t ht))
    · exact hb.interleave t ht

/-- **The visit of another partition.** -/
theorem syncPartition (hq : q ≠ p) (ids : List NodeId) (ht : I t) :
    I (syncPartition me q t ids) := by
  have hrounds : I (rounds me q (retainRecipients q t fun id _ => id ∈ t.state.nodes) ids) :=
    run_keeps (fun t g ht => hb.syncRecipient (fun hin => hq hin.1) ht) (hb.leave t q ht) ids
  rw [syncPartition_eq]
  exact hb.pruneChanges hq (hb.settle _ q hq hrounds)

end Bystander

/-- **The rule of a visited partition.** What holds before the visit of a
partition is kept by the visits of others; what that visit brings about
is kept by the visits after it. -/
theorem synced_once {I J : Tick → Prop} {order : Enumeration} (hp : p.id < partitionsAmount)
    (hI : ∀ t q ids, q ≠ p → I t → I (syncPartition me q t ids))
    (hvisit : ∀ t', I t' → J (syncPartition me p t' (order.toList
      (recipients me p t'.state t.state.getCurrentlySyncedActualNodes))))
    (hJ : ∀ t q ids, q ≠ p → J t → J (syncPartition me q t ids)) (ht : I t) :
    J (t.synced me order) := by
  refine run_once (I := I) (J := J) (a := p.id) (fun t' i hi ht' => ?_) hvisit
    (fun t' i hi ht' => ?_) List.nodup_range (List.mem_range.mpr hp) ht
  · exact hI t' ⟨i⟩ _ (fun heq => hi (congrArg PartitionId.id heq)) ht'
  · exact hJ t' ⟨i⟩ _ (fun heq => hi (congrArg PartitionId.id heq)) ht'

/-- **A visit sends a partition only to the recipients it is given.** -/
theorem batchesTo_syncPartition {ids : List NodeId} (hne : ¬ (q = p ∧ h ∈ ids)) (t : Tick) :
    batchesTo p h (syncPartition me q t ids).sent = batchesTo p h t.sent := by
  rw [(sent_syncPartition me q t ids).1]
  exact batchesTo_rounds hne _

end Worker

end NoSqlStore
