import NoSqlStore.Sync.World
/-!
# Idle partitions

A tick visits every partition of the key space. One with no record, no
recipient and no synchronisation under way is left as it is, so a tick in
which a single partition is busy is the visit of that partition and the
closing loop (`syncPartitions_of_only`). Runs of such worlds can be
computed, and the concrete runs of the following modules are.
-/

namespace NoSqlStore

namespace Worker

open Runs

variable {me : Me} {t : Tick} {p : PartitionId}

/-- **Nothing is known of any partition but the first**, and nothing is
scheduled. -/
structure Tick.Only (t : Tick) : Prop where
  schedule : t.schedule = []
  sync : ∀ p ∈ t.state.sync.keys, p = ⟨0⟩
  cache : ∀ p ∈ t.store.cache.keys, p = ⟨0⟩
  mapping : ∀ p ∈ t.state.partitions.mapping.keys, p = ⟨0⟩

instance (t : Tick) : Decidable t.Only :=
  decidable_of_iff (t.schedule.isEmpty ∧ (∀ p ∈ t.state.sync.keys, p = ⟨0⟩) ∧
      (∀ p ∈ t.store.cache.keys, p = ⟨0⟩) ∧ ∀ p ∈ t.state.partitions.mapping.keys, p = ⟨0⟩)
    ⟨fun ⟨h₁, h₂, h₃, h₄⟩ => ⟨List.isEmpty_iff.mp h₁, h₂, h₃, h₄⟩,
      fun ⟨h₁, h₂, h₃, h₄⟩ => ⟨List.isEmpty_iff.mpr h₁, h₂, h₃, h₄⟩⟩

theorem retainRecipients_of_none {keep : NodeId → SyncState → Bool}
    (hsync : t.state.sync[p]? = none) : retainRecipients p t keep = t := by
  have halter : (t.state.sync.alter p fun states => states.map fun states => states.filter keep) =
      t.state.sync := by
    ext1 q
    rw [Std.ExtTreeMap.getElem?_alter]
    split
    · rename_i heq
      rw [← compare_eq_iff_eq.mp heq, hsync]
      rfl
    · rfl
  unfold retainRecipients
  rw [halter]

theorem prunePartitionChanges_of_none {store : RuntimeStore} {through : ℕ}
    (hcache : store.cache[p]? = none) : store.prunePartitionChanges p through = store := by
  have halter : ∀ f : PartitionStore → PartitionStore,
      (store.cache.alter p fun entry => entry.map f) = store.cache := by
    intro f
    ext1 q
    rw [Std.ExtTreeMap.getElem?_alter]
    split
    · rename_i heq
      rw [← compare_eq_iff_eq.mp heq, hcache]
      rfl
    · rfl
  unfold RuntimeStore.prunePartitionChanges RuntimeStore.modify
  rw [halter]

/-- **An idle partition is left as it is.** -/
theorem syncPartition_idle (hs : t.schedule = []) (hsync : t.state.sync[p]? = none)
    (hcache : t.store.cache[p]? = none) : syncPartition me p t [] = t := by
  have hstable : t.store.stablePartitionRevision p = some 0 := by
    unfold RuntimeStore.stablePartitionRevision
    rw [hcache]
  unfold syncPartition
  simp only [List.foldl_nil, retainRecipients_of_none hsync]
  unfold pruneChanges
  simp only [hsync, Option.bind_none, Tick.interleave_of_nil hs, hstable,
    prunePartitionChanges_of_none hcache]

theorem recipients_of_none {state : State} {synced : Map PartitionId (Finset NodeId)}
    (hm : state.partitions.mapping[p]? = none) : recipients me p state synced = ∅ := by
  unfold recipients getNodeIdsCurrNodeHasToSyncThePartitionTo
  simp [hm]

theorem toList_empty (order : Enumeration) : order.toList ∅ = [] := by
  rw [List.eq_nil_iff_forall_not_mem]
  intro n hn
  rw [order.mem_toList] at hn
  cases hn

/-- The visit of the first partition. -/
def Tick.first (me : Me) (order : Enumeration) (t : Tick) : Tick :=
  syncPartition me ⟨0⟩ t
    (order.toList (recipients me ⟨0⟩ t.state t.state.getCurrentlySyncedActualNodes))

/-- **A tick in which only the first partition is busy.** -/
theorem syncPartitions_of_only {order : Enumeration} (ho : (t.first me order).Only) :
    syncPartitions me order t =
      removeCompletedSyncsAndObsoletePartitions me (t.first me order) := by
  obtain ⟨n, hn⟩ := Nat.exists_eq_succ_of_ne_zero (Nat.pos_iff_ne_zero.mp partitionsAmount_pos)
  have hrest : ∀ l : List ℕ, (∀ i ∈ l, i ≠ 0) → l.foldl (fun t' partition =>
      syncPartition me ⟨partition⟩ t' (order.toList (recipients me ⟨partition⟩ t'.state
        t.state.getCurrentlySyncedActualNodes))) (t.first me order) = t.first me order := by
    intro l hl
    induction l with
    | nil => rfl
    | cons i l ih =>
      have hp : (⟨i⟩ : PartitionId) ≠ ⟨0⟩ := fun heq =>
        hl i List.mem_cons_self (congrArg PartitionId.id heq)
      rw [List.foldl_cons, recipients_of_none (Map.eq_none_of_keys ho.mapping hp), toList_empty,
        syncPartition_idle ho.schedule (Map.eq_none_of_keys ho.sync hp)
          (Map.eq_none_of_keys ho.cache hp)]
      exact ih fun j hj => hl j (List.mem_cons_of_mem _ hj)
  rw [syncPartitions_eq, Tick.synced, hn, List.range_succ_eq_map, List.foldl_cons]
  exact congrArg _ (hrest _ fun i hi => by
    obtain ⟨j, -, rfl⟩ := List.mem_map.mp hi
    exact Nat.succ_ne_zero j)

/-- The first visit is the first thing a tick leaves on its trace. -/
theorem trace_first (me : Me) (order : Enumeration) (t : Tick) :
    (t.first me order).trace <+: (syncPartitions me order t).trace := by
  obtain ⟨n, hn⟩ := Nat.exists_eq_succ_of_ne_zero (Nat.pos_iff_ne_zero.mp partitionsAmount_pos)
  refine List.IsPrefix.trans ?_ (trace_synced order t)
  rw [Tick.synced, hn, List.range_succ_eq_map, List.foldl_cons]
  exact trace_foldl (fun t' partition => trace_syncPartition t' _) _ _

/-- **An empty partition is complete at once**, if nothing happens to it. -/
theorem syncPartitionToRecipient_of_empty (me : Me) {h : NodeId} (hs : t.schedule = [])
    (hcache : t.store.cache[p]? = none) (hsync : t.syncState p h = none) :
    syncPartitionToRecipient me p h t = (true, t) := by
  have hstable : t.store.stablePartitionRevision p = some 0 := by
    unfold RuntimeStore.stablePartitionRevision
    rw [hcache]
  have hbatch : syncBatch me p h t none = (none, t) := by
    unfold syncBatch RuntimeStore.getPartitionMutations
    simp only [Tick.interleave_of_nil hs, hcache]
    rfl
  unfold syncPartitionToRecipient startSync
  simp only [hsync, Tick.interleave_of_nil hs, hstable, hbatch, decide_true]

namespace World

/-- The tick of a world whose first partition is the busy one, up to its
closing loop. -/
def firstVisit (w : World) (me : Me) (env : Env) : Tick :=
  Tick.first me env.order ⟨(heartbeats w.state me env.heartbeatNow).1, w.store,
    (heartbeats w.state me env.heartbeatNow).2, env.schedule, env.clock, w.sent, []⟩

def firstTick (w : World) (me : Me) (env : Env) : Tick :=
  removeCompletedSyncsAndObsoletePartitions me (w.firstVisit me env)

/-- An action of such a world. -/
def firstStep (me : Me) (w : World) (action : Action) : World :=
  let w := w.receive me action
  match action.env with
  | none => w
  | some env =>
    let t := w.firstTick me env
    { w with state := t.state, store := t.store, sent := t.sent, trace := w.trace ++ t.trace }

def firstTrace (me : Me) (w : World) (action : Action) : List Trace :=
  match action.env with
  | none => []
  | some env => ((w.receive me action).firstTick me env).trace

/-- The tick of the action finds only the first partition busy. -/
def OnlyFirst (me : Me) (w : World) (action : Action) : Prop :=
  ∀ env ∈ action.env, ((w.receive me action).firstVisit me env).Only

instance (me : Me) (w : World) (action : Action) : Decidable (OnlyFirst me w action) :=
  inferInstanceAs (Decidable (∀ env ∈ action.env, ((w.receive me action).firstVisit me env).Only))

theorem ticked_eq_firstTick {w : World} {env : Env} (ho : (w.firstVisit me env).Only) :
    w.ticked me env = w.firstTick me env := syncPartitions_of_only ho

theorem step_eq_firstStep {w : World} {a : Action} (ho : OnlyFirst me w a) :
    w.step me a = firstStep me w a ∧ w.traceOf me a = firstTrace me w a := by
  rcases step_eq me w a with ⟨ha, hstep, htrace⟩ | ⟨env, ha, hstep, htrace⟩
  · rw [hstep, htrace, firstStep, firstTrace, ha]
    exact ⟨rfl, rfl⟩
  · rw [hstep, htrace, finish, ticked_eq_firstTick (ho env ha), firstStep, firstTrace, ha]
    exact ⟨rfl, rfl⟩

/-- **The run of a world whose first partition alone is busy**, computed. -/
theorem run_of_first {w : World} {actions : List Action}
    (ho : Along (firstStep me) (OnlyFirst me) w actions) :
    run (step me) w actions = run (firstStep me) w actions := by
  induction actions generalizing w with
  | nil => rw [run_nil, run_nil]
  | cons a actions ih =>
    rw [run_cons, run_cons, (step_eq_firstStep ho.1).1]
    exact ih ho.2

/-- The conditions of such a run, computed. -/
theorem guarded_of_first {ok : World → Action → List Trace → Prop} {w : World}
    {actions : List Action} (hok : Along (firstStep me)
      (fun w a => OnlyFirst me w a ∧ ok w a (firstTrace me w a)) w actions) :
    w.Guarded me ok actions := by
  induction actions generalizing w with
  | nil => exact along_nil w
  | cons a actions ih =>
    obtain ⟨⟨ho, ha⟩, hrest⟩ := hok
    obtain ⟨hstep, htrace⟩ := step_eq_firstStep ho
    have hg := ih hrest
    rw [← hstep] at hg
    rw [← htrace] at ha
    exact ⟨ha, hg⟩

end World

/-! ## A handover to be computed -/

/-- The nodes of a set in ascending order. -/
def Enumeration.ascending : Enumeration where
  toList s := Quot.liftOn s.val (List.insertionSort (· ≤ ·)) fun a b hab =>
    ((List.perm_insertionSort _ a).trans (hab.trans (List.perm_insertionSort _ b).symm)
      ).eq_of_pairwise' (List.pairwise_insertionSort _ a) (List.pairwise_insertionSort _ b)
  mem_toList s n := by
    obtain ⟨s, hs⟩ := s
    induction s using Quot.inductionOn with
    | h l => exact List.mem_insertionSort _
  nodup_toList s := by
    obtain ⟨s, hs⟩ := s
    induction s using Quot.inductionOn with
    | h l => exact (List.perm_insertionSort _ l).nodup_iff.mpr hs

/-- Worker 1, which is to hand the first partition over. -/
def sender : Me := ⟨⟨1⟩, "worker-1", 9001⟩

/-- A table that gives the first partition to worker 2, with worker 1 as
its old replica. -/
def handover : Partitions where
  mapping := (∅ : Map PartitionId Partition).insert ⟨0⟩ ⟨⟨2⟩, ∅⟩
  oldReplicas := (∅ : Map PartitionId (Finset NodeId)).insert ⟨0⟩ {⟨1⟩}
  newReplicas := ∅

/-- Worker 1 keeps the first partition and worker 2 is new to it. -/
def widened : Partitions where
  mapping := (∅ : Map PartitionId Partition).insert ⟨0⟩ ⟨⟨1⟩, {⟨2⟩}⟩
  oldReplicas := ∅
  newReplicas := (∅ : Map PartitionId (Finset NodeId)).insert ⟨0⟩ {⟨2⟩}

/-- A turn at time 0 during which the store is used as scheduled. -/
def during (schedule : List (List StoreEvent)) : Env := ⟨.ascending, schedule, [], 0, 0⟩

/-- A key of the first partition is stored under version 1, worker 2
connects, and the table arrives: the first batch goes out. -/
def handoverStarts : List Action :=
  [.store (.put ⟨0⟩ ⟨0, 1, [1]⟩),
    .message (.newConnection (some ⟨2⟩) "worker-2" 9002 false) (during []),
    .message (.clusterState ⟨1, ⟨9⟩, [], handover⟩) (during [])]

end Worker

end NoSqlStore
