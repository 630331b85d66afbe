import NoSqlStore.Sync.Deletion
import NoSqlStore.Sync.Idle
import NoSqlStore.Sync.Leftover
/-!
# What an acknowledgement announces

A worker acknowledges a partition whenever one recipient of it is
complete, and the leader strikes the worker off the old replicas on the
first acknowledgement. A `Ledger` keeps, beside the world of a worker,
what has been completed under its present table and every acknowledgement
put out, with what was complete by then. An acknowledgement is due if all
recipients of the partition are. In a patient run every one is
(`acknowledged_when_all_complete`): a tick has two recipients of a
partition under way only if the one it may complete is not the last.
-/

namespace NoSqlStore

namespace Worker

open Runs

variable {me : Me} {p : PartitionId} {h g : NodeId}

/-- An acknowledgement, with what its sender knew: the table, the nodes
connected, the recipients of the partition in the tick that put it out,
and what had been completed under the table by then. -/
structure Announcement where
  leaderId : NodeId
  partition : PartitionId
  table : Partitions
  nodes : Map NodeId Node
  recipients : Finset NodeId
  completed : List (PartitionId × NodeId)

/-- **The acknowledgement is due**: this node is an old replica of the
partition, so every recipient must be complete. -/
def Announcement.Due (me : Me) (a : Announcement) : Prop :=
  me.id ∈ a.table.olds a.partition → ∀ g ∈ a.recipients, (a.partition, g) ∈ a.completed

instance (a : Announcement) : Decidable (a.Due me) :=
  inferInstanceAs (Decidable (me.id ∈ a.table.olds a.partition →
    ∀ g ∈ a.recipients, (a.partition, g) ∈ a.completed))

/-- A worker's world, what it has completed since its table last changed,
and the acknowledgements it has put out. -/
structure Ledger where
  world : World
  done : List (PartitionId × NodeId)
  announced : List Announcement

namespace Ledger

/-- Nothing has been completed under a table that is new. -/
def kept (l : Ledger) (w : World) : List (PartitionId × NodeId) :=
  if w.state.partitions = l.world.state.partitions then l.done else []

/-- The recipients of a partition in a tick from this state. -/
def recipientsOf (me : Me) (state : State) (p : PartitionId) : Finset NodeId :=
  recipients me p state state.getCurrentlySyncedActualNodes

/-- The acknowledgements of a tick. Each is put out with one completion,
the two in the same order, so the completions before the tick and up to
that one are what is complete by then. -/
def announcements (me : Me) (w : World) (done : List (PartitionId × NodeId)) (t : Tick) :
    List Announcement :=
  (acks t.output).zipIdx.map fun e =>
    ⟨e.1.1, e.1.2.2, w.state.partitions, w.state.nodes, recipientsOf me w.state e.1.2.2,
      done ++ (completions t.trace).take (e.2 + 1)⟩

/-- What an action makes of the ledger: the world it leads to before its
tick, and the tick. -/
def advance (me : Me) (l : Ledger) (w : World) : Option Tick → Ledger
  | none => ⟨w, l.kept w, l.announced⟩
  | some t =>
    ⟨{ w with state := t.state, store := t.store, sent := t.sent, trace := w.trace ++ t.trace },
      l.kept w ++ completions t.trace, l.announced ++ announcements me w (l.kept w) t⟩

def step (me : Me) (l : Ledger) (a : Action) : Ledger :=
  l.advance me (l.world.receive me a) (a.env.map ((l.world.receive me a).ticked me))

def start (me : Me) (now : ℕ) : Ledger := ⟨World.start me now, [], []⟩

/-- The world of a ledger is a worker's world. -/
theorem world_step (me : Me) (l : Ledger) (a : Action) :
    (l.step me a).world = l.world.step me a := by
  unfold step World.step
  cases a.env with
  | none => rfl
  | some env => rfl

/-- **Every acknowledgement put out was due.** -/
def Due (me : Me) (l : Ledger) : Prop := ∀ a ∈ l.announced, a.Due me

instance (l : Ledger) : Decidable (l.Due me) :=
  inferInstanceAs (Decidable (∀ a ∈ l.announced, a.Due me))

/-- **A patient tick.** Of any two recipients of a partition of which this
node is an old replica, the one is among those done before, or the other
is owed something and nothing of the partition expires. -/
def PatientTick (me : Me) (w : World) (done : List (PartitionId × NodeId)) (env : Env) : Prop :=
  ∀ p : PartitionId, me.id ∈ w.state.partitions.olds p →
    ∀ h ∈ recipientsOf me w.state p, ∀ g ∈ recipientsOf me w.state p, g ≠ h →
      (p, g) ∈ done ∨
      (w.store.Lasting p env.schedule.flatten ∧ Owes (w.store.partition p) (w.syncState p h))

/-- **A patient step**: its tick is patient, with what has been completed
under the present table. -/
def Patient (me : Me) (l : Ledger) (a : Action) : Prop :=
  ∀ env ∈ a.env, PatientTick me (l.world.receive me a) (l.kept (l.world.receive me a)) env

end Ledger

/-! ## The store of a worker -/

theorem wellFormed_pruneChanges {t : Tick} (hw : t.store.WellFormed) :
    (pruneChanges p t).store.WellFormed := by
  unfold pruneChanges
  dsimp only
  split
  · exact RuntimeStore.wellFormed_prune (t.evolution_after 1 hw).1 _
  · split
    · exact RuntimeStore.wellFormed_prune (t.evolution_after 2 hw).1 _
    · exact (t.evolution_after 1 hw).1

theorem wellFormed_syncRecipient (me : Me) (p : PartitionId) (h : NodeId) {t : Tick}
    (hw : t.store.WellFormed) :
    (syncRecipient me p h t).store.WellFormed := by
  obtain ⟨n, hpassed⟩ := (frame_syncPartitionToRecipient me p h (t.touch p)).passed
  have hround := (hpassed.evolution hw).1
  unfold syncRecipient
  generalize syncPartitionToRecipient me p h (t.touch p) = result at hround
  obtain ⟨_ | _, t₁⟩ := result
  · exact hround
  · exact hround

theorem wellFormed_syncPartition (me : Me) (p : PartitionId) {t : Tick}
    (hw : t.store.WellFormed) (ids : List NodeId) :
    (syncPartition me p t ids).store.WellFormed := by
  have hrounds := run_keeps (I := fun t : Tick => t.store.WellFormed)
    (fun t h hw => wellFormed_syncRecipient me p h hw)
    (s := retainRecipients p t fun id _ => id ∈ t.state.nodes) hw ids
  exact wellFormed_pruneChanges (p := p) hrounds

theorem wellFormed_removeCompletedSync (me : Me) {t : Tick} (hw : t.store.WellFormed)
    (e : PartitionId × Map NodeId SyncState) : (removeCompletedSync me t e).store.WellFormed := by
  unfold removeCompletedSync
  split
  · dsimp only
    split
    · exact hw
    · exact (RuntimeStore.evolution_removePartition e.1 (t.evolution_after 1 hw).1).1
  · exact hw

/-- **A tick keeps the store well formed.** -/
theorem wellFormed_syncPartitions {t : Tick} (hw : t.store.WellFormed) (order : Enumeration) :
    (syncPartitions me order t).store.WellFormed := by
  have hsynced := run_keeps (I := fun t : Tick => t.store.WellFormed)
    (fun t' partition hw => wellFormed_syncPartition me ⟨partition⟩ hw
      (order.toList (recipients me ⟨partition⟩ t'.state t.state.getCurrentlySyncedActualNodes)))
    hw (List.range partitionsAmount)
  exact run_keeps (I := fun t : Tick => t.store.WellFormed)
    (fun t e hw => wellFormed_removeCompletedSync me hw e) hsynced _

theorem World.wellFormed_receive (me : Me) {w : World} (hw : w.store.WellFormed) (a : Action) :
    (w.receive me a).store.WellFormed := by
  cases a with
  | store event => exact (RuntimeStore.evolution_apply w.store event hw).1
  | message msg env =>
    by_cases hmsg : ∃ id keys, msg = .syncBatchResponse id keys
    · obtain ⟨id, keys, rfl⟩ := hmsg
      exact hw
    · rw [receive_message me w env fun id keys heq => hmsg ⟨id, keys, heq⟩]
      exact (evolution_handle _ _ _ _ hw).1
  | deliver i =>
    simp only [receive]
    split <;> exact hw
  | respond i env =>
    simp only [receive]
    split
    · exact hw
    · split <;> exact hw
  | tick env => exact hw
  | peer h event => exact hw

/-! ## Patient runs -/

/-- Heartbeats do not change whom a partition is sent to. -/
theorem recipients_heartbeats (state : State) (now : ℕ) (p : PartitionId) :
    Ledger.recipientsOf me (heartbeats state me now).1 p = Ledger.recipientsOf me state p := by
  have hsynced : (heartbeats state me now).1.getCurrentlySyncedActualNodes =
      state.getCurrentlySyncedActualNodes := by
    unfold heartbeats
    split
    · split <;> rfl
    · rfl
  unfold Ledger.recipientsOf recipients
  ext n
  rw [hsynced, World.partitions_heartbeats, Manager.mem_recipients, Manager.mem_recipients,
    mem_nodes_heartbeats]

namespace World

variable {w : World} {env : Env}

/-- The tick of an action at its start. -/
def ticking (w : World) (me : Me) (env : Env) : Tick :=
  ⟨(heartbeats w.state me env.heartbeatNow).1, w.store, (heartbeats w.state me env.heartbeatNow).2,
    env.schedule, env.clock, w.sent, []⟩

theorem announced_ticking (w : World) (me : Me) (env : Env) :
    Announced me (w.ticking me env) (w.ticking me env) := by
  obtain ⟨hkinds, hacks⟩ := ofTick_heartbeats w.state me env.heartbeatNow
  refine ⟨.refl _, hkinds, ?_⟩
  refine hacks.trans ?_
  cases (w.ticking me env).state.electedLeaderId <;> rfl

/-- A tick completes recipients of its partition only. -/
theorem mem_recipientsOf_completed (hin : (p, h) ∈ completions (w.ticked me env).trace) :
    h ∈ Ledger.recipientsOf me w.state p := by
  have hrecipient := mem_recipients_of_completed (announced_ticking w me env) rfl hin
  rw [← recipients_heartbeats w.state env.heartbeatNow p]
  exact hrecipient

/-- **A recipient that is owed something is not completed.** -/
theorem not_completed_of_owes (hw : w.store.WellFormed)
    (hl : w.store.Lasting p env.schedule.flatten)
    (hh : h ∈ Ledger.recipientsOf me w.state p)
    (ho : Owes (w.store.partition p) (w.syncState p h)) :
    (p, h) ∉ completions (w.ticked me env).trace := by
  have howing : Owing p h (w.ticking me env) := by
    refine ⟨hw, hl, mem_nodes_heartbeats.mpr (mem_nodes_of_recipient hh), ?_, List.not_mem_nil⟩
    rw [Tick.syncState]
    change Owes _ ((heartbeats w.state me env.heartbeatNow).1.sync[p]?.bind _)
    rw [sync_heartbeats]
    exact ho
  exact howing.not_completed me env.order

/-- The acknowledgements of a tick, in the order of its completions. -/
theorem completion_of_ack {i : ℕ} {ack : NodeId × NodeId × PartitionId}
    (hack : (acks (w.ticked me env).output)[i]? = some ack) :
    ∃ h, (completions (w.ticked me env).trace)[i]? = some (ack.2.2, h) ∧ ack.2.1 = me.id := by
  have hannounced := (announced_tick me env w.state w.store w.sent).acks
  change acks (w.ticked me env).output = _ at hannounced
  rw [hannounced] at hack
  dsimp only at hack
  split at hack
  · rw [List.getElem?_map, Option.map_eq_some_iff] at hack
    obtain ⟨e, he, rfl⟩ := hack
    exact ⟨e.2, he, rfl⟩
  · cases hack

end World

namespace Ledger

variable {l : Ledger} {a : Action}

/-- **A patient tick puts out acknowledgements that are due.** -/
theorem due_announcements {w : World} {done : List (PartitionId × NodeId)} {env : Env}
    (hw : w.store.WellFormed) (hp : PatientTick me w done env) :
    ∀ e ∈ announcements me w done (w.ticked me env), e.Due me := by
  intro e he hold g hg
  obtain ⟨⟨ack, i⟩, hin, rfl⟩ := List.mem_map.mp he
  dsimp only at hold hg ⊢
  rw [List.mem_zipIdx_iff_getElem?] at hin
  obtain ⟨h, hcompleted, -⟩ := World.completion_of_ack hin
  have hmem := List.mem_of_getElem? hcompleted
  have hh := World.mem_recipientsOf_completed hmem
  by_cases hne : g = h
  · -- the recipient whose completion is announced
    subst hne
    have hnow : (ack.2.2, g) ∈ (completions (w.ticked me env).trace).take (i + 1) := by
      refine List.mem_of_getElem? (i := i) ?_
      rw [List.getElem?_take_of_lt (Nat.lt_succ_self i)]
      exact hcompleted
    exact List.mem_append_right _ hnow
  · rcases hp ack.2.2 hold h hh g hg hne with hdone | ⟨hl, ho⟩
    · exact List.mem_append_left _ hdone
    · exact absurd hmem (World.not_completed_of_owes hw hl hh ho)

theorem wellFormed_step (me : Me) (hw : l.world.store.WellFormed) (a : Action) :
    (l.step me a).world.store.WellFormed := by
  have hw₁ := World.wellFormed_receive me hw a
  unfold step
  cases a.env with
  | none => exact hw₁
  | some env => exact wellFormed_syncPartitions hw₁ env.order

theorem due_step (hw : l.world.store.WellFormed) (hd : l.Due me) (hp : Patient me l a) :
    (l.step me a).Due me := by
  unfold step
  cases ha : a.env with
  | none => exact hd
  | some env =>
    intro e he
    rcases List.mem_append.mp he with hbefore | hnow
    · exact hd e hbefore
    · exact due_announcements (World.wellFormed_receive me hw a) (hp env ha) e hnow

/-- **An old replica acknowledges a partition only when all its recipients
are complete**, in every patient run. -/
theorem acknowledged_when_all_complete {now : ℕ} {actions : List Action}
    (hok : Along (step me) (Patient me) (start me now) actions) :
    (run (step me) (start me now) actions).Due me := by
  have hinv := run_inv (I := fun l : Ledger => l.world.store.WellFormed ∧ l.Due me)
    (fun l a hI ha => ⟨wellFormed_step me hI.1 a, due_step hI.1 hI.2 ha⟩)
    ⟨RuntimeStore.wellFormed_default, fun e he => absurd he List.not_mem_nil⟩ hok
  exact hinv.2

/-! ## Two recipients, computed -/

/-- An action of a worker whose first partition alone is busy. -/
def firstStep (me : Me) (l : Ledger) (a : Action) : Ledger :=
  l.advance me (l.world.receive me a) (a.env.map ((l.world.receive me a).firstTick me))

theorem step_eq_firstStep (ho : World.OnlyFirst me l.world a) : l.step me a = firstStep me l a := by
  unfold step firstStep
  cases ha : a.env with
  | none => rw [Option.map_none, Option.map_none]
  | some env =>
    rw [Option.map_some, Option.map_some, World.ticked_eq_firstTick (ho env ha)]

theorem run_eq_first {actions : List Action}
    (ho : Along (firstStep me) (fun l a => World.OnlyFirst me l.world a) l actions) :
    run (step me) l actions = run (firstStep me) l actions := by
  induction actions generalizing l with
  | nil => rw [run_nil, run_nil]
  | cons a actions ih =>
    rw [run_cons, run_cons, step_eq_firstStep ho.1]
    exact ih ho.2

/-- Of any two recipients, the one is complete or the other is owed
something. -/
def Settled (me : Me) (l : Ledger) (w : World) (p : PartitionId) : Prop :=
  ∀ h ∈ recipientsOf me w.state p, ∀ g ∈ recipientsOf me w.state p, g ≠ h →
    (p, g) ∈ l.kept w ∨ Owes (w.store.partition p) (w.syncState p h)

instance (l : Ledger) (w : World) : Decidable (Settled me l w p) :=
  inferInstanceAs (Decidable (∀ h ∈ recipientsOf me w.state p, ∀ g ∈ recipientsOf me w.state p,
    g ≠ h → (p, g) ∈ l.kept w ∨ Owes (w.store.partition p) (w.syncState p h)))

/-- A patient step of such a worker, where nothing is scheduled. -/
def PatientFirst (me : Me) (l : Ledger) (a : Action) : Prop :=
  ∀ env ∈ a.env, env.schedule.isEmpty ∧
    (∀ p ∈ (l.world.receive me a).state.partitions.oldReplicas.keys, p = ⟨0⟩) ∧
    Settled me l (l.world.receive me a) ⟨0⟩

instance (l : Ledger) (a : Action) : Decidable (PatientFirst me l a) :=
  inferInstanceAs (Decidable (∀ env ∈ a.env, env.schedule.isEmpty ∧
    (∀ p ∈ (l.world.receive me a).state.partitions.oldReplicas.keys, p = ⟨0⟩) ∧
    Settled me l (l.world.receive me a) ⟨0⟩))

theorem patient_of_first (hp : PatientFirst me l a) : Patient me l a := by
  intro env henv p hold h hh g hg hne
  obtain ⟨hschedule, honly, hpairs⟩ := hp env henv
  have hzero : p = ⟨0⟩ := by
    by_contra hne
    have hnone := Map.eq_none_of_keys honly hne
    rw [Partitions.olds, hnone] at hold
    exact absurd hold (Finset.notMem_empty _)
  subst hzero
  refine (hpairs h hh g hg hne).imp_right fun howes => ⟨?_, howes⟩
  rw [List.isEmpty_iff.mp hschedule]
  exact ⟨fun _ _ _ e he => absurd he List.not_mem_nil, fun e he => absurd he List.not_mem_nil⟩

/-- A patient run, computed. -/
theorem patient_of_run_first {actions : List Action}
    (hok : Along (firstStep me)
      (fun l a => World.OnlyFirst me l.world a ∧ PatientFirst me l a) l actions) :
    Along (step me) (Patient me) l actions := by
  induction actions generalizing l with
  | nil => exact along_nil l
  | cons a actions ih =>
    obtain ⟨⟨ho, ha⟩, hrest⟩ := hok
    rw [← step_eq_firstStep ho] at hrest
    exact ⟨patient_of_first ha, ih hrest⟩

/-- A table by which workers 1, 2 and 3 hold the first partition, of which
worker 1 is the old replica. -/
def threefold : Partitions where
  mapping := (∅ : Map PartitionId Partition).insert ⟨0⟩ ⟨⟨1⟩, {⟨2⟩, ⟨3⟩}⟩
  oldReplicas := (∅ : Map PartitionId (Finset NodeId)).insert ⟨0⟩ {⟨1⟩}
  newReplicas := ∅

/-- A worker connects. -/
def connects (n : ℕ) : Action :=
  .message (.newConnection (some ⟨n⟩) "worker" 9000 false) (during [])

/-- The table arrives. -/
def learns (table : Partitions) : Action :=
  .message (.clusterState ⟨1, ⟨9⟩, [], table⟩) (during [])

/-- Worker 2 is complete before worker 3 connects, and is sent the
partition anew when worker 3 is complete. -/
def oneByOne : List Action :=
  [.store (.put ⟨0⟩ ⟨0, 1, [1]⟩), connects 2, learns threefold, .deliver 0, .respond 0 (during []),
    connects 3, .deliver 2, .respond 2 (during [])]

/-- Two acknowledgements, the first with worker 2 as the one recipient. -/
theorem acknowledged_when_all_complete_one_by_one :
    ((run (step sender) (start sender 0) oneByOne).announced.map fun a =>
      (a.recipients, a.completed)) =
        [({⟨2⟩}, [(⟨0⟩, ⟨2⟩)]), ({⟨2⟩, ⟨3⟩}, [(⟨0⟩, ⟨2⟩), (⟨0⟩, ⟨3⟩)])] ∧
    (run (step sender) (start sender 0) oneByOne).Due sender := by
  refine ⟨?_, acknowledged_when_all_complete (patient_of_run_first (by decide +kernel))⟩
  rw [run_eq_first (by decide +kernel)]
  decide +kernel

/-- Workers 2 and 3 are both under way, and worker 2 alone answers. -/
def oneAnswers : List Action :=
  [.store (.put ⟨0⟩ ⟨0, 1, [1]⟩), connects 2, connects 3, learns threefold, .deliver 0,
    .respond 0 (during [])]

/-- **One recipient of two is enough.** The partition is acknowledged when
worker 2 is complete; worker 3 has got nothing of it. -/
theorem acknowledged_after_one_of_two :
    ¬ (run (step sender) (start sender 0) oneAnswers).Due sender ∧
    (run (step sender) (start sender 0) oneAnswers).world.applied =
      [(⟨2⟩, ⟨⟨0⟩, [1], 0, 1, false⟩)] := by
  rw [run_eq_first (by decide +kernel)]
  decide +kernel

end Ledger

end Worker

end NoSqlStore
