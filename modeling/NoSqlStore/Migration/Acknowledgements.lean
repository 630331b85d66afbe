import NoSqlStore.Common.Numbered
import NoSqlStore.Migration.Table
import NoSqlStore.Sync.Announcements
/-!
# Acknowledgements that arrive late

An acknowledgement names a replica and a partition, and nothing else. The
leader strikes the replica off whatever has become of the table since it
was sent. A `Fleet` is a leader and its workers; the cluster states a
leader has put out and the acknowledgements a worker has put out may
arrive at any later time, any number of times or never. The mapping of a
partition may come back to what it was, so a fleet numbers its changes,
and the number goes with every table, completion and acknowledgement
(`Numbered.Dated`). An acknowledgement that arrives while the mapping it
was sent under is in force finds the partition complete at every other
holder since that mapping came into force (`acknowledgement_in_force`);
one that arrives after a recomputation need not.
-/

namespace NoSqlStore

namespace Migration

open Runs Numbered

/-- A worker's world, the numbers of the mappings in its table, and what it
has completed and acknowledged, each with the number of the partition's
mapping. -/
structure Post where
  world : Worker.World
  numbers : PartitionId → ℕ
  completed : List (PartitionId × NodeId × ℕ)
  announced : List (ℕ × Worker.Announcement)

namespace Post

open Worker

/-- What has been completed under the mappings with these numbers. -/
def under (l : Post) (numbers : PartitionId → ℕ) : List (PartitionId × NodeId) :=
  (l.completed.filter fun c => c.2.2 = numbers c.1).map fun c => (c.1, c.2.1)

/-- What an action makes of the post: the world it leads to before its
tick, and the tick. -/
def advance (me : Me) (l : Post) (numbers : PartitionId → ℕ) (w : World) : Option Tick → Post
  | none => { l with world := w, numbers }
  | some t =>
    { world := { w with
        state := t.state, store := t.store, sent := t.sent, trace := w.trace ++ t.trace }
      numbers
      completed := l.completed ++ (completions t.trace).map fun c => (c.1, c.2, numbers c.1)
      announced := l.announced ++
        (Ledger.announcements me w (l.under numbers) t).map fun a => (numbers a.partition, a) }

/-- An action after which the mappings of the table have these numbers. -/
def step (me : Me) (l : Post) (numbers : PartitionId → ℕ) (a : Action) : Post :=
  l.advance me numbers (l.world.receive me a) (a.env.map ((l.world.receive me a).ticked me))

/-- A worker at its start knows no table. -/
def start (me : Me) (now : ℕ) : Post := ⟨World.start me now, fun _ => 0, [], []⟩

/-- The numbers of a worker's table once a cluster state has arrived. -/
def taking (l : Post) (e : ClusterState × (PartitionId → ℕ)) : PartitionId → ℕ :=
  if accepts l.world.state e.1.epoch e.1.leaderId then e.2 else l.numbers

/-- **A patient step**: its tick is patient, with what has been completed
under the mappings in force in it. -/
def Patient (me : Me) (l : Post) (numbers : PartitionId → ℕ) (a : Action) : Prop :=
  ∀ env ∈ a.env, Ledger.PatientTick me (l.world.receive me a) (l.under numbers) env

end Post

/-- A leader, the numbers of the mappings in its table, the cluster states
it has put out, with the numbers of theirs, and its workers. -/
structure Fleet where
  leader : Manager.Service
  numbers : PartitionId → ℕ
  sent : List (ClusterState × (PartitionId → ℕ))
  workers : NodeId → Post

inductive Event
  /-- A turn of the leader, with a message that is no acknowledgement. -/
  | leader (msg : Option Manager.ManagerProtocol) (r : Manager.Readings)
  /-- An action of a worker, but for the arrival of a cluster state. -/
  | worker (n : NodeId) (a : Worker.Action)
  /-- The `i`th cluster state of the leader reaches a worker. -/
  | inform (n : NodeId) (i : ℕ) (env : Worker.Env)
  /-- The `i`th acknowledgement of a worker reaches the leader. -/
  | acknowledge (n : NodeId) (i : ℕ) (r : Manager.Readings)

/-- The message is an acknowledgement. -/
def acknowledges : Manager.ManagerProtocol → Bool
  | .removePartitionFromReplica _ _ _ => true
  | _ => false

variable (address : NodeId → String × ℕ)

/-- A worker's identity. -/
def identity (n : NodeId) : Me := ⟨n, (address n).1, (address n).2⟩

/-- The numbers of the mappings when a table has become another: those of
the mappings that have changed are new. -/
def renumbered (numbers : PartitionId → ℕ) (before after : Partitions) : PartitionId → ℕ :=
  fun p => renumber (numbers p) before.mapping[p]? after.mapping[p]?

namespace Fleet

/-- A turn of the leader, which may take a table over when it handles its
message and recompute it in its tick. -/
def turn (f : Fleet) (msg : Option Manager.ManagerProtocol) (r : Manager.Readings) : Fleet :=
  let h := handled f.leader msg r
  let t := h.tick r
  let numbersHandled := renumbered f.numbers f.leader.state.partitions h.state.partitions
  let numbers := renumbered numbersHandled h.state.partitions t.1.state.partitions
  { f with
    leader := t.1
    numbers
    sent := f.sent ++
      (Manager.updates (answers f.leader msg r)).map (fun state => (state, numbersHandled)) ++
      (Manager.updates t.2).map fun state => (state, numbers) }

/-- A worker acts. -/
def act (f : Fleet) (n : NodeId) (numbers : PartitionId → ℕ) (a : Worker.Action) : Fleet :=
  { f with
    workers := Function.update f.workers n ((f.workers n).step (identity address n) numbers a) }

/-- The acknowledgement that arrives: it is addressed to the leader. -/
def arriving (f : Fleet) (n : NodeId) (i : ℕ) : Option (ℕ × Worker.Announcement) :=
  (f.workers n).announced[i]?.filter fun e => e.2.leaderId = f.leader.me.id

def step (f : Fleet) : Event → Fleet
  | .leader msg r => if msg.any acknowledges then f else f.turn msg r
  | .worker n a => if informsWorker a then f else f.act address n (f.workers n).numbers a
  | .inform n i env =>
    match f.sent[i]? with
    | some e => f.act address n ((f.workers n).taking e) (.message (.clusterState e.1) env)
    | none => f
  | .acknowledge n i r =>
    match f.arriving n i with
    | some e => f.turn (some (.removePartitionFromReplica n n e.2.partition)) r
    | none => f

/-- The mapping of a partition in a table with this number is no later
than the leader's, and the leader's if it has its number. -/
def Numbers (f : Fleet) (table : Partitions) (p : PartitionId) (number : ℕ) : Prop :=
  Dated (f.numbers p) f.leader.state.partitions.mapping[p]? number table.mapping[p]?

/-- **A fleet at its start**: the workers know no table, and what the
leader has put out before is numbered. -/
structure Starts (f : Fleet) : Prop where
  workers : ∀ n, ∃ now, f.workers n = Post.start (identity address n) now
  numbers : ∀ p, 0 < f.numbers p
  sent : ∀ e ∈ f.sent, ∀ p, f.Numbers e.1.partitions p (e.2 p)

/-- **Worker `n` has completed the partition**, at some time, to every
other holder of the leader's mapping. -/
def HasCompleted (f : Fleet) (n : NodeId) (p : PartitionId) : Prop :=
  ∀ g ∈ f.leader.state.partitions.holders p, g ≠ n →
    ∃ number, (p, g, number) ∈ (f.workers n).completed

/-- **Worker `n` is discharged of the partition**: it has completed it to
every other holder under the leader's mapping, since that came into
force. -/
def Discharged (f : Fleet) (n : NodeId) (p : PartitionId) : Prop :=
  ∀ g ∈ f.leader.state.partitions.holders p, g ≠ n →
    (p, g, f.numbers p) ∈ (f.workers n).completed

/-- A worker that an acknowledgement strikes off has completed the
partition. -/
def Awaited (f : Fleet) : Event → Prop
  | .acknowledge n i _ => ∀ e ∈ f.arriving n i,
      n ∈ f.leader.state.partitions.olds e.2.partition → f.HasCompleted n e.2.partition
  | _ => True

/-- **The acknowledgement was sent under the mapping in force**, which has
not changed since: by an old replica of the partition, with the other
holders connected. -/
structure InForce (f : Fleet) (n : NodeId) (e : ℕ × Worker.Announcement) : Prop where
  number : e.1 = f.numbers e.2.partition
  old : n ∈ e.2.table.olds e.2.partition
  connected : ∀ g ∈ e.2.table.holders e.2.partition, g ≠ n → g ∈ e.2.nodes

/-- A worker that an acknowledgement in force strikes off is discharged. -/
def AwaitedInForce (f : Fleet) : Event → Prop
  | .acknowledge n i _ => ∀ e ∈ f.arriving n i,
      n ∈ f.leader.state.partitions.olds e.2.partition → f.InForce n e →
      f.Discharged n e.2.partition
  | _ => True

/-- The ticks of the workers are patient. -/
def Patient (f : Fleet) : Event → Prop
  | .worker n a => informsWorker a = false →
      (f.workers n).Patient (identity address n) (f.workers n).numbers a
  | .inform n i env => ∀ e ∈ f.sent[i]?,
      (f.workers n).Patient (identity address n) ((f.workers n).taking e)
        (.message (.clusterState e.1) env)
  | _ => True

end Fleet

/-! ## What a worker keeps -/

namespace Post

variable {me : Me} {l : Post} {a : Worker.Action} {numbers : PartitionId → ℕ}

open Worker

/-- The world of a post is a worker's world. -/
theorem world_step (me : Me) (l : Post) (numbers : PartitionId → ℕ) (a : Action) :
    (l.step me numbers a).world = l.world.step me a := by
  unfold step World.step
  cases a.env with
  | none => rfl
  | some env => rfl

theorem numbers_step (me : Me) (l : Post) (numbers : PartitionId → ℕ) (a : Action) :
    (l.step me numbers a).numbers = numbers := by
  unfold step
  cases a.env with
  | none => rfl
  | some env => rfl

theorem mem_under {p : PartitionId} {g : NodeId} (h : (p, g) ∈ l.under numbers) :
    (p, g, numbers p) ∈ l.completed := by
  obtain ⟨⟨p', g', number⟩, hin, heq⟩ := List.mem_map.mp h
  obtain ⟨hcompleted, hnumber⟩ := List.mem_filter.mp hin
  cases heq
  obtain rfl : number = numbers p' := of_decide_eq_true hnumber
  exact hcompleted

/-- **What a worker keeps in a patient run**: its acknowledgements are due,
name recipients as the code computes them, and announce what the worker
has completed under the mapping it acknowledges. -/
structure Kept (me : Me) (l : Post) : Prop where
  wellFormed : l.world.store.WellFormed
  due : ∀ e ∈ l.announced, e.2.Due me
  computed : ∀ e ∈ l.announced, ∃ synced, e.2.recipients =
    getNodeIdsCurrNodeHasToSyncThePartitionTo e.2.partition me.id e.2.table e.2.nodes synced
  completed : ∀ e ∈ l.announced, ∀ g, (e.2.partition, g) ∈ e.2.completed →
    (e.2.partition, g, e.1) ∈ l.completed

theorem kept_start (now : ℕ) : Kept me (start me now) where
  wellFormed := RuntimeStore.wellFormed_default
  due := fun _ he => absurd he List.not_mem_nil
  computed := fun _ he => absurd he List.not_mem_nil
  completed := fun _ he => absurd he List.not_mem_nil

/-- A worker's acknowledgements after an action: those before, and those
of its tick under the table it leads to. -/
theorem announced_cases {e : ℕ × Announcement} (he : e ∈ (l.step me numbers a).announced) :
    e ∈ l.announced ∨ ∃ env ∈ a.env, e.1 = numbers e.2.partition ∧
      e.2 ∈ Ledger.announcements me (l.world.receive me a) (l.under numbers)
        ((l.world.receive me a).ticked me env) := by
  unfold step at he
  cases ha : a.env with
  | none =>
    rw [ha] at he
    exact Or.inl he
  | some env =>
    rw [ha] at he
    rcases List.mem_append.mp he with hbefore | hnow
    · exact Or.inl hbefore
    · obtain ⟨ack, hack, rfl⟩ := List.mem_map.mp hnow
      exact Or.inr ⟨env, rfl, rfl, hack⟩

/-- Nothing completed is forgotten. -/
theorem completed_step : l.completed ⊆ (l.step me numbers a).completed := by
  unfold step
  cases a.env with
  | none => exact List.Subset.refl _
  | some env => exact List.subset_append_left _ _

/-- What an acknowledgement of a tick announces has been completed. -/
theorem completed_of_announcement {env : Env} (ha : a.env = some env) {ack : Announcement}
    (hack : ack ∈ Ledger.announcements me (l.world.receive me a) (l.under numbers)
      ((l.world.receive me a).ticked me env)) {p : PartitionId} {g : NodeId}
    (hg : (p, g) ∈ ack.completed) : (p, g, numbers p) ∈ (l.step me numbers a).completed := by
  obtain ⟨entry, -, rfl⟩ := List.mem_map.mp hack
  rcases List.mem_append.mp hg with hbefore | hnow
  · exact completed_step (mem_under hbefore)
  · rw [step, ha]
    exact List.mem_append_right _ (List.mem_map.mpr ⟨(p, g), List.mem_of_mem_take hnow, rfl⟩)

theorem Kept.step (hk : Kept me l) (hp : l.Patient me numbers a) :
    Kept me (l.step me numbers a) := by
  have hw := World.wellFormed_receive me hk.wellFormed a
  refine ⟨?_, fun e he => ?_, fun e he => ?_, fun e he g hg => ?_⟩
  · unfold Post.step
    cases a.env with
    | none => exact hw
    | some env => exact wellFormed_syncPartitions hw env.order
  · rcases announced_cases he with hbefore | ⟨env, henv, -, hack⟩
    · exact hk.due e hbefore
    · exact Ledger.due_announcements hw (hp env henv) e.2 hack
  · rcases announced_cases he with hbefore | ⟨env, henv, -, hack⟩
    · exact hk.computed e hbefore
    · obtain ⟨entry, -, hentry⟩ := List.mem_map.mp hack
      rw [← hentry]
      exact ⟨_, rfl⟩
  · rcases announced_cases he with hbefore | ⟨env, henv, hnumber, hack⟩
    · exact completed_step (hk.completed e hbefore g hg)
    · rw [hnumber]
      exact completed_of_announcement henv hack hg

end Post

/-! ## Numbers and mappings -/

namespace Fleet

variable {address : NodeId → String × ℕ} {f : Fleet} {n : NodeId} {i : ℕ}

theorem step_leader {msg : Option Manager.ManagerProtocol} {r : Manager.Readings}
    (h : msg.any acknowledges = false) : f.step address (.leader msg r) = f.turn msg r := by
  rw [step, h]
  rfl

theorem step_worker {a : Worker.Action} (h : informsWorker a = false) :
    f.step address (.worker n a) = f.act address n (f.workers n).numbers a := by
  rw [step, h]
  rfl

theorem step_inform {e : ClusterState × (PartitionId → ℕ)} {env : Worker.Env}
    (h : f.sent[i]? = some e) : f.step address (.inform n i env) =
      f.act address n ((f.workers n).taking e) (.message (.clusterState e.1) env) := by
  rw [step, h]

/-- **Every table of the fleet is numbered**: those on their way, those of
the workers, and those acknowledgements were sent under. -/
structure Numbered (f : Fleet) : Prop where
  sent : ∀ e ∈ f.sent, ∀ p, f.Numbers e.1.partitions p (e.2 p)
  held : ∀ n p, f.Numbers (f.workers n).world.state.partitions p ((f.workers n).numbers p)
  announced : ∀ n, ∀ e ∈ (f.workers n).announced, f.Numbers e.2.table e.2.partition e.1

theorem numbered_of_starts (h : f.Starts address) : f.Numbered where
  sent := h.sent
  held := fun n p => by
    obtain ⟨now, hnow⟩ := h.workers n
    rw [hnow]
    exact dated_of_lt (h.numbers p)
  announced := fun n e he => by
    obtain ⟨now, hnow⟩ := h.workers n
    rw [hnow] at he
    exact absurd he List.not_mem_nil

/-- **A turn of the leader keeps the numbers**: what has the number of a
mapping after it had that number before, and the mapping has not changed. -/
theorem Numbers.turn {table : Partitions} {p : PartitionId} {number : ℕ}
    (h : f.Numbers table p number) (msg : Option Manager.ManagerProtocol) (r : Manager.Readings) :
    (f.turn msg r).Numbers table p number :=
  (Dated.renumber h _).renumber _

theorem Numbered.turn (h : f.Numbered) (msg : Option Manager.ManagerProtocol)
    (r : Manager.Readings) : (f.turn msg r).Numbered := by
  refine ⟨fun e he p => ?_, fun n p => (h.held n p).turn msg r,
    fun n e he => (h.announced n e he).turn msg r⟩
  rcases List.mem_append.mp he with he | htick
  · rcases List.mem_append.mp he with hbefore | hanswer
    · exact (h.sent e hbefore p).turn msg r
    · -- an answer carries the table between the message and the tick
      obtain ⟨state, hstate, rfl⟩ := List.mem_map.mp hanswer
      have htable := partitions_of_answer hstate
      dsimp only
      rw [htable]
      exact (dated_refl _ _).renumber _
  · obtain ⟨state, hstate, rfl⟩ := List.mem_map.mp htick
    have htable := partitions_of_update_tick hstate
    dsimp only
    rw [htable]
    exact dated_refl _ _

/-- **An action of a worker keeps the numbers**, if those of the table it
leads to are right. -/
theorem Numbered.act (h : f.Numbered) {numbers : PartitionId → ℕ} {a : Worker.Action}
    (htable : ∀ p, f.Numbers
      ((f.workers n).world.step (identity address n) a).state.partitions p (numbers p)) :
    (f.act address n numbers a).Numbered := by
  refine ⟨h.sent, fun k p => ?_, fun k e he => ?_⟩
  · by_cases hk : k = n
    · subst hk
      simp only [Fleet.act, Function.update_self]
      rw [Post.world_step, Post.numbers_step]
      exact htable p
    · simp only [Fleet.act, Function.update_of_ne hk]
      exact h.held k p
  · by_cases hk : k = n
    · subst hk
      simp only [Fleet.act, Function.update_self] at he
      rcases Post.announced_cases he with hbefore | ⟨env, -, hnumber, hack⟩
      · exact h.announced k e hbefore
      · obtain ⟨entry, -, hentry⟩ := List.mem_map.mp hack
        have hnow := htable e.2.partition
        rw [Worker.World.partitions_of_step] at hnow
        rw [hnumber]
        rw [← hentry] at hnow ⊢
        exact hnow
    · simp only [Fleet.act, Function.update_of_ne hk] at he
      exact h.announced k e he

/-- The numbers of a worker's table are right after an action that is not
the arrival of a cluster state. -/
theorem Numbered.acts (h : f.Numbered) {a : Worker.Action} (ha : informsWorker a = false)
    (p : PartitionId) : f.Numbers
      ((f.workers n).world.step (identity address n) a).state.partitions p
        ((f.workers n).numbers p) := by
  rw [partitions_act ha]
  exact h.held n p

/-- So they are when a cluster state of the leader has arrived. -/
theorem Numbered.informs (h : f.Numbered) {e : ClusterState × (PartitionId → ℕ)}
    (he : e ∈ f.sent) (env : Worker.Env) (p : PartitionId) : f.Numbers
      ((f.workers n).world.step (identity address n)
        (.message (.clusterState e.1) env)).state.partitions p ((f.workers n).taking e p) := by
  rw [partitions_informed, Post.taking]
  split
  · exact h.sent e he p
  · exact h.held n p

theorem numbered_step (h : f.Numbered) (e : Event) : (f.step address e).Numbered := by
  cases e with
  | leader msg r =>
    simp only [step]
    split
    · exact h
    · exact h.turn msg r
  | worker n a =>
    simp only [step]
    split
    · exact h
    · rename_i ha
      exact h.act (h.acts (Bool.eq_false_iff.mpr ha))
  | inform n i env =>
    simp only [step]
    split
    · rename_i e he
      exact h.act (h.informs (List.mem_of_getElem? he) env)
    · exact h
  | acknowledge n i r =>
    simp only [step]
    split
    · exact h.turn _ r
    · exact h

/-! ## Acknowledgements in force -/

theorem kept_act {numbers : PartitionId → ℕ} {a : Worker.Action}
    (hk : ∀ n, (f.workers n).Kept (identity address n))
    (hp : (f.workers n).Patient (identity address n) numbers a) (k : NodeId) :
    ((f.act address n numbers a).workers k).Kept (identity address k) := by
  by_cases hkn : k = n
  · subst hkn
    simp only [act, Function.update_self]
    exact (hk k).step hp
  · simp only [act, Function.update_of_ne hkn]
    exact hk k

/-- The workers of a patient run keep what they are to keep. -/
theorem kept_step {e : Event} (hk : ∀ n, (f.workers n).Kept (identity address n))
    (hp : f.Patient address e) :
    ∀ n, ((f.step address e).workers n).Kept (identity address n) := by
  cases e with
  | leader msg r =>
    simp only [step]
    split <;> exact hk
  | worker m a =>
    simp only [step]
    split
    · exact hk
    · rename_i ha
      exact kept_act hk (hp (Bool.eq_false_iff.mpr ha))
  | inform m i env =>
    simp only [step]
    split
    · rename_i e he
      exact kept_act hk (hp e he)
    · exact hk
  | acknowledge m i r =>
    simp only [step]
    split <;> exact hk

/-- **An acknowledgement in force discharges its sender.** -/
theorem discharged_of_inForce {e : ℕ × Worker.Announcement} (h : f.Numbered)
    (hk : (f.workers n).Kept (identity address n)) (he : f.arriving n i = some e)
    (hf : f.InForce n e) : f.Discharged n e.2.partition := by
  have hannounced : e ∈ (f.workers n).announced :=
    List.mem_of_getElem? (Option.filter_eq_some_iff.mp he).1
  obtain ⟨synced, hrecipients⟩ := hk.computed e hannounced
  have hmapping := (h.announced n e hannounced).eq hf.number
  intro g hg hne
  -- the holders now are the holders then, and those were recipients
  have hholder : g ∈ e.2.table.holders e.2.partition := by
    rw [Partitions.holders, hmapping]
    exact hg
  have hrecipient : g ∈ e.2.recipients := by
    rw [hrecipients, Manager.mem_recipients]
    exact ⟨hf.connected g hholder hne, Or.inl ⟨hf.old, hholder, hne⟩⟩
  have hcompleted := hk.completed e hannounced g (hk.due e hannounced hf.old g hrecipient)
  rw [hf.number] at hcompleted
  exact hcompleted

/-- **A worker struck off by an acknowledgement in force is discharged**: it
has completed the partition to every other holder since the leader's
mapping came into force, in every run whose workers are patient. -/
theorem acknowledgement_in_force (f₀ : Fleet) (events : List Event) (hstarts : f₀.Starts address)
    (hok : Along (step address) (Patient address) f₀ events) :
    Along (step address) AwaitedInForce f₀ events := by
  refine along_of_inv
    (I := fun f => f.Numbered ∧ ∀ n, (f.workers n).Kept (identity address n))
    (fun f e hI hp => ⟨numbered_step hI.1 e, kept_step hI.2 hp⟩) (fun f e hI _ => ?_)
    ⟨numbered_of_starts hstarts, fun n => ?_⟩ hok
  · cases e with
    | acknowledge n i r => exact fun e he _ hf => discharged_of_inForce hI.1 (hI.2 n) he hf
    | leader msg r => trivial
    | worker n a => trivial
    | inform n i env => trivial
  · obtain ⟨now, hnow⟩ := hstarts.workers n
    rw [hnow]
    exact Post.kept_start now

end Fleet

/-! ## A partition that moves twice -/

section Twice

open Manager

/-- A leader whose only worker, 3, holds every partition. -/
def soleWorker : Service :=
  ⟨⟨⟨9⟩, "m", 9⟩,
    { epoch := some 1
      electedLeaderId := some ⟨9⟩
      nodes := ((∅ : Map NodeId Node).insert ⟨9⟩ ⟨"m", 9, 0, .manager⟩).insert ⟨3⟩
        ⟨"c", 3, 0, .worker⟩
      partitions := recompute default 1 [⟨3⟩]
      workersWithCalculatedPartitions := {⟨3⟩} }, ∅⟩

/-- A worker joins. -/
def joins (n : ℕ) : ManagerProtocol := .newConnection (some ⟨n⟩) "w" n false

def atTwenty : Readings := ⟨20, 20, 500, 20, 500, 1⟩

/-- The table when worker 2 has joined. -/
def overTwo : Partitions := recompute (recompute default 1 [⟨3⟩]) 1 [⟨2⟩, ⟨3⟩]

theorem two_joins : (soleWorker.turn (some (joins 2), atTwenty)).state.partitions = overTwo ∧
    (updates ((soleWorker.handle (joins 2) atTwenty).1.tick atTwenty).2)[0]? =
      some ⟨1, ⟨9⟩, [], overTwo⟩ := by
  have hturn := turn_of_stale soleWorker (joins 2) atTwenty [⟨2⟩, ⟨3⟩] (by decide +kernel)
    (by decide +kernel) (by decide) (by decide +kernel) (by decide +kernel)
  have hbefore : (soleWorker.handle (joins 2) atTwenty).1.state.partitions =
      recompute default 1 [⟨3⟩] := rfl
  have hepoch : (beating soleWorker (joins 2) atTwenty).epoch.getD 0 = 1 := by decide +kernel
  have hfactor : atTwenty.replicationFactor = 1 := rfl
  rw [hbefore, hepoch, hfactor] at hturn
  exact hturn

theorem one_joins :
    ((soleWorker.turn (some (joins 2), atTwenty)).turn
      (some (joins 1), atTwenty)).state.partitions = recompute overTwo 1 [⟨1⟩, ⟨2⟩, ⟨3⟩] := by
  have hturn := (turn_of_stale (soleWorker.turn (some (joins 2), atTwenty)) (joins 1) atTwenty
    [⟨1⟩, ⟨2⟩, ⟨3⟩] (by decide +kernel) (by decide +kernel) (by decide) (by decide +kernel)
    (by decide +kernel)).1
  have hbefore : ∀ s : Service, (s.handle (joins 1) atTwenty).1.state.partitions =
      s.state.partitions := fun _ => rfl
  have hfactor : atTwenty.replicationFactor = 1 := rfl
  rw [hbefore, two_joins.1, hfactor] at hturn
  exact hturn

/-- With one replica, a partition has one holder. -/
theorem holder_unique {t : Partitions} {vec : List NodeId} (hvec : vec ≠ []) {p : PartitionId}
    {g h : NodeId} (hg : g ∈ (recompute t 1 vec).holders p)
    (hh : h ∈ (recompute t 1 vec).holders p) : g = h := by
  obtain ⟨e, he, hge⟩ := Partitions.mem_holders.mp hg
  obtain ⟨e', he', hhe⟩ := Partitions.mem_holders.mp hh
  rw [he] at he'
  cases he'
  rw [mapping_recompute, getElem?_newMapping] at he
  obtain ⟨e', hplaced, -, hmem⟩ := placement_spec hvec p.id (le_refl 1)
  split at he
  · rw [hplaced] at he
    cases he
    obtain ⟨i, hi, hg⟩ := (hmem g).mp hge
    obtain ⟨j, hj, hh⟩ := (hmem h).mp hhe
    obtain rfl : i = j := by omega
    rw [hg] at hh
    exact Option.some.inj hh
  · cases he

theorem three_is_old : ⟨3⟩ ∈ overTwo.olds ⟨0⟩ := by
  rw [overTwo, olds_recompute, mem_olds_copy]
  exact ⟨Or.inr (first_holds_zero default ⟨3⟩ []), by simp⟩

end Twice

section Sender

open Worker

variable {me : Me} {w : World} {env : Env} {g : NodeId}

/-- **An empty first partition is the first thing a tick completes**, to
its one recipient. -/
theorem first_completion (env : Env) (hs : env.schedule = [])
    (hcache : w.store.cache[(⟨0⟩ : PartitionId)]? = none)
    (hsync : w.state.sync[(⟨0⟩ : PartitionId)]? = none)
    (hids : env.order.toList (Ledger.recipientsOf me w.state ⟨0⟩) = [g]) :
    (completions (w.ticked me env).trace)[0]? = some (⟨0⟩, g) := by
  have hvisit : completions ((w.ticking me env).first me env.order).trace = [(⟨0⟩, g)] := by
    have hids₁ : env.order.toList (recipients me ⟨0⟩ (w.ticking me env).state
        (w.ticking me env).state.getCurrentlySyncedActualNodes) = [g] := by
      rw [← hids, ← recipients_heartbeats w.state env.heartbeatNow]
      rfl
    have hnone : (w.ticking me env).syncState ⟨0⟩ g = none := by
      change ((heartbeats w.state me env.heartbeatNow).1.sync[(⟨0⟩ : PartitionId)]?.bind _) = none
      rw [sync_heartbeats, hsync]
      rfl
    have hround := syncPartitionToRecipient_of_empty me (h := g)
      (t := (retainRecipients ⟨0⟩ (w.ticking me env) fun id _ =>
        id ∈ (w.ticking me env).state.nodes).touch ⟨0⟩) hs hcache
      (by rw [syncState_touch, syncState_retainRecipients, if_pos rfl, hnone]; rfl)
    rw [Tick.first, hids₁, syncPartition, trace_pruneChanges]
    refine (completions_syncRecipient me ⟨0⟩ g _).trans ?_
    rw [hround]
    rfl
  have hprefix := completions_prefix (trace_first me env.order (w.ticking me env))
  rw [hvisit] at hprefix
  obtain ⟨rest, hrest⟩ := hprefix
  change (completions (syncPartitions me env.order (w.ticking me env)).trace)[0]? = _
  rw [← hrest]
  rfl

/-- Each completion is acknowledged to the leader. -/
theorem ack_of_completion {i : ℕ} {p : PartitionId} {h leaderId : NodeId}
    (hleader : w.state.electedLeaderId = some leaderId)
    (hc : (completions (w.ticked me env).trace)[i]? = some (p, h)) :
    (acks (w.ticked me env).output)[i]? = some (leaderId, me.id, p) := by
  have hannounced := (announced_tick me env w.state w.store w.sent).acks
  have hkept : (heartbeats w.state me env.heartbeatNow).1.electedLeaderId = some leaderId := by
    rw [← hleader]
    unfold heartbeats
    split
    · split <;> rfl
    · rfl
  dsimp only at hannounced
  rw [hkept] at hannounced
  change acks (w.ticked me env).output = _ at hannounced
  rw [hannounced, List.getElem?_map]
  change ((completions (w.ticked me env).trace)[i]?).map _ = _
  rw [hc]
  rfl

/-- An old replica sends to holders. -/
theorem holder_of_recipient {state : State} {p : PartitionId}
    (hold : me.id ∈ state.partitions.olds p) (hg : g ∈ Ledger.recipientsOf me state p) :
    g ∈ state.partitions.holders p := by
  rw [Ledger.recipientsOf, recipients, Manager.mem_recipients] at hg
  rcases hg with ⟨-, ⟨-, hholder, -⟩ | ⟨hempty, -⟩⟩
  · exact hholder
  · rw [hempty] at hold
    exact absurd hold (Finset.notMem_empty _)

/-- The first acknowledgement of a worker. -/
theorem announced_first {l : Post} (numbers : PartitionId → ℕ) {t : Tick} {p : PartitionId}
    {leaderId : NodeId} (hl : l.announced = [])
    (hack : (acks t.output)[0]? = some (leaderId, me.id, p)) :
    ∃ a, (l.advance me numbers w (some t)).announced[0]? = some (numbers p, a) ∧
      a.leaderId = leaderId ∧ a.partition = p ∧ a.table = w.state.partitions ∧
      a.nodes = w.state.nodes := by
  rw [Post.advance, hl, List.nil_append, Ledger.announcements, List.getElem?_map, List.getElem?_map,
    List.getElem?_zipIdx, hack]
  exact ⟨_, rfl, rfl, rfl, rfl, rfl⟩

/-- What the first table from manager 9 leaves of a worker. -/
theorem learns_first (me : Me) (hepoch : w.state.epoch = none) (table : Partitions) :
    (w.receive me (Ledger.learns table)).state.partitions = table ∧
    (w.receive me (Ledger.learns table)).state.electedLeaderId = some ⟨9⟩ ∧
    (w.receive me (Ledger.learns table)).state.nodes = w.state.nodes ∧
    (w.receive me (Ledger.learns table)).state.sync = w.state.sync ∧
    (w.receive me (Ledger.learns table)).store = w.store ∧
    (w.receive me (Ledger.learns table)).trace = w.trace := by
  have haccepts : accepts w.state 1 ⟨9⟩ = true := by simp [accepts, hepoch]
  simp [Ledger.learns, World.receive, handle, handleClusterState, haccepts, hepoch, retainListed]

def three : Me := ⟨⟨3⟩, "w", 0⟩

/-- Worker 3 when worker 2 has connected. -/
def connectedThree : Post := (Post.start three 0).step three (fun _ => 0) (Ledger.connects 2)

/-- Worker 3 when it has learnt that worker 2 holds partition 0, of whose
mapping this is the number. -/
def informedThree (numbers : PartitionId → ℕ) : Post :=
  connectedThree.step three numbers (Ledger.learns overTwo)

theorem connectedThree_spec : connectedThree.announced.isEmpty ∧ connectedThree.completed = [] ∧
    connectedThree.world.store.cache.keys = [] ∧
    connectedThree.world.state.sync.keys = [] ∧
    connectedThree.world.state.epoch = none ∧
    connectedThree.world.state.nodes.keys = [⟨2⟩, ⟨3⟩] := by
  have hticked : ((Post.start three 0).world.receive three (Ledger.connects 2)).ticked three
      (during []) = ((Post.start three 0).world.receive three (Ledger.connects 2)).firstTick three
        (during []) := World.ticked_eq_firstTick (by decide +kernel)
  have hstep : connectedThree = (Post.start three 0).advance three (fun _ => 0)
      ((Post.start three 0).world.receive three (Ledger.connects 2)) (some
        (((Post.start three 0).world.receive three (Ledger.connects 2)).ticked three
          (during []))) := rfl
  rw [hstep, hticked]
  decide +kernel

theorem mem_nodes_connectedThree {n : NodeId} :
    n ∈ connectedThree.world.state.nodes ↔ n = ⟨2⟩ ∨ n = ⟨3⟩ := by
  obtain ⟨-, -, -, -, -, hnodes⟩ := connectedThree_spec
  rw [← Std.ExtTreeMap.mem_keys, hnodes]
  simp

/-- Worker 3 sends partition 0 to worker 2, its one holder. -/
theorem recipients_informedThree :
    Ledger.recipientsOf three (connectedThree.world.receive three (Ledger.learns overTwo)).state
      ⟨0⟩ = {⟨2⟩} := by
  obtain ⟨-, -, -, -, hepoch, -⟩ := connectedThree_spec
  obtain ⟨htable, -, hnodes, -⟩ := learns_first three hepoch overTwo
  have htwo : ⟨2⟩ ∈ overTwo.holders ⟨0⟩ := Manager.first_holds_zero _ _ _
  ext n
  rw [Ledger.recipientsOf, recipients, Manager.mem_recipients, htable, hnodes,
    mem_nodes_connectedThree, Finset.mem_singleton]
  constructor
  · rintro ⟨-, ⟨-, hn, -⟩ | ⟨hempty, -⟩⟩
    · exact holder_unique (by decide) hn htwo
    · have hold := three_is_old
      rw [hempty] at hold
      exact absurd hold (Finset.notMem_empty _)
  · rintro rfl
    exact ⟨Or.inl rfl, Or.inl ⟨three_is_old, htwo, by decide⟩⟩

/-- **Worker 3 acknowledges partition 0** as soon as it has learnt the
table: it stores nothing, so worker 2 is complete at once. -/
theorem informedThree_announces (numbers : PartitionId → ℕ) :
    ∃ a, (informedThree numbers).announced[0]? = some (numbers ⟨0⟩, a) ∧
      a.leaderId = ⟨9⟩ ∧ a.partition = ⟨0⟩ ∧ a.table = overTwo ∧
      a.nodes = connectedThree.world.state.nodes := by
  obtain ⟨hannounced, -, hcache, hsync, hepoch, -⟩ := connectedThree_spec
  obtain ⟨htable, hleader, hnodes, hsync₁, hstore₁, -⟩ := learns_first three hepoch overTwo
  have hids : (during []).order.toList (Ledger.recipientsOf three
      (connectedThree.world.receive three (Ledger.learns overTwo)).state ⟨0⟩) = [⟨2⟩] := by
    rw [recipients_informedThree]
    decide +kernel
  have hempty : ∀ {α : Type} {m : Map PartitionId α}, m.keys = [] →
      m[(⟨0⟩ : PartitionId)]? = none := fun hm =>
    Map.eq_none_of_keys (K := fun _ => False) (by simp [hm]) id
  have hcompleted := first_completion (during []) rfl
    (by rw [hstore₁]; exact hempty hcache) (by rw [hsync₁]; exact hempty hsync) hids
  have hack := ack_of_completion hleader hcompleted
  obtain ⟨a, ha, hl, hp, ht, hn⟩ := announced_first numbers
    (w := connectedThree.world.receive three (Ledger.learns overTwo))
    (List.isEmpty_iff.mp hannounced) hack
  exact ⟨a, ha, hl, hp, ht.trans htable, hn.trans hnodes⟩

/-- Worker 3 does not know worker 1. -/
theorem informedThree_not_completed (numbers : PartitionId → ℕ) (number : ℕ) :
    ((⟨0⟩, ⟨1⟩, number) : PartitionId × NodeId × ℕ) ∉ (informedThree numbers).completed := by
  obtain ⟨-, hcompleted, -, -, hepoch, -⟩ := connectedThree_spec
  obtain ⟨-, -, hnodes, -⟩ := learns_first three hepoch overTwo
  intro hin
  have hstep : (informedThree numbers).completed = connectedThree.completed ++ (completions
      ((connectedThree.world.receive three (Ledger.learns overTwo)).ticked three
        (during [])).trace).map fun c => (c.1, c.2, numbers c.1) := rfl
  rw [hstep, hcompleted, List.nil_append] at hin
  obtain ⟨⟨p, g⟩, hc, heq⟩ := List.mem_map.mp hin
  cases heq
  have hconnected := mem_nodes_of_recipient (World.mem_recipientsOf_completed hc)
  rw [hnodes, mem_nodes_connectedThree] at hconnected
  exact absurd hconnected (by decide)

end Sender

namespace Fleet

/-- The leader, and workers that have not yet heard of it. -/
def beginning : Fleet :=
  ⟨soleWorker, fun _ => 1, [], fun n => Post.start (identity (fun _ => ("w", 0)) n) 0⟩

/-- Worker 2 joins and is sent partition 0, and worker 3 acknowledges. -/
def movesOnce : List Event :=
  [.leader (some (joins 2)) atTwenty, .worker ⟨3⟩ (Worker.Ledger.connects 2),
    .inform ⟨3⟩ 0 (Worker.during [])]

/-- The fleet when worker 2 has joined. -/
def twoJoined : Fleet := beginning.turn (some (joins 2)) atTwenty

theorem sent_twoJoined :
    twoJoined.sent[0]? = some (⟨1, ⟨9⟩, [], overTwo⟩, twoJoined.numbers) := by
  have hsent : twoJoined.sent =
      (Manager.updates ((soleWorker.handle (joins 2) atTwenty).1.tick atTwenty).2).map
        fun state => (state, twoJoined.numbers) := rfl
  rw [hsent, List.getElem?_map, two_joins.2]
  rfl

/-- The fleet then. -/
theorem run_movesOnce : ∃ workers, run (step fun _ => ("w", 0)) beginning movesOnce =
      { twoJoined with workers } ∧ workers ⟨3⟩ = informedThree twoJoined.numbers := by
  have hsent := sent_twoJoined
  have hthree : twoJoined.workers ⟨3⟩ = Post.start three 0 := rfl
  obtain ⟨-, -, -, -, hepoch, -⟩ := connectedThree_spec
  have htaking : ∀ e, connectedThree.taking e = e.2 := by
    intro e
    simp [Post.taking, Worker.accepts, hepoch]
  rw [movesOnce, run_cons, run_cons, run_cons, run_nil, step_leader rfl, ← twoJoined,
    step_worker rfl]
  generalize twoJoined = f at hsent hthree ⊢
  refine ⟨_, step_inform (e := (⟨1, ⟨9⟩, [], overTwo⟩, f.numbers)) hsent, ?_⟩
  have hconnected : (f.act (fun _ => ("w", 0)) ⟨3⟩ (f.workers ⟨3⟩).numbers
      (Worker.Ledger.connects 2)).workers ⟨3⟩ = connectedThree := by
    simp only [act, Function.update_self, hthree]
    rfl
  rw [hconnected, htaking, Function.update_self]
  rfl

theorem starts_beginning : beginning.Starts fun _ => ("w", 0) where
  workers := fun _ => ⟨0, rfl⟩
  numbers := fun _ => Nat.one_pos
  sent := fun _ he => absurd he List.not_mem_nil

/-- Worker 3 has at no time two recipients. -/
theorem patient_movesOnce :
    Along (step fun _ => ("w", 0)) (Patient fun _ => ("w", 0)) beginning movesOnce := by
  have hthree : twoJoined.workers ⟨3⟩ = Post.start three 0 := rfl
  have hsent := sent_twoJoined
  refine ⟨trivial, ?_, ?_, trivial⟩
  · rw [step_leader rfl, ← twoJoined]
    intro _ env _ p hold
    rw [hthree] at hold
    exact absurd hold (Finset.notMem_empty _)
  · rw [step_leader rfl, ← twoJoined, step_worker rfl]
    generalize twoJoined = f at hsent hthree ⊢
    have hconnected : (f.act (fun _ => ("w", 0)) ⟨3⟩ (f.workers ⟨3⟩).numbers
        (Worker.Ledger.connects 2)).workers ⟨3⟩ = connectedThree := by
      simp only [act, Function.update_self, hthree]
      rfl
    intro e he env _ p hold h hh g hg hne
    obtain rfl : (⟨1, ⟨9⟩, [], overTwo⟩, f.numbers) = e := Option.some.inj (hsent.symm.trans he)
    rw [hconnected] at hold hh hg
    obtain ⟨-, -, -, -, hepoch, -⟩ := connectedThree_spec
    obtain ⟨htable, -⟩ := learns_first three hepoch overTwo
    have hholder := holder_of_recipient hold hh
    have hholder' := holder_of_recipient hold hg
    rw [show identity (fun _ => ("w", 0)) ⟨3⟩ = three from rfl, ← Worker.Ledger.learns,
      htable] at hholder hholder'
    exact absurd (holder_unique (by decide) hholder' hholder) hne

/-- The acknowledgement of worker 3, whenever it arrives at a leader 9. -/
theorem arriving_three {f : Fleet} {numbers : PartitionId → ℕ}
    (hf : f.workers ⟨3⟩ = informedThree numbers) (hleader : f.leader.me.id = ⟨9⟩) :
    ∃ a, f.arriving ⟨3⟩ 0 = some (numbers ⟨0⟩, a) ∧ a.partition = ⟨0⟩ ∧ a.table = overTwo ∧
      a.nodes = connectedThree.world.state.nodes := by
  obtain ⟨a, ha, haddressed, hpartition, htable, hnodes⟩ := informedThree_announces numbers
  refine ⟨a, ?_, hpartition, htable, hnodes⟩
  rw [arriving, hf, ha, hleader]
  exact Option.filter_some_eq_some.mpr (decide_eq_true haddressed)

/-- Worker 3 is struck off under the table its acknowledgement was sent
under. -/
theorem acknowledgement_in_force_at_once :
    (⟨3⟩ : NodeId) ∈ (run (step fun _ => ("w", 0)) beginning movesOnce).leader.state.partitions.olds
      ⟨0⟩ ∧
    (run (step fun _ => ("w", 0)) beginning movesOnce).Discharged ⟨3⟩ ⟨0⟩ := by
  have hpatient : Along (step fun _ => ("w", 0)) (Patient fun _ => ("w", 0)) beginning
      (movesOnce ++ [.acknowledge ⟨3⟩ 0 atTwenty]) :=
    along_append.mpr ⟨patient_movesOnce, trivial, trivial⟩
  have hawaited := acknowledgement_in_force beginning _ starts_beginning hpatient
  have hlast := (along_append.mp hawaited).2.1
  obtain ⟨workers, hrun, hthree⟩ := run_movesOnce
  rw [hrun] at hlast ⊢
  have htable : twoJoined.leader.state.partitions = overTwo := two_joins.1
  have hold : (⟨3⟩ : NodeId) ∈ twoJoined.leader.state.partitions.olds ⟨0⟩ := by
    rw [htable]
    exact three_is_old
  obtain ⟨a, ha, hpartition, htable', hnodes⟩ := arriving_three
    (f := { twoJoined with workers }) hthree rfl
  refine ⟨hold, ?_⟩
  have hdischarged := hlast _ ha (by rw [hpartition]; exact hold) ⟨?_, ?_, ?_⟩
  · rw [hpartition] at hdischarged
    exact hdischarged
  · rw [hpartition]
  · rw [htable', hpartition]
    exact three_is_old
  · intro g hg _
    rw [htable', hpartition] at hg
    obtain rfl : g = ⟨2⟩ := holder_unique (by decide) hg (Manager.first_holds_zero _ _ _)
    rw [hnodes, mem_nodes_connectedThree]
    exact Or.inl rfl

/-- **A late acknowledgement strikes off a replica that has not sent the
partition on.** Worker 1 joins before the acknowledgement arrives, and
partition 0 is its own; worker 3, which has completed it to worker 2 only,
is struck off all the same. -/
theorem late_acknowledgement_discharges :
    Along (step fun _ => ("w", 0)) (Patient fun _ => ("w", 0)) beginning
      (movesOnce ++ [.leader (some (joins 1)) atTwenty, .acknowledge ⟨3⟩ 0 atTwenty]) ∧
    ¬ Along (step fun _ => ("w", 0)) Awaited beginning
      (movesOnce ++ [.leader (some (joins 1)) atTwenty, .acknowledge ⟨3⟩ 0 atTwenty]) := by
  refine ⟨along_append.mpr ⟨patient_movesOnce, trivial, trivial, trivial⟩, fun hawaited => ?_⟩
  have hlast := (along_append.mp hawaited).2.2.1
  obtain ⟨workers, hrun, hthree⟩ := run_movesOnce
  rw [hrun, step_leader rfl] at hlast
  have htable : (twoJoined.leader.turn (some (joins 1), atTwenty)).state.partitions =
      Manager.recompute overTwo 1 [⟨1⟩, ⟨2⟩, ⟨3⟩] := one_joins
  have hme : (twoJoined.leader.turn (some (joins 1), atTwenty)).me.id = ⟨9⟩ := by
    rw [Manager.turn_me]
    rfl
  generalize hf : Fleet.turn _ (some (joins 1)) atTwenty = f at hlast
  have hleader : f.leader = twoJoined.leader.turn (some (joins 1), atTwenty) := by
    rw [← hf]
    rfl
  have hworkers : f.workers ⟨3⟩ = informedThree twoJoined.numbers := by
    rw [← hf]
    exact hthree
  rw [← hleader] at htable hme
  obtain ⟨a, ha, hpartition, -⟩ := arriving_three hworkers hme
  have hold : (⟨3⟩ : NodeId) ∈ f.leader.state.partitions.olds a.partition := by
    rw [htable, hpartition, Manager.olds_recompute, Manager.mem_olds_copy]
    exact ⟨Or.inl three_is_old, by simp⟩
  have hone : (⟨1⟩ : NodeId) ∈ f.leader.state.partitions.holders a.partition := by
    rw [htable, hpartition]
    exact Manager.first_holds_zero _ _ _
  obtain ⟨number, hcompleted⟩ := hlast _ ha hold ⟨1⟩ hone (by decide)
  rw [hpartition, hworkers] at hcompleted
  exact informedThree_not_completed _ _ hcompleted

end Fleet

end Migration

end NoSqlStore
