import NoSqlStore.Requests.Exchange
import NoSqlStore.Sync.Idle
/-!
# Reading one's writes

A write that has returned is applied at the master of its partition. From
then on the master holds it as long as no other mutation of the key is as
recent and its clock has not reached the expiry (`Kept`), so that every
read that begins afterwards is shown it (`Shows`): late duplicates apply
the same mutation again, and older ones are refused. All of this rests on
the ids: a response that wakes somebody else's call makes a write return
that no worker has applied (`reused_id_breaks_the_write`).
-/

namespace NoSqlStore

namespace Requests

namespace World

open Runs

variable {w w' : World} {n : NodeId} {k : Key} {m : Mutation} {topology : Client.Topology}

/-! ## What a step does to a store -/

/-- What one worker has applied. -/
def appliedAt (w : World) (n : NodeId) : List (Key × Mutation) :=
  (w.applied.filter (·.1 = n)).map Prod.snd

theorem mem_appliedAt {e : Key × Mutation} : e ∈ w.appliedAt n ↔ (n, e) ∈ w.applied := by
  simp [appliedAt]

theorem appliedAt_useStore (w : World) (n node : NodeId) (store : RuntimeStore) (u : Use) :
    (w.useStore node store u).appliedAt n =
      if n = node then u.mutations ++ w.appliedAt n else w.appliedAt n := by
  have hnew : ((u.mutations.map (Prod.mk node)).filter (·.1 = n)).map Prod.snd =
      if n = node then u.mutations else [] := by
    by_cases hn : n = node
    · simp [hn, List.filter_map, Function.comp_def]
    · simp [hn, Ne.symm hn, List.filter_map, Function.comp_def]
  rw [appliedAt, useStore, List.filter_append, List.map_append, hnew]
  split <;> rfl

/-- **What a step does at a worker**: nothing to its records, or one use of
its store, by a request it serves or otherwise, or it drops a partition it
does not hold. -/
inductive WorkerStep (topology : Client.Topology) (n : NodeId) (w w' : World) : Prop
  | same (happlied : w'.appliedAt n = w.appliedAt n) (hreadings : w'.readings n = w.readings n)
      (hstored : ∀ k, (w'.stores n).stored k = (w.stores n).stored k)
      (hserved : ∀ e ∈ w'.served, e ∈ w.served ∨ e.node ≠ n)
  | use (u : Use) (hstore : w'.stores n = (w.stores n).use u)
      (happlied : w'.appliedAt n = u.mutations ++ w.appliedAt n)
      (hreadings : w'.readings n = u.clock.toList ++ w.readings n)
      (hserved : ∀ e ∈ w'.served, e ∈ w.served)
  | serve (c now : ℕ) (x : Connection) (asker : Asker) (request : ClientRequest)
      (hx : w.connections[c]? = some x) (hrequest : (asker, request) ∈ x.outbound)
      (hstore : w'.stores n = (w.stores n).use (.event (requestEvent now request)))
      (happlied : w'.appliedAt n =
        (Use.event (requestEvent now request)).mutations ++ w.appliedAt n)
      (hreadings : w'.readings n =
        (Use.event (requestEvent now request)).clock.toList ++ w.readings n)
      (hserved : ∀ e ∈ w'.served, e ∈ w.served ∨ e = ⟨asker, n,
        responseRecord (openClientConnection (w.stores n) now request).2, w'.readings n⟩)
  | drop (p : PartitionId) (howns : Worker.nodeOwnsPartition topology.partitions p n = false)
      (hstore : w'.stores n = (w.stores n).removePartition p)
      (happlied : w'.appliedAt n = w.appliedAt n) (hreadings : w'.readings n = w.readings n)
      (hserved : ∀ e ∈ w'.served, e ∈ w.served)

/-- What happens on the clients' side reaches no worker. -/
theorem WorkerStep.of_eq (hstores : w'.stores = w.stores) (happlied : w'.applied = w.applied)
    (hreadings : w'.readings = w.readings) (hserved : w'.served = w.served) :
    WorkerStep topology n w w' :=
  .same (by rw [appliedAt, happlied, appliedAt]) (by rw [hreadings]) (fun k => by rw [hstores])
    fun e he => Or.inl (hserved ▸ he)

theorem workerStep_useStore (w : World) (topology : Client.Topology) (n node : NodeId) (u : Use) :
    WorkerStep topology n w (w.useStore node ((w.stores node).use u) u) := by
  by_cases hn : n = node
  · subst hn
    exact .use u (by simp [useStore]) (by simp [appliedAt_useStore]) (by simp [useStore])
      fun _ he => he
  · exact .same (by simp [appliedAt_useStore, hn]) (by simp [useStore, hn]) (by simp [useStore, hn])
      fun _ he => Or.inl he

theorem workerStep_serve (w : World) (topology : Client.Topology) (n : NodeId) (c now : ℕ) :
    WorkerStep topology n w (w.serve c now) := by
  unfold serve
  split
  · rename_i x hx
    split
    · rename_i asker request rest hout
      have happlied := appliedAt_useStore w n x.node
        (openClientConnection (w.stores x.node) now request).1 (.event (requestEvent now request))
      by_cases hn : n = x.node
      · refine .serve c now x asker request hx (hout ▸ List.mem_cons_self) ?_ ?_ ?_ fun e he => ?_
        · simp [setConnection, useStore, hn, openClientConnection_store, RuntimeStore.use]
        · exact happlied.trans (if_pos hn)
        · simp [setConnection, useStore, hn]
        · rcases List.mem_cons.mp he with rfl | he
          · exact Or.inr (by rw [hn]; rfl)
          · exact Or.inl he
      · refine .same (happlied.trans (if_neg hn))
          (by simp [setConnection, useStore, hn]) (by simp [setConnection, useStore, hn])
          fun e he => ?_
        rcases List.mem_cons.mp he with rfl | he
        · exact Or.inr (Ne.symm hn)
        · exact Or.inl he
    · exact .of_eq rfl rfl rfl rfl
  · exact .of_eq rfl rfl rfl rfl

theorem workerStep_receive (w : World) (topology : Client.Topology) (n : NodeId) (c : ℕ) :
    WorkerStep topology n w (w.receive c) := by
  have hwake : ∀ node reply a, (w.wake c node reply a).stores = w.stores ∧
      (w.wake c node reply a).applied = w.applied ∧
      (w.wake c node reply a).readings = w.readings ∧
      (w.wake c node reply a).served = w.served := by
    intro node reply a
    unfold wake
    split
    · split <;> exact ⟨rfl, rfl, rfl, rfl⟩
    · exact ⟨rfl, rfl, rfl, rfl⟩
  unfold receive
  split
  · rename_i x _
    split
    · exact .of_eq rfl rfl rfl rfl
    · split
      · rename_i asker reply rest _
        dsimp only
        split
        · rename_i waiting _
          obtain ⟨hstores, happlied, hreadings, hserved⟩ := hwake x.node reply waiting
          exact .of_eq hstores happlied hreadings hserved
        · exact .of_eq rfl rfl rfl rfl
      · exact .of_eq rfl rfl rfl rfl
  · exact .of_eq rfl rfl rfl rfl

/-- A pruned journal keeps the records. -/
theorem stored_prunePartitionChanges (store : RuntimeStore) (p : PartitionId) (r : ℕ) (k : Key) :
    (store.prunePartitionChanges p r).stored k = store.stored k := by
  rw [RuntimeStore.stored, RuntimeStore.partition_prune, RuntimeStore.stored]
  split <;> rfl

/-- **Every step is a step of each worker.** -/
theorem workerStep_step (topology : Client.Topology) (attempts : ℕ) (n : NodeId) (w : World)
    (a : Action) : WorkerStep topology n w (step topology attempts w a) := by
  cases a with
  | serve c now => exact workerStep_serve w topology n c now
  | receive c => exact workerStep_receive w topology n c
  | use node u => exact workerStep_useStore w topology n node u
  | prune node p throughRevision =>
    refine .same rfl rfl (fun k => ?_) fun _ he => Or.inl he
    by_cases hn : n = node
    · subst hn
      simp only [step, Function.update_self]
      exact stored_prunePartitionChanges _ _ _ _
    · simp [step, hn]
  | removePartition node p =>
    simp only [step]
    split
    · exact .of_eq rfl rfl rfl rfl
    · rename_i howns
      by_cases hn : n = node
      · subst hn
        exact .drop p (Bool.eq_false_iff.mpr howns) (by simp) rfl rfl fun _ he => he
      · exact .same rfl rfl (fun k => by simp [hn]) fun _ he => Or.inl he
  | ensure client node => exact .of_eq rfl rfl rfl rfl
  | begin client operation order =>
    simp only [step, World.begin]
    split <;> exact .of_eq rfl rfl rfl rfl
  | draw task node =>
    simp only [step, draw]
    split <;> exact .of_eq rfl rfl rfl rfl
  | fail task node reason =>
    simp only [step, fail]
    split <;> exact .of_eq rfl rfl rfl rfl
  | close c =>
    simp only [step, close]
    split <;> exact .of_eq rfl rfl rfl rfl
  | dial task node dialled =>
    simp only [step, dial]
    split
    · split <;> exact .of_eq rfl rfl rfl rfl
    · exact .of_eq rfl rfl rfl rfl
  | resume task =>
    simp only [step, resume]
    split
    · split <;> exact .of_eq rfl rfl rfl rfl
    · exact .of_eq rfl rfl rfl rfl
  | lookup task node =>
    simp only [step, lookup]
    split
    · split
      · exact .of_eq rfl rfl rfl rfl
      · split <;> exact .of_eq rfl rfl rfl rfl
    · exact .of_eq rfl rfl rfl rfl
  | send task node taken =>
    simp only [step, send]
    split
    · split
      · split <;> exact .of_eq rfl rfl rfl rfl
      · exact .of_eq rfl rfl rfl rfl
    · exact .of_eq rfl rfl rfl rfl

/-- What a worker has applied stays applied. -/
theorem WorkerStep.applied_mono (h : WorkerStep topology n w w') {e : Key × Mutation}
    (he : e ∈ w.appliedAt n) : e ∈ w'.appliedAt n := by
  cases h with
  | same happlied => rwa [happlied]
  | drop p howns hstore happlied => rwa [happlied]
  | use u hstore happlied =>
    rw [happlied]
    exact List.mem_append_right _ he
  | serve c now x asker request hx hrequest hstore happlied =>
    rw [happlied]
    exact List.mem_append_right _ he

/-! ## What a worker keeps -/

/-- **No other mutation of the key is as recent** among those any worker
has applied. -/
def Alone (w : World) (k : Key) (m : Mutation) : Prop :=
  ∀ e ∈ w.applied, e.2.1 = k → m.version ≤ e.2.2.version → e.2.2 = m

instance (w : World) (k : Key) (m : Mutation) : Decidable (Alone w k m) :=
  inferInstanceAs (Decidable (∀ e ∈ w.applied, e.2.1 = k → m.version ≤ e.2.2.version → e.2.2 = m))

/-- The worker has applied what it stores under the key, and it stores the
mutation from when it has applied it, if no other is as recent and its
clock has not reached the expiry. -/
structure Kept (n : NodeId) (k : Key) (m : Mutation) (w : World) : Prop where
  applied : ∀ x, (w.stores n).stored k = some x → (k, x) ∈ w.appliedAt n
  holds : (k, m) ∈ w.appliedAt n →
    (∀ x, (k, x) ∈ w.appliedAt n → m.version ≤ x.version → x = m) →
    (∀ r ∈ w.readings n, m.expired r = false) → (w.stores n).stored k = some m

theorem kept_start (n : NodeId) (k : Key) (m : Mutation) : Kept n k m start :=
  ⟨nofun, fun h => absurd h List.not_mem_nil⟩

/-- What a store holds after its mutations, it held or was given. -/
theorem mem_of_stored_applyAll {store : RuntimeStore} {mutations : List (Key × Mutation)}
    {x : Mutation} (h : (store.applyAll mutations).stored k = some x) :
    store.stored k = some x ∨ (k, x) ∈ mutations := by
  rw [RuntimeStore.stored_applyAll, LastWrite.foldl_write_toList,
    LastWrite.foldl_write_eq_some] at h
  rcases List.mem_append.mp h.mem with hin | hin
  · exact Or.inl (Option.mem_toList.mp hin)
  · exact Or.inr (RuntimeStore.mem_mutationsOf.mp hin)

/-- A step that leaves what is stored under the key. -/
theorem Kept.of_stored_eq (h : Kept n k m w) (happlied : w'.appliedAt n = w.appliedAt n)
    (hreadings : ∀ r ∈ w.readings n, r ∈ w'.readings n)
    (hstored : (w'.stores n).stored k = (w.stores n).stored k) : Kept n k m w' := by
  refine ⟨fun x hx => ?_, fun hm hothers hfresh => ?_⟩
  · rw [hstored] at hx
    rw [happlied]
    exact h.applied x hx
  · rw [happlied] at hm hothers
    rw [hstored]
    exact h.holds hm hothers fun r hr => hfresh r (hreadings r hr)

/-- **One use.** Of the mutations applied the most recent one is stored,
and it is taken away only by a clock that has reached its expiry. -/
theorem Kept.use {u : Use} (h : Kept n k m w) (hstore : w'.stores n = (w.stores n).use u)
    (happlied : w'.appliedAt n = u.mutations ++ w.appliedAt n)
    (hreadings : w'.readings n = u.clock.toList ++ w.readings n) : Kept n k m w' := by
  have hmore : ∀ r ∈ w.readings n, r ∈ w'.readings n := fun r hr =>
    hreadings ▸ List.mem_append_right _ hr
  rcases (w.stores n).use_cases u with hwrite | ⟨hnil, hsame⟩ | ⟨hnil, clock, hclock, hages⟩
  · rw [hwrite] at hstore
    have hknown : ∀ x, (w'.stores n).stored k = some x → (k, x) ∈ w'.appliedAt n := by
      intro x hx
      rw [hstore] at hx
      rw [happlied]
      rcases mem_of_stored_applyAll hx with hold | hnew
      · exact List.mem_append_right _ (h.applied x hold)
      · exact List.mem_append_left _ hnew
    refine ⟨hknown, fun hm hothers hfresh => ?_⟩
    have hgiven : m ∈ ((w.stores n).stored k).toList ∨ (k, m) ∈ u.mutations := by
      rw [happlied] at hm hothers
      rcases List.mem_append.mp hm with hnew | hold
      · exact Or.inr hnew
      · refine Or.inl (Option.mem_toList.mpr (h.holds hold (fun x hx => ?_) fun r hr => ?_))
        · exact hothers x (List.mem_append_right _ hx)
        · exact hfresh r (hmore r hr)
    obtain ⟨x, hx, hle⟩ := RuntimeStore.le_stored_applyAll u.mutations hgiven
    rw [← hstore] at hx
    rw [hx, hothers x (hknown x hx) hle]
  · rw [hnil, List.nil_append] at happlied
    exact h.of_stored_eq happlied hmore (by rw [hstore, hsame])
  · rw [hnil, List.nil_append] at happlied
    rw [← hstore] at hages
    rcases hages k with hsame | ⟨hnone, x, hx, hexpired⟩
    · exact h.of_stored_eq happlied hmore hsame
    · refine ⟨fun x' hx' => ?_, fun hm hothers hfresh => ?_⟩
      · rw [hnone] at hx'
        cases hx'
      · -- the clock that takes the mutation away has reached its expiry
        rw [happlied] at hm hothers
        have hstored := h.holds hm hothers fun r hr => hfresh r (hmore r hr)
        have hin : clock ∈ w'.readings n := by
          rw [hreadings, hclock]
          exact List.mem_cons_self
        rw [Option.some.inj (hx.symm.trans hstored), hfresh clock hin] at hexpired
        cases hexpired

/-- **A worker that holds the partition keeps the mutation.** -/
theorem Kept.step (h : Kept n k m w) (hstep : WorkerStep topology n w w')
    (howns : Worker.nodeOwnsPartition topology.partitions k.partition n = true) :
    Kept n k m w' := by
  cases hstep with
  | same happlied hreadings hstored =>
    exact h.of_stored_eq happlied (fun r hr => hreadings ▸ hr) (hstored k)
  | use u hstore happlied hreadings => exact h.use hstore happlied hreadings
  | serve c now x asker request hx hrequest hstore happlied hreadings =>
    exact h.use hstore happlied hreadings
  | drop p hnotOwned hstore happlied hreadings =>
    have hp : p ≠ k.partition := by
      rintro rfl
      rw [howns] at hnotOwned
      cases hnotOwned
    refine h.of_stored_eq happlied (fun r hr => hreadings ▸ hr) ?_
    rw [hstore, RuntimeStore.stored, RuntimeStore.partition_removePartition, if_neg hp,
      RuntimeStore.stored]

/-! ## What a later read is shown -/

/-- The record a response makes of a mutation. -/
def recordOf (k : Key) : Mutation → Wire.GrpcRecord
  | .put record =>
    ⟨k.val, record.value, record.expirationTimeMs, record.creationTimeMs, false⟩
  | .delete deletionTimeMs => ⟨0, [], 0, deletionTimeMs, true⟩

theorem responseRecord_getResponse (id : ℕ) (k : Key) (m : Mutation) :
    responseRecord (getResponse id k.val (some m)) = some (recordOf k m) := by
  cases m <;> rfl

/-- A read that the clock lets through. -/
theorem getVersioned_of_stored {store : RuntimeStore} {now : ℕ} (h : store.stored k = some m)
    (hfresh : m.expired now = false) : (store.getVersioned k now).1 = some m := by
  have hrecord : (store.partition k.partition).records[k]? = some m := h
  simp [RuntimeStore.getVersioned, hrecord, hfresh]

/-- **The reads of the key that began at task `i` or later are shown the
mutation** whenever the worker serves them before its expiry. -/
def Shows (i : ℕ) (n : NodeId) (k : Key) (m : Mutation) (w : World) : Prop :=
  Alone w k m → ∀ e ∈ w.served, i ≤ e.asker.task → e.asker.operation = .get k → e.node = n →
    (∀ r ∈ e.readings, m.expired r = false) → e.record = some (recordOf k m)

/-- **A read that is served now is shown what the worker keeps.** -/
theorem Shows.step {i attempts : ℕ} {a : Action} (hshows : Shows i n k m w)
    (hinv : Inv topology w) (hkept : Kept n k m w) (hm : (k, m) ∈ w.appliedAt n) :
    Shows i n k m (step topology attempts w a) := by
  intro halone e he hi hop hn hfresh
  have halone' : Alone w k m := by
    intro e he
    have hstep := workerStep_step topology attempts e.1 w a
    exact halone e (mem_appliedAt.mp (hstep.applied_mono (mem_appliedAt.mpr he)))
  have hold : e ∈ w.served → e.record = some (recordOf k m) := fun he =>
    hshows halone' e he hi hop hn hfresh
  cases workerStep_step topology attempts n w a with
  | same happlied hreadings hstored hserved =>
    exact hold ((hserved e he).resolve_right (not_not.mpr hn))
  | use u hstore happlied hreadings hserved => exact hold (hserved e he)
  | drop p howns hstore happlied hreadings hserved => exact hold (hserved e he)
  | serve c now x asker request hx hrequest hstore happlied hreadings hserved =>
    rcases hserved e he with he | rfl
    · exact hold he
    · obtain ⟨-, q, hq, hsame⟩ := (hinv.connections c x hx).outbound _ hrequest
      dsimp only at hop hq hsame hfresh ⊢
      rw [hop] at hq
      obtain ⟨hevent, hresponse⟩ := openClientConnection_get hq (w.stores n) now request.id
      rw [← hsame] at hevent hresponse
      rw [hreadings, hevent] at hfresh
      have hothers : ∀ x, (k, x) ∈ w.appliedAt n → m.version ≤ x.version → x = m := fun x hx =>
        halone' (n, k, x) (mem_appliedAt.mp hx) rfl
      have hstored := hkept.holds hm hothers fun r hr => hfresh r (List.mem_append_right _ hr)
      have hnow : m.expired now = false := hfresh now List.mem_cons_self
      rw [hresponse, getVersioned_of_stored hstored hnow, responseRecord_getResponse]

/-! ## The two operations together -/

/-- The value a read returns of a mutation. -/
def valueOf : Mutation → Option (List UInt8)
  | .put record => some record.value
  | .delete _ => none

theorem shown_recordOf (k : Key) (m : Mutation) : shown (recordOf k m) = valueOf m := by
  cases m <;> rfl

/-- A read asks the master first. -/
theorem master_of_readTargets {fallback : Finset NodeId}
    (h : Client.readTargets topology k = .ok (n, fallback)) :
    ∃ entry, topology.partitions.mapping[k.partition]? = some entry ∧ entry.master = n := by
  rw [Client.readTargets, Client.partition_eq] at h
  split at h
  · cases h
  · rename_i entry hentry
    cases h
    exact ⟨entry, hentry, rfl⟩

/-- And a write goes to the master. -/
theorem writeTargets_of_mutation {operation : Operation} {entry : Partition}
    (hm : operation.mutation = some (k, m))
    (hentry : topology.partitions.mapping[k.partition]? = some entry) :
    operation.writeTargets topology = some (insert entry.master entry.replicas) := by
  have htargets : (Client.writeTargets topology k).toOption =
      some (insert entry.master entry.replicas) := by
    rw [Client.writeTargets, Client.partition_eq, hentry]
    rfl
  cases operation with
  | get key => cases hm
  | delete key reading =>
    cases reading with
    | none => cases hm
    | some deletionTime =>
      cases hm
      exact htargets
  | put key value ttl reading =>
    cases reading with
    | none => cases hm
    | some creationTime =>
      obtain ⟨expiration, -, heq⟩ := Option.map_eq_some_iff.mp hm
      cases heq
      exact htargets

/-- **A write that has returned is applied at the master.** -/
theorem applied_of_written {write : Asker} {entry : Partition} (hinv : Inv topology w)
    (hm : write.operation.mutation = some (k, m))
    (hentry : topology.partitions.mapping[k.partition]? = some entry)
    (hwritten : ⟨write, .written⟩ ∈ w.returned) : (k, m) ∈ w.appliedAt entry.master := by
  obtain ⟨record, e, he, hasker, hnode, -⟩ := (hinv.returned _ hwritten).written rfl _
    (writeTargets_of_mutation hm hentry) entry.master (Finset.mem_insert_self _ _)
  have happlied := (hinv.served e (hinv.answers e he)).applied (k, m) (by rw [hasker]; exact hm)
  rw [hnode] at happlied
  exact mem_appliedAt.mpr happlied

/-- **Clients read their writes** as long as no request is sent under an id
somebody waits under on its connection. In every run: once a put or a
deletion has returned, and as long as no worker applies another mutation
of the key that is as recent, a read of the key that begins afterwards and
succeeds returns the value of the put, and nothing after the deletion, if
by the clock of the worker that answered it the put had not expired. -/
theorem read_your_writes (topology : Client.Topology) (attempts : ℕ) (before after : List Action)
    (hapart : Along (step topology attempts) Apart start (before ++ after))
    (write read : Asker) (k : Key) (m : Mutation) (value : Option (List UInt8))
    (hwrite : write.operation.mutation = some (k, m)) (hget : read.operation = .get k)
    (hwritten : ⟨write, .written⟩ ∈ (run (step topology attempts) start before).returned)
    (hlater : (run (step topology attempts) start before).nextTask ≤ read.task)
    (hread : ⟨read, .read value⟩ ∈
      (run (step topology attempts) start (before ++ after)).returned)
    (halone : Alone (run (step topology attempts) start (before ++ after)) k m)
    (hfresh : ∀ e ∈ (run (step topology attempts) start (before ++ after)).answers,
      e.asker = read → ∀ r ∈ e.readings, m.expired r = false) :
    value = valueOf m := by
  obtain ⟨hbefore, hafter⟩ := along_append.mp hapart
  have hinv := inv_run attempts hbefore
  -- the read names the master, which the write has reached
  obtain ⟨key, master, fallback, record, hop, htargets, ⟨e, he, hasker, hnode, hrecord⟩, hvalue⟩ :=
    ((inv_run attempts hapart).returned _ hread).read value rfl
  obtain rfl : k = key := Operation.get.inj (hget.symm.trans hop)
  obtain ⟨entry, hentry, rfl⟩ := master_of_readTargets htargets
  have hm := applied_of_written hinv hwrite hentry hwritten
  have howns : Worker.nodeOwnsPartition topology.partitions k.partition entry.master = true := by
    simp [Worker.nodeOwnsPartition, hentry]
  have hkept : Kept entry.master k m (run (step topology attempts) start before) :=
    run_keeps (fun w a h => h.step (workerStep_step topology attempts _ w a) howns)
      (kept_start _ _ _) before
  have hshows : Shows (run (step topology attempts) start before).nextTask entry.master k m
      (run (step topology attempts) start before) := fun _ e he hi =>
    absurd (hinv.served e he).lt (not_lt.mpr hi)
  -- what holds when the write returns goes on holding
  have hfinal := run_inv (I := fun w => Inv topology w ∧ Kept entry.master k m w ∧
      (k, m) ∈ w.appliedAt entry.master ∧
      Shows (run (step topology attempts) start before).nextTask entry.master k m w)
    (fun w a h hok => ?_) ⟨hinv, hkept, hm, hshows⟩ hafter
  · rw [← run_append] at hfinal
    obtain ⟨hinv', -, -, hshows'⟩ := hfinal
    have hshown := hshows' halone e (hinv'.answers e he) (by rw [hasker]; exact hlater)
      (by rw [hasker]; exact hop) hnode (hfresh e he hasker)
    rw [hrecord] at hshown
    rw [hvalue _ hshown, shown_recordOf]
  · obtain ⟨hinv, hkept, hm, hshows⟩ := h
    have hstep := workerStep_step topology attempts entry.master w a
    exact ⟨inv_step attempts hinv a hok, hkept.step hstep howns, hstep.applied_mono hm,
      hshows.step hinv hkept hm⟩

/-! ## Runs to be computed -/

/-- Worker 1 is the master of the first partition and worker 2 of the
second. -/
def twoMasters : Client.Topology where
  epoch := 1
  leaderId := some ⟨9⟩
  nodes := ((∅ : Map NodeId Client.Node).insert ⟨1⟩ ⟨"http://worker-1:9001", .worker⟩).insert ⟨2⟩
    ⟨"http://worker-2:9002", .worker⟩
  partitions :=
    { mapping := ((∅ : Map PartitionId Partition).insert ⟨0⟩ ⟨⟨1⟩, ∅⟩).insert ⟨1⟩ ⟨⟨2⟩, ∅⟩
      oldReplicas := ∅
      newReplicas := ∅ }

/-- A call that dials worker 1 and sends. -/
def sends (task : ℕ) : List Action :=
  [.draw task ⟨1⟩, .lookup task ⟨1⟩, .dial task ⟨1⟩ (.ok ()), .send task ⟨1⟩ true]

/-- A put gives up while its request is on its way, and a more recent one
returns. -/
def overtakingPut : List Action :=
  .begin 0 (.put ⟨0⟩ [3] none (some 4)) .ascending :: sends 0 ++
    [.fail 0 ⟨1⟩ .requestTimeout, .begin 1 (.put ⟨0⟩ [7] (some 95) (some 5)) .ascending] ++
    sends 1 ++ [.serve 1 10, .receive 1, .resume 1]

/-- The request arrives, and then another client reads. -/
def readAfterwards : List Action :=
  [.begin 2 (.get ⟨0⟩) .ascending, .serve 0 20] ++ sends 2 ++ [.serve 2 50, .receive 2, .resume 2]

theorem overtakingPut_returns :
    ⟨⟨1, .put ⟨0⟩ [7] (some 95) (some 5)⟩, .written⟩ ∈
      (run (step twoMasters 1) start overtakingPut).returned ∧
    (run (step twoMasters 1) start overtakingPut).nextTask ≤ 2 := by
  decide +kernel

theorem apart_overtaking :
    Along (step twoMasters 1) Apart start (overtakingPut ++ readAfterwards) := by
  decide +kernel

theorem readAfterwards_returns :
    ⟨⟨2, .get ⟨0⟩⟩, .read (some [7])⟩ ∈
      (run (step twoMasters 1) start (overtakingPut ++ readAfterwards)).returned ∧
    Alone (run (step twoMasters 1) start (overtakingPut ++ readAfterwards)) ⟨0⟩
      (.put ⟨100, 5, [7]⟩) := by
  decide +kernel

theorem readings_overtaking :
    ∀ e ∈ (run (step twoMasters 1) start (overtakingPut ++ readAfterwards)).answers,
      e.asker = ⟨2, .get ⟨0⟩⟩ → ∀ r ∈ e.readings,
        (Mutation.put ⟨100, 5, [7]⟩).expired r = false := by
  decide +kernel

theorem read_your_writes_overtaking :
    ⟨⟨2, .get ⟨0⟩⟩, .read (some [7])⟩ ∈
      (run (step twoMasters 1) start (overtakingPut ++ readAfterwards)).returned ∧
    some [7] = valueOf (.put ⟨100, 5, [7]⟩) := by
  have hwrite : (Operation.put ⟨0⟩ [7] (some 95) (some 5)).mutation =
      some (⟨0⟩, .put ⟨100, 5, [7]⟩) := by decide +kernel
  obtain ⟨hwritten, hlater⟩ := overtakingPut_returns
  obtain ⟨hread, halone⟩ := readAfterwards_returns
  exact ⟨hread, read_your_writes twoMasters 1 overtakingPut readAfterwards apart_overtaking
    ⟨1, .put ⟨0⟩ [7] (some 95) (some 5)⟩ ⟨2, .get ⟨0⟩⟩ ⟨0⟩ (.put ⟨100, 5, [7]⟩) (some [7])
    hwrite rfl hwritten hlater hread halone readings_overtaking⟩

/-! ## An id that comes round

A client whose reads are refused draws ids and leaves nothing else behind
(`run_refusals`). After as many of them as there are other ids, a put is
sent under the id of a read that is still waited for. -/

/-- A read of client 0 from worker 2, which refuses the connection. -/
def refused (i : ℕ) : List Action :=
  [.begin 0 (.get ⟨1⟩) .ascending, .draw i ⟨2⟩, .lookup i ⟨2⟩,
    .dial i ⟨2⟩ (.error "connection refused"), .resume i]

def refusals (i : ℕ) : ℕ → List Action
  | 0 => []
  | n + 1 => refused i ++ refusals (i + 1) n

/-- What such a read returns. -/
def refusal (i : ℕ) : Returned :=
  ⟨⟨i, .get ⟨1⟩⟩, .failed (.workerRequest ⟨2⟩ (.worker (.workerRequest ⟨2⟩ "connection refused")))⟩

def refusalsReturned (i : ℕ) : ℕ → List Returned → List Returned
  | 0, returned => returned
  | n + 1, returned => refusalsReturned (i + 1) n (refusal i :: returned)

/-- Client 0 has drawn some more ids, for reads that were refused. -/
def spent (w : World) (n : ℕ) : World :=
  { w with
    clients := Function.update w.clients 0
      { w.clients 0 with nextRequestId := ((w.clients 0).nextRequestId + n) % 2 ^ 32 }
    nextTask := w.nextTask + n
    returned := refusalsReturned w.nextTask n w.returned }

/-- A read that asks worker 2. -/
def reading (phase : Phase) : Task :=
  ⟨0, .get ⟨1⟩, request .get ⟨1⟩ none none none, .primary ⟨2⟩ [],
    (∅ : Map NodeId Call).insert ⟨2⟩ ⟨0, phase⟩⟩

/-- The world while the read is under way. -/
def during (w : World) (i : ℕ) (phase : Phase) : World :=
  { w with tasks := w.tasks.insert i (reading phase) }

theorem begin_reading :
    Requests.begin twoMasters 0 (.get ⟨1⟩) .ascending = .ok (reading .idle) := by
  have hentry : twoMasters.partitions.mapping[(⟨1⟩ : Key).partition]? = some ⟨⟨2⟩, ∅⟩ := by
    simp [twoMasters, Key.partition, partitionsAmount]
  have htargets : Client.readTargets twoMasters ⟨1⟩ = .ok (⟨2⟩, ∅) := by
    rw [Client.readTargets, Client.partition_eq, hentry]
    rfl
  simp only [Requests.begin, htargets]
  rfl

theorem call_during (w : World) (i : ℕ) (phase : Phase) :
    (w.during i phase).call i ⟨2⟩ = some ⟨0, phase⟩ := by
  simp [call, during, reading]

theorem clientOf_during (w : World) (i : ℕ) (phase : Phase) :
    (w.during i phase).clientOf i = 0 := by
  simp [clientOf, during, reading]

theorem setCall_during (w : World) (i : ℕ) (phase phase' : Phase) :
    (w.during i phase).setCall i ⟨2⟩ ⟨0, phase'⟩ = w.during i phase' := by
  rw [setCall, during, during]
  congr 1
  refine Map.alter_insert ?_
  simp only [Option.map_some, reading, Map.insert_insert]

/-! ### The steps of a refused read -/

theorem draw_during (w : World) (i : ℕ) :
    (w.during i .idle).draw i ⟨2⟩ = (w.setClient 0 { w.clients 0 with
      nextRequestId := ((w.clients 0).nextRequestId + 1) % 2 ^ 32 }).during i
        (.drawn (w.clients 0).nextRequestId) := by
  rw [draw, call_during, clientOf_during]
  exact setCall_during (w.setClient 0 _) _ _ _

theorem lookup_during (hno : (⟨2⟩ : NodeId) ∉ (w.clients 0).workers) (i id : ℕ) :
    (w.during i (.drawn id)).lookup twoMasters 1 i ⟨2⟩ = w.during i (.dialling id) := by
  have hnode : (⟨2⟩ : NodeId) ∈ twoMasters.nodes := by simp [twoMasters]
  have hnone : ((w.during i (.drawn id)).clients 0).workers[(⟨2⟩ : NodeId)]? = none :=
    Std.ExtTreeMap.getElem?_eq_none hno
  rw [lookup, call_during, clientOf_during]
  simp only [hnone, if_pos hnode]
  exact setCall_during _ _ _ _

theorem dial_during (hno : (⟨2⟩ : NodeId) ∉ (w.clients 0).workers) (i id : ℕ) (reason : String) :
    (w.during i (.dialling id)).dial 1 i ⟨2⟩ (.error reason) = w.during i
      (.done (.error (.workerRequest ⟨2⟩ (.worker (.workerRequest ⟨2⟩ reason))))) := by
  have hforgotten : (w.during i (.dialling id)).setClient 0 { w.clients 0 with
      workers := (w.clients 0).workers.erase ⟨2⟩ } = w.during i (.dialling id) := by
    rw [setClient, Map.erase_of_not_mem hno]
    simp [during]
  rw [dial, call_during]
  simp only [failAttempt, clientOf_during]
  exact (congrArg (fun w : World => w.setCall i ⟨2⟩ _) hforgotten).trans (setCall_during _ _ _ _)

theorem resume_during (hfree : i ∉ w.tasks) (failure : Failure) :
    (w.during i (.done (.error failure))).resume i =
      { w with returned := ⟨⟨i, .get ⟨1⟩⟩, .failed failure⟩ :: w.returned } := by
  have htask : (w.during i (.done (.error failure))).tasks[i]? =
      some (reading (.done (.error failure))) := by simp [during]
  have hcontinue : (reading (.done (.error failure))).continue =
      some (.returns (.failed failure)) := by
    simp [reading, Task.continue, Task.result]
  rw [resume, htask]
  simp only [hcontinue]
  simp only [returns, askerOf, reading, during, Map.erase_insert _ hfree]

/-- **A refused read** leaves a client that has drawn an id. -/
theorem run_refused (hfree : w.nextTask ∉ w.tasks)
    (hno : (⟨2⟩ : NodeId) ∉ (w.clients 0).workers) :
    run (step twoMasters 1) w (refused w.nextTask) = w.spent 1 := by
  have hbegin : w.begin twoMasters 0 (.get ⟨1⟩) .ascending =
      { w with nextTask := w.nextTask + 1 }.during w.nextTask .idle := by
    rw [World.begin, begin_reading]
    rfl
  simp only [refused, run_cons, run_nil, step, hbegin, draw_during]
  rw [lookup_during, dial_during, resume_during]
  · rfl
  · exact hfree
  · simpa [setClient] using hno
  · simpa [setClient] using hno

/-- **Refused reads use ids up**, and nothing else is different. -/
theorem run_refusals (w : World) (n : ℕ) (hfree : ∀ i, w.nextTask ≤ i → i ∉ w.tasks)
    (hid : (w.clients 0).nextRequestId < 2 ^ 32)
    (hno : (⟨2⟩ : NodeId) ∉ (w.clients 0).workers) :
    run (step twoMasters 1) w (refusals w.nextTask n) = w.spent n := by
  induction n generalizing w with
  | zero =>
    simp only [refusals, run_nil, spent, refusalsReturned, Nat.add_zero, Nat.mod_eq_of_lt hid,
      Function.update_eq_self]
  | succ n ih =>
    rw [refusals, run_append, run_refused (hfree _ le_rfl) hno]
    have hrest := ih (w.spent 1) (fun i hi => hfree i (Nat.le_of_succ_le hi))
      (by simp [spent, Nat.mod_lt]) (by simpa [spent] using hno)
    rw [show (w.spent 1).nextTask = w.nextTask + 1 from rfl] at hrest
    rw [hrest]
    simp [spent, refusalsReturned, Nat.add_assoc, Nat.add_comm 1 n]

/-! ### The write -/

/-- A read under the id 1 whose response stays on its way, then as many
refused reads as there are other ids, and a put. -/
def lateRead : List Action :=
  .begin 0 (.get ⟨0⟩) .ascending :: sends 0 ++ [.serve 0 10]

def putUnderItsId : List Action :=
  [.begin 0 (.put ⟨0⟩ [7] none (some 5)) .ascending, .draw (2 ^ 32) ⟨1⟩, .lookup (2 ^ 32) ⟨1⟩,
    .send (2 ^ 32) ⟨1⟩ true, .receive 0, .resume (2 ^ 32)]

def reused : List Action := lateRead ++ refusals 1 (2 ^ 32 - 1) ++ putUnderItsId

/-- Another client reads. -/
def readElsewhere : List Action :=
  .begin 1 (.get ⟨0⟩) .ascending :: sends (2 ^ 32 + 1) ++
    [.serve 1 20, .receive 1, .resume (2 ^ 32 + 1)]

theorem run_reused (after : List Action) :
    run (step twoMasters 1) start (reused ++ after) = run (step twoMasters 1)
      ((run (step twoMasters 1) start lateRead).spent (2 ^ 32 - 1)) (putUnderItsId ++ after) := by
  have hid : ((run (step twoMasters 1) start lateRead).clients 0).nextRequestId < 2 ^ 32 := by
    decide +kernel
  have hno : (⟨2⟩ : NodeId) ∉ ((run (step twoMasters 1) start lateRead).clients 0).workers := by
    decide +kernel
  have hnext : (run (step twoMasters 1) start lateRead).nextTask = 1 := by decide +kernel
  have hinv : Inv twoMasters (run (step twoMasters 1) start lateRead) :=
    inv_run 1 (by decide +kernel)
  have hfree : ∀ i, (run (step twoMasters 1) start lateRead).nextTask ≤ i →
      i ∉ (run (step twoMasters 1) start lateRead).tasks := by
    intro i hi hmem
    obtain ⟨t, ht⟩ := Option.isSome_iff_exists.mp (Std.ExtTreeMap.isSome_getElem?_iff_mem.mpr hmem)
    exact absurd (hinv.tasks i t ht).lt (not_lt.mpr hi)
  have hrefusals := run_refusals _ (2 ^ 32 - 1) hfree hid hno
  rw [hnext] at hrefusals
  rw [reused, run_append, run_append, run_append, hrefusals, ← run_append]

/-- **A reused id makes a write return that no worker has applied.** -/
theorem reused_id_breaks_the_write :
    ⟨⟨2 ^ 32, .put ⟨0⟩ [7] none (some 5)⟩, .written⟩ ∈
      (run (step twoMasters 1) start reused).returned ∧
    (run (step twoMasters 1) start reused).nextTask ≤ 2 ^ 32 + 1 ∧
    ⟨⟨2 ^ 32 + 1, .get ⟨0⟩⟩, .read none⟩ ∈
      (run (step twoMasters 1) start (reused ++ readElsewhere)).returned ∧
    Alone (run (step twoMasters 1) start (reused ++ readElsewhere)) ⟨0⟩ (.put ⟨0, 5, [7]⟩) ∧
    (∀ e ∈ (run (step twoMasters 1) start (reused ++ readElsewhere)).answers,
      e.asker = ⟨2 ^ 32 + 1, .get ⟨0⟩⟩ → ∀ r ∈ e.readings,
        (Mutation.put ⟨0, 5, [7]⟩).expired r = false) ∧
    (Operation.put ⟨0⟩ [7] none (some 5)).mutation = some (⟨0⟩, .put ⟨0, 5, [7]⟩) ∧
    none ≠ valueOf (.put ⟨0, 5, [7]⟩) := by
  have hreused := run_reused []
  rw [List.append_nil, List.append_nil] at hreused
  rw [hreused, run_reused]
  decide +kernel

end World

end Requests

end NoSqlStore
