import NoSqlStore.Sync.Visits
/-!
# Runs of a worker and its recipients

Soundness along whole runs. Two things can go wrong between a worker and a
recipient, and `Matched` and `ShortRanges` exclude them: an answer to an
earlier batch may carry the same greatest key as the last one, and a range
of the journal that is read again after a timeout may no longer fit in a
page. Runs without them stay sound (`sound_run`), whatever else is lost,
delayed or duplicated.
-/

namespace NoSqlStore

namespace Worker

open Coverage Runs

variable {me : Me} {w : World} {p q : PartitionId} {h g : NodeId}

/-! ## The handlers -/

theorem evolution_handleSyncBatch (store : RuntimeStore) (request : SyncBatchRequest) :
    RuntimeStore.Evolution store (handleSyncBatch store request).1 := by
  refine RuntimeStore.Evolution.foldl applyRecord (fun store record => ?_) _ _
  unfold applyRecord
  split
  · exact RuntimeStore.evolution_applyMutation _ _
  · exact RuntimeStore.evolution_applyMutation _ _

/-- Only an answer changes the states of the recipients. -/
theorem sync_handle {state : State} {store : RuntimeStore} {now : ℕ} {msg : WorkerProtocol}
    (hmsg : ∀ id keys, msg ≠ .syncBatchResponse id keys) :
    (handle me state store now msg).1.sync = state.sync := by
  cases msg with
  | newConnection id host port manager => cases id <;> rfl
  | heartbeat id heartbeatId ts =>
    simp only [handle, handleHeartbeat]
    split <;> rfl
  | getClusterState id => rfl
  | clusterState s =>
    simp only [handle, handleClusterState]
    split
    · dsimp only
      split <;> rfl
    · rfl
  | nodeDisconnected id => rfl
  | leader id epoch ts =>
    simp only [handle, handleLeader]
    split
    · split
      · split <;> rfl
      · rfl
    · rfl
  | removePartitionFromReplica id replicaId partitionId => rfl
  | syncBatch id request => rfl
  | syncBatchResponse id keys => exact absurd rfl (hmsg id keys)

theorem evolution_handle (state : State) (store : RuntimeStore) (now : ℕ) (msg : WorkerProtocol) :
    RuntimeStore.Evolution store (handle me state store now msg).2.1 := by
  cases msg with
  | syncBatch id request => exact evolution_handleSyncBatch store request
  | _ => exact .refl store

theorem sync_heartbeats (state : State) (now : ℕ) :
    (heartbeats state me now).1.sync = state.sync := by
  unfold heartbeats
  split
  · split <;> rfl
  · rfl

/-- An answer confirms the states it matches, of its sender only. -/
theorem sync_handleSyncBatchResponse (state : State) (keys : Map PartitionId Key) :
    ((handleSyncBatchResponse state keys h).sync[p]?.bind fun states => states[g]?) =
      match keys[p]? with
      | some key => if h = g then (state.sync[p]?.bind fun states => states[g]?).map (confirm key)
        else state.sync[p]?.bind fun states => states[g]?
      | none => state.sync[p]?.bind fun states => states[g]? := by
  have hfold := Map.getElem?_foldl_alter
    (fun _ key (states : Option (Map NodeId SyncState)) => states.map fun states =>
      states.alter h fun st => st.map (confirm key)) keys state.sync p
  unfold handleSyncBatchResponse
  dsimp only
  rw [hfold]
  cases keys[p]? with
  | none => rfl
  | some key =>
    cases state.sync[p]? with
    | none => simp
    | some states =>
      by_cases hg : h = g
      · subst hg
        simp
      · simp [Std.ExtTreeMap.getElem?_alter, hg]

/-- An answer names the partitions of the records applied. -/
theorem exists_of_maxAppliedKeys {records : List SyncRecord} {key : Key}
    (hk : (maxAppliedKeys records)[q]? = some key) :
    ∃ record ∈ records, record.key.partition = q := by
  have hfold : ∀ (l : List SyncRecord) (acc : Map PartitionId Key),
      (l.foldl (fun keys record => keys.alter record.key.partition fun
        | some key => some (if key < record.key then record.key else key)
        | none => some record.key) acc)[q]? = some key →
      acc[q]? = some key ∨ ∃ record ∈ l, record.key.partition = q := by
    intro l
    induction l with
    | nil => exact fun acc hacc => Or.inl hacc
    | cons record l ih =>
      intro acc hacc
      rcases ih _ hacc with hin | ⟨r, hr, hq⟩
      · by_cases hp : record.key.partition = q
        · exact Or.inr ⟨record, List.mem_cons_self, hp⟩
        · rw [Std.ExtTreeMap.getElem?_alter, if_neg (by rwa [compare_eq_iff_eq])] at hin
          exact Or.inl hin
      · exact Or.inr ⟨r, List.mem_cons_of_mem _ hr, hq⟩
  rcases hfold records ∅ hk with hempty | hex
  · rw [Std.ExtTreeMap.getElem?_empty] at hempty
    cases hempty
  · exact hex

/-- The answer to a proper batch changes the one state that waits for it. -/
theorem sync_answer {state : State} {b : Sent} {key : Key} (hb : b.Proper)
    (hkey : (maxAppliedKeys b.records)[b.partition]? = some key) :
    ((handleSyncBatchResponse state (maxAppliedKeys b.records) b.recipient).sync[p]?.bind
        fun states => states[h]?) =
      if p = b.partition ∧ h = b.recipient then
        (state.sync[p]?.bind fun states => states[h]?).map (confirm key)
      else state.sync[p]?.bind fun states => states[h]? := by
  rw [sync_handleSyncBatchResponse]
  cases hkeys : (maxAppliedKeys b.records)[p]? with
  | none =>
    have hne : ¬ (p = b.partition ∧ h = b.recipient) := by
      rintro ⟨rfl, -⟩
      rw [hkey] at hkeys
      cases hkeys
    rw [if_neg hne]
  | some key' =>
    obtain ⟨record, hr, hp⟩ := exists_of_maxAppliedKeys hkeys
    have hpart : p = b.partition := hp.symm.trans (hb record hr)
    subst hpart
    rw [hkey] at hkeys
    cases hkeys
    by_cases hh : b.recipient = h
    · rw [if_pos ⟨rfl, hh.symm⟩]
      exact if_pos hh
    · rw [if_neg fun hc => hh hc.2.symm]
      exact if_neg hh

/-! ## Sound worlds -/

namespace World

/-- **A sound world**: every synchronisation is in order, against what the
recipients have applied, and the batches delivered have been applied. -/
structure Sound (w : World) : Prop where
  sound : Worker.Sound w.Has w.syncState w.store w.sent
  delivered : ∀ i ∈ w.delivered, ∃ b, w.sent[i]? = some b ∧
    ∀ record ∈ b.records, (b.recipient, record) ∈ w.applied

/-- **An answer that matches is the answer to the last batch**: where the
greatest key applied is the one the state of the recipient waits for, the
batch answered is the last one sent to it. -/
def Matched (w : World) : Action → Prop
  | .respond i _ => ∀ b ∈ w.sent[i]?, ∀ st ∈ w.syncState b.partition b.recipient,
      i ∈ w.delivered → (maxAppliedKeys b.records)[b.partition]? = some st.currMaxKey →
        (lastSent w.sent b.partition b.recipient).map Prod.snd = some i
  | _ => True

instance decidableMatched (w : World) : ∀ a, Decidable (w.Matched a)
  | .respond i _ => inferInstanceAs (Decidable (∀ b ∈ w.sent[i]?,
      ∀ st ∈ w.syncState b.partition b.recipient, i ∈ w.delivered →
        (maxAppliedKeys b.records)[b.partition]? = some st.currMaxKey →
          (lastSent w.sent b.partition b.recipient).map Prod.snd = some i))
  | .store _ | .tick _ | .message _ _ | .deliver _ | .peer _ _ => inferInstanceAs (Decidable True)

theorem sound_start (now : ℕ) : (start me now).Sound := by
  refine ⟨⟨RuntimeStore.wellFormed_default, fun b hb => ?_, fun p h st hst => ?_⟩,
    fun i hi => ?_⟩
  · cases hb
  · cases hst
  · cases hi

/-- A batch that has been delivered has arrived. -/
theorem Sound.has_of_carries {b : Sent} {i : ℕ} (hs : w.Sound) (hi : i ∈ w.delivered)
    (hb : w.sent[i]? = some b) {k : Key} {m : Mutation} (hc : b.Carries k m) :
    w.Has b.recipient k m := by
  obtain ⟨b', hb', happlied⟩ := hs.delivered i hi
  rw [hb] at hb'
  cases hb'
  exact ⟨_, happlied _ hc, mutationToDomain_key k m, (mutationToDomain_creationTimeMs k m).ge⟩

/-- What a recipient has, it keeps having. -/
theorem Sound.mono {w' : World} (hs : w.Sound) (happlied : ∀ e ∈ w.applied, e ∈ w'.applied)
    (hsync : w'.syncState = w.syncState) (hstore : w'.store = w.store) (hsent : w'.sent = w.sent) :
    Worker.Sound w'.Has w'.syncState w'.store w'.sent := by
  rw [hsync, hstore, hsent]
  refine ⟨hs.sound.wellFormed, hs.sound.proper, fun p h st hst => ?_⟩
  obtain ⟨b, i, hl, hg⟩ := hs.sound.good p h st hst
  refine ⟨b, i, hl, hg.mono fun k m hm => ?_⟩
  obtain ⟨record, hr, hk, hv⟩ := hm
  exact ⟨record, happlied _ hr, hk, hv⟩

/-- An answer confirms batches that have arrived. -/
theorem sound_respond {b : Sent} {i : ℕ} {env : Env} (hs : w.Sound)
    (hm : w.Matched (.respond i env)) (hi : i ∈ w.delivered) (hb : w.sent[i]? = some b) :
    Worker.Sound w.Has (fun p h => (handleSyncBatchResponse w.state (maxAppliedKeys b.records)
      b.recipient).sync[p]?.bind fun states => states[h]?) w.store w.sent := by
  refine ⟨hs.sound.wellFormed, hs.sound.proper, fun p h st hst => ?_⟩
  rw [sync_handleSyncBatchResponse] at hst
  cases hkeys : (maxAppliedKeys b.records)[p]? with
  | none =>
    rw [hkeys] at hst
    exact hs.sound.good p h st hst
  | some key =>
    rw [hkeys] at hst
    dsimp only at hst
    by_cases hh : b.recipient = h
    · subst hh
      rw [if_pos rfl] at hst
      obtain ⟨st₀, hst₀, rfl⟩ := Option.map_eq_some_iff.mp hst
      -- a proper batch names its own partition only
      obtain ⟨record, hr, hp⟩ := exists_of_maxAppliedKeys hkeys
      have hpart : b.partition = p :=
        (hs.sound.proper b (List.mem_of_getElem? hb) record hr).symm.trans hp
      subst hpart
      obtain ⟨b', j, hl, hg⟩ := hs.sound.good _ _ st₀ hst₀
      refine ⟨b', j, hl, ?_⟩
      unfold confirm
      split
      · rename_i hcurr
        have hlast := hm b hb st₀ hst₀ hi (by rw [hkeys, hcurr])
        have hj : j = i := by simpa [hl] using hlast
        have hb' : w.sent[i]? = some b' := hj ▸ (lastSent_spec hl).1
        rw [hb] at hb'
        cases hb'
        exact hg.confirm fun k m hc => hs.has_of_carries hi hb hc
      · exact hg
    · rw [if_neg hh] at hst
      exact hs.sound.good p h st hst

/-- A message other than an answer goes to its handler. -/
theorem receive_message (me : Me) (w : World) (env : Env) {msg : WorkerProtocol}
    (hmsg : ∀ id keys, msg ≠ .syncBatchResponse id keys) :
    w.receive me (.message msg env) =
      { w with
        state := (handle me w.state w.store env.handleNow msg).1
        store := (handle me w.state w.store env.handleNow msg).2.1 } := by
  unfold receive
  split <;> simp_all

/-- **The part of an action before its tick keeps the world sound.** -/
theorem sound_receive {a : Action} (me : Me) (hs : w.Sound) (hm : w.Matched a) :
    (w.receive me a).Sound := by
  cases a with
  | store event =>
    refine ⟨?_, hs.delivered⟩
    exact Sound.shrink hs.sound (fun _ _ _ hst => hst) (RuntimeStore.evolution_apply w.store event)
  | tick env => exact hs
  | message msg env =>
    by_cases hmsg : ∃ id keys, msg = .syncBatchResponse id keys
    · obtain ⟨id, keys, rfl⟩ := hmsg
      exact hs
    · have hne : ∀ id keys, msg ≠ .syncBatchResponse id keys :=
        fun id keys heq => hmsg ⟨id, keys, heq⟩
      rw [receive_message me w env hne]
      refine ⟨Sound.shrink hs.sound (fun p h st hst => ?_) (evolution_handle _ _ _ _), hs.delivered⟩
      rw [syncState, sync_handle hne] at hst
      exact hst
  | deliver i =>
    simp only [receive]
    split
    · exact hs
    · rename_i b hb
      have hgrow : ∀ e ∈ w.applied, e ∈ w.applied ++ b.records.map fun record =>
          (b.recipient, record) := fun e he => List.mem_append_left _ he
      refine ⟨hs.mono hgrow rfl rfl rfl, fun j hj => ?_⟩
      rcases List.mem_append.mp hj with hj | hj
      · obtain ⟨b', hb', happlied⟩ := hs.delivered j hj
        exact ⟨b', hb', fun record hr => hgrow _ (happlied record hr)⟩
      · rw [List.mem_singleton.mp hj]
        exact ⟨b, hb, fun record hr =>
          List.mem_append_right _ (List.mem_map.mpr ⟨record, hr, rfl⟩)⟩
  | respond i env =>
    simp only [receive]
    split
    · exact hs
    · rename_i b hb
      split
      · rename_i hi
        exact ⟨sound_respond hs hm hi hb, hs.delivered⟩
      · exact hs
  | peer h event => exact ⟨hs.sound, hs.delivered⟩

/-- The tick an action ends with starts from a sound tick. -/
theorem Sound.ticking (hs : w.Sound) (env : Env) :
    Tick.Sound w.Has ⟨(heartbeats w.state me env.heartbeatNow).1, w.store,
      (heartbeats w.state me env.heartbeatNow).2, env.schedule, env.clock, w.sent, []⟩ := by
  refine Sound.shrink hs.sound (fun p h st hst => ?_) (.refl _)
  rw [Tick.syncState, sync_heartbeats] at hst
  exact hst

/-- **The tick of a sound world is a sequence of moves.** -/
theorem Sound.moves_ticked {env : Env} (hs : w.Sound)
    (hshort : ShortRanges (w.ticked me env).trace) :
    Moves w.Has me ⟨(heartbeats w.state me env.heartbeatNow).1, w.store,
      (heartbeats w.state me env.heartbeatNow).2, env.schedule, env.clock, w.sent, []⟩
      (w.ticked me env) :=
  moves_syncPartitions (hs.ticking env) hshort

/-- A tick adds batches and takes none away. -/
theorem sent_move {has : NodeId → Key → Mutation → Prop} {t t' : Tick} (hm : Move has me t t') :
    t.sent <+: t'.sent := by
  have hround : ∀ {t t' : Tick} {p : PartitionId} {h : NodeId} {result : Bool},
      Outcome (has h) p h t t' result → t.sent <+: t'.sent := by
    intro t t' p h result ho
    cases ho with
    | waits _ _ _ hsent _ => exact hsent ▸ List.prefix_refl _
    | writing _ _ _ hsent _ => exact hsent ▸ List.prefix_refl _
    | emptied _ _ _ _ hsent _ => exact hsent ▸ List.prefix_refl _
    | empty _ hsent _ _ => exact hsent ▸ List.prefix_refl _
    | copied _ _ _ _ hsent _ _ _ _ => exact hsent ▸ List.prefix_refl _
    | sends b st _ _ hsent _ _ _ _ => exact hsent ▸ List.prefix_append _ _
  cases hm with
  | round _ p h _ _ ho => exact hround ho
  | complete t' p h _ _ ho =>
    have hsent : t.sent <+: t'.sent := hround ho
    exact hsent
  | _ => exact List.prefix_refl _

theorem sent_moves {has : NodeId → Key → Mutation → Prop} {t t' : Tick} (hm : Moves has me t t') :
    t.sent <+: t'.sent := by
  induction hm with
  | refl => exact List.prefix_refl _
  | tail _ hmove ih => exact ih.trans (sent_move hmove)

/-- The world after the tick of an action. -/
def finish (w : World) (me : Me) (env : Env) : World :=
  { w with
    state := (w.ticked me env).state
    store := (w.ticked me env).store
    sent := (w.ticked me env).sent
    trace := w.trace ++ (w.ticked me env).trace }

/-- The two parts of an action. -/
theorem step_eq (me : Me) (w : World) (a : Action) :
    (a.env = none ∧ w.step me a = w.receive me a ∧ w.traceOf me a = []) ∨
    ∃ env, a.env = some env ∧ w.step me a = (w.receive me a).finish me env ∧
      w.traceOf me a = ((w.receive me a).ticked me env).trace := by
  unfold step traceOf
  cases ha : a.env with
  | none => exact Or.inl ⟨rfl, rfl, rfl⟩
  | some env => exact Or.inr ⟨env, rfl, rfl, rfl⟩

/-- **The tick of an action keeps the world sound.** -/
theorem sound_finish {env : Env} (hs : w.Sound) (hshort : ShortRanges (w.ticked me env).trace) :
    (w.finish me env).Sound := by
  have hmoves := hs.moves_ticked hshort
  refine ⟨(hs.ticking env).moves hmoves, fun i hi => ?_⟩
  obtain ⟨b, hb, happlied⟩ := hs.delivered i hi
  obtain ⟨more, hmore⟩ := sent_moves hmoves
  refine ⟨b, ?_, happlied⟩
  change (w.ticked me env).sent[i]? = some b
  rw [← hmore, List.getElem?_append_left]
  · exact hb
  · exact (List.getElem?_eq_some_iff.mp hb).1

/-- What a recipient has applied it keeps having applied. -/
theorem applied_receive (me : Me) (w : World) (a : Action) :
    w.applied <+: (w.receive me a).applied ∧ (w.receive me a).trace = w.trace := by
  cases a with
  | message msg env =>
    by_cases hmsg : ∃ id keys, msg = .syncBatchResponse id keys
    · obtain ⟨id, keys, rfl⟩ := hmsg
      exact ⟨List.prefix_refl _, rfl⟩
    · rw [receive_message me w env fun id keys heq => hmsg ⟨id, keys, heq⟩]
      exact ⟨List.prefix_refl _, rfl⟩
  | deliver i =>
    simp only [receive]
    split
    · exact ⟨List.prefix_refl _, rfl⟩
    · exact ⟨List.prefix_append _ _, rfl⟩
  | respond i env =>
    simp only [receive]
    split
    · exact ⟨List.prefix_refl _, rfl⟩
    · split <;> exact ⟨List.prefix_refl _, rfl⟩
  | _ => exact ⟨List.prefix_refl _, rfl⟩

theorem Has.mono {w' : World} {k : Key} {m : Mutation} (hh : w.Has h k m)
    (happlied : w.applied <+: w'.applied) : w'.Has h k m := by
  obtain ⟨record, hr, hk, hv⟩ := hh
  exact ⟨record, happlied.subset hr, hk, hv⟩

/-- **A step without the two slips**: an answer that matches answers the
last batch, and the ranges read again fit in a page. -/
structure Careful (w : World) (a : Action) (trace : List Trace) : Prop where
  matched : w.Matched a
  short : ShortRanges trace

instance (w : World) (a : Action) (trace : List Trace) : Decidable (w.Careful a trace) :=
  decidable_of_iff (w.Matched a ∧ ∀ e ∈ trace, e.short) ⟨fun ⟨h₁, h₂⟩ => ⟨h₁, h₂⟩,
    fun ⟨h₁, h₂⟩ => ⟨h₁, h₂⟩⟩

theorem sound_step {a : Action} (hs : w.Sound) (ha : w.Careful a (w.traceOf me a)) :
    (w.step me a).Sound := by
  have hr := sound_receive me hs ha.matched
  rcases step_eq me w a with ⟨-, heq, -⟩ | ⟨env, -, heq, htrace⟩
  · rw [heq]
    exact hr
  · rw [heq]
    refine sound_finish hr ?_
    rw [← htrace]
    exact ha.short

/-- Every step of a run meets a condition that may read the trace of its
tick. -/
def Guarded (w : World) (me : Me) (ok : World → Action → List Trace → Prop)
    (actions : List Action) : Prop :=
  Along (step me) (fun w a => ok w a (w.traceOf me a)) w actions

/-- **Careful runs stay sound.** -/
theorem sound_run {actions : List Action} (hs : w.Sound) (hok : w.Guarded me Careful actions) :
    (run (step me) w actions).Sound :=
  run_inv (fun _ _ hs ha => sound_step hs ha) hs hok

end World

end Worker

end NoSqlStore
