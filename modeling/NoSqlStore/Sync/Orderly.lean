import NoSqlStore.Sync.Idle
/-!
# Orderly runs

A run is orderly when every batch is answered at most once, no batch times
out, and the recipients under way stay connected. Then each recipient has
at most one batch unanswered, the last one sent to it, and waits for that
one alone (`Outstanding`), so an orderly run is a careful one and what the
two together say holds of every state it reaches: each record is at the
recipient, in the outstanding batch, ahead of the cursor, or in the
journal after the base (`coverage_of_orderly`). A recipient that connects
again while a batch is under way is sent another, and the answer to the
first may confirm it (`reconnection_uncovers`).
-/

namespace NoSqlStore

namespace Worker

open Coverage Runs

variable {me : Me} {has : NodeId → Key → Mutation → Prop} {t t' : Tick} {p q : PartitionId}
  {h g : NodeId} {answered : List ℕ}

/-- A batch timed out. -/
def Trace.timeout : Trace → Bool
  | .timedOut _ _ _ _ => true
  | _ => false

/-- **One batch at a time**: a batch not yet answered is the last one of
its recipient, which waits for it; and a recipient waits for no other. -/
structure Outstanding (answered : List ℕ) (sync : PartitionId → NodeId → Option SyncState)
    (sent : List Sent) (nodes : Map NodeId Node) : Prop where
  known : ∀ i ∈ answered, i < sent.length
  last : ∀ i b, sent[i]? = some b → i ∉ answered →
    ∃ st, sync b.partition b.recipient = some st ∧ st.confirmed = false ∧
      (lastSent sent b.partition b.recipient).map Prod.snd = some i
  waiting : ∀ p h st b i, sync p h = some st → st.confirmed = false →
    lastSent sent p h = some (b, i) → i ∉ answered
  connected : ∀ p h st, sync p h = some st → h ∈ nodes

/-- Confirmed states may go. -/
theorem Outstanding.shrink {sync sync' : PartitionId → NodeId → Option SyncState}
    {sent : List Sent} {nodes : Map NodeId Node} (ho : Outstanding answered sync sent nodes)
    (hsub : ∀ p h st, sync' p h = some st → sync p h = some st)
    (hkeep : ∀ p h st, sync p h = some st → st.confirmed = false → sync' p h = some st) :
    Outstanding answered sync' sent nodes where
  known := ho.known
  last := by
    intro i b hb hi
    obtain ⟨st, hst, hc, hl⟩ := ho.last i b hb hi
    exact ⟨st, hkeep _ _ st hst hc, hc, hl⟩
  waiting := fun p h st b i hst => ho.waiting p h st b i (hsub p h st hst)
  connected := fun p h st hst => ho.connected p h st (hsub p h st hst)

def Tick.Outstanding (answered : List ℕ) (t : Tick) : Prop :=
  Worker.Outstanding answered t.syncState t.sent t.state.nodes

/-- **A round keeps one batch at a time**, if none has timed out. -/
theorem Tick.Outstanding.round {result : Bool} (ho : t.Outstanding answered)
    (hh : h ∈ t.state.nodes) (hframe : Frame p h t t') (hout : Outcome (has h) p h t t' result)
    (hquiet : ∀ e ∈ t'.trace, e.timeout = false) : t'.Outstanding answered := by
  -- where nothing is sent, no state changes
  have hsame : t'.sent = t.sent → t'.syncState p h = t.syncState p h → t'.Outstanding answered := by
    intro hsent hsync
    have hall : ∀ q g, t'.syncState q g = t.syncState q g := by
      intro q g
      by_cases heq : q = p ∧ g = h
      · rw [heq.1, heq.2]
        exact hsync
      · exact hframe.others q g heq
    unfold Tick.Outstanding
    rw [hsent, hframe.nodes]
    exact Worker.Outstanding.shrink ho (fun q g st hst => by rwa [hall] at hst)
      fun q g st hst _ => by rwa [hall]
  cases hout with
  | waits st hst hconfirmed hsent hsync => exact hsame hsent hsync
  | writing n hn hconfirmed hsent hsync => exact hsame hsent hsync
  | emptied n hn hstore hst hsent hsync => exact hsame hsent hsync
  | empty hst hsent hsync hnone => exact hsame hsent (hsync.trans hst.symm)
  | copied n st hst hconfirmed hsent hsync hdone hstore hgap =>
    exact hsame hsent (hsync.trans hst.symm)
  | sends b st hb hproper hsent hsync hconfirmed hgood hbefore =>
    -- the recipient was not waiting, so it had no batch unanswered
    have hidle : ∀ st₀, t.syncState p h = some st₀ → st₀.confirmed = true := by
      intro st₀ hst₀
      rcases hbefore st₀ hst₀ with hc | ⟨phase, journal, hmem⟩
      · exact hc
      · have := hquiet _ hmem
        cases this
    have hnew : t.sent.length ∉ answered := fun hin => absurd (ho.known _ hin) (lt_irrefl _)
    have hlast : lastSent (t.sent ++ [b]) p h = some (b, t.sent.length) := by
      rw [lastSent_append, if_pos hb]
    unfold Tick.Outstanding
    rw [hsent, hframe.nodes]
    refine ⟨fun i hi => ?_, fun i b' hb' hi => ?_, fun q g st' b' i hst' hc hl => ?_,
      fun q g st' hst' => ?_⟩
    · rw [List.length_append]
      exact Nat.lt_add_right _ (ho.known i hi)
    · by_cases hlt : i < t.sent.length
      · rw [List.getElem?_append_left hlt] at hb'
        obtain ⟨st', hst', hc', hl'⟩ := ho.last i b' hb' hi
        have hne : ¬ (b'.partition = p ∧ b'.recipient = h) := by
          rintro ⟨hp, hr⟩
          rw [hp, hr] at hst'
          rw [hidle st' hst'] at hc'
          cases hc'
        refine ⟨st', ?_, hc', ?_⟩
        · rw [hframe.others _ _ hne]
          exact hst'
        · rw [lastSent_append_of_ne hb hne]
          exact hl'
      · have hi' : i = t.sent.length := by
          have := (List.getElem?_eq_some_iff.mp hb').1
          rw [List.length_append, List.length_singleton] at this
          omega
        subst hi'
        rw [List.getElem?_append_right le_rfl, Nat.sub_self] at hb'
        cases hb'
        rw [hb.1, hb.2]
        exact ⟨st, hsync, hconfirmed, by rw [hlast]; rfl⟩
    · by_cases heq : q = p ∧ g = h
      · rw [heq.1, heq.2, hlast] at hl
        cases hl
        exact hnew
      · rw [hframe.others q g heq] at hst'
        rw [lastSent_append_of_ne hb heq] at hl
        exact ho.waiting q g st' b' i hst' hc hl
    · by_cases heq : q = p ∧ g = h
      · rw [heq.2]
        exact hh
      · rw [hframe.others q g heq] at hst'
        exact ho.connected q g st' hst'

/-- Leaving keeps the recipients that are connected, which all are. -/
theorem Tick.Outstanding.move (ho : t.Outstanding answered) (hm : Move has me t t')
    (hquiet : ∀ e ∈ t'.trace, e.timeout = false) : t'.Outstanding answered := by
  cases hm with
  | touch p =>
    exact Worker.Outstanding.shrink ho (fun q g st hst => by rwa [syncState_touch] at hst)
      fun q g st hst _ => by rwa [syncState_touch]
  | round _ p h hh hframe hout => exact ho.round hh hframe hout hquiet
  | complete t' p h hh hframe hout =>
    have hround := ho.round hh hframe hout fun e he => hquiet e (List.mem_append_left _ he)
    have hnodes :
        (recordCompletedSync me p h (t'.log (.completed p h (t'.records p)))).state.nodes =
          t'.state.nodes := by
      unfold recordCompletedSync
      dsimp only
      split <;> rfl
    unfold Tick.Outstanding
    rw [syncState_recordCompletedSync, hnodes]
    exact hround
  | leave p =>
    refine Worker.Outstanding.shrink ho (fun q g st hst => ?_) fun q g st hst _ => ?_
    · rw [syncState_retainRecipients] at hst
      split at hst
      · exact (Option.filter_eq_some_iff.mp hst).1
      · exact hst
    · rw [syncState_retainRecipients]
      split
      · exact Option.filter_eq_some_iff.mpr ⟨hst, decide_eq_true (ho.connected q g st hst)⟩
      · exact hst
  | settle p =>
    refine Worker.Outstanding.shrink ho (fun q g st hst => ?_) fun q g st hst hc => ?_
    · rw [syncState_retainRecipients] at hst
      split at hst
      · exact (Option.filter_eq_some_iff.mp hst).1
      · exact hst
    · rw [syncState_retainRecipients]
      split
      · exact Option.filter_eq_some_iff.mpr ⟨hst, by rw [hc]; rfl⟩
      · exact hst
  | interleave => exact ho
  | prune p through hthrough => exact ho
  | remove p hnone hown => exact ho
  | forget p hnone =>
    refine Worker.Outstanding.shrink ho (fun q g st hst => syncState_erase_subset hst)
      fun q g st hst _ => ?_
    have hne : p ≠ q := fun heq => by
      rw [← heq, hnone g] at hst
      cases hst
    simp only [Tick.syncState, Std.ExtTreeMap.getElem?_erase, compare_eq_iff_eq, if_neg hne]
    exact hst

/-- **A tick keeps one batch at a time**, if none times out in it. -/
theorem outstanding_moves (hs : t.Sound has) (ho : t.Outstanding answered)
    (hm : Moves has me t t') (hquiet : ∀ e ∈ t'.trace, e.timeout = false) :
    t'.Outstanding answered := by
  refine moves_inv (I := fun t => (∀ e ∈ t.trace, e.timeout = false) → t.Outstanding answered)
    (fun t t' _ hI hmove hq => ?_) hs (fun _ => ho) hm hquiet
  exact (hI fun e he => hq e ((trace_move hmove).subset he)).move hmove hq

/-- The batch an action answers. -/
def Action.answers : Action → Option ℕ
  | .respond i _ => some i
  | _ => none

namespace World

variable {w : World} {a : Action} {trace : List Trace}

/-- **An orderly step**: it answers no batch again, no batch times out in
its tick, and the recipients under way are connected when that begins. -/
structure Orderly (me : Me) (w : World) (a : Action) (trace : List Trace) : Prop where
  once : ∀ i ∈ a.answers, i ∉ w.answered
  quiet : ∀ e ∈ trace, e.timeout = false
  kept : ∀ e ∈ w.state.sync.toList, ∀ h ∈ e.2.keys, h ∈ (w.receive me a).state.nodes

instance (w : World) (a : Action) (trace : List Trace) : Decidable (Orderly me w a trace) :=
  decidable_of_iff ((∀ i ∈ a.answers, i ∉ w.answered) ∧ (∀ e ∈ trace, e.timeout = false) ∧
      ∀ e ∈ w.state.sync.toList, ∀ h ∈ e.2.keys, h ∈ (w.receive me a).state.nodes)
    ⟨fun ⟨h₁, h₂, h₃⟩ => ⟨h₁, h₂, h₃⟩, fun ⟨h₁, h₂, h₃⟩ => ⟨h₁, h₂, h₃⟩⟩

/-- A world with one batch at a time. -/
def Outstanding (w : World) : Prop :=
  Worker.Outstanding w.answered w.syncState w.sent w.state.nodes

theorem Orderly.connected {st : SyncState} (ha : Orderly me w a trace)
    (hst : w.syncState p h = some st) : h ∈ (w.receive me a).state.nodes := by
  obtain ⟨states, hstates, hget⟩ := Option.bind_eq_some_iff.mp hst
  refine ha.kept (p, states) (Map.mem_toList.mpr hstates) h ?_
  rw [Std.ExtTreeMap.mem_keys, Std.ExtTreeMap.mem_iff_isSome_getElem?, hget]
  rfl

/-- A step that answers nothing. -/
theorem Outstanding.unanswered (ho : w.Outstanding) (ha : Orderly me w a trace)
    (hsync : (w.receive me a).syncState = w.syncState) (hsent : (w.receive me a).sent = w.sent)
    (hanswered : (w.receive me a).answered = w.answered) : (w.receive me a).Outstanding := by
  unfold Outstanding
  rw [hsync, hsent, hanswered]
  exact ⟨ho.known, ho.last, ho.waiting, fun p h st hst => ha.connected hst⟩

/-- An answer to the one batch its recipient waits for. -/
theorem outstanding_respond {b : Sent} {i : ℕ} {env : Env} (hs : w.Sound) (ho : w.Outstanding)
    (ha : Orderly me w (.respond i env) trace) (hi : i ∈ w.delivered)
    (hb : w.sent[i]? = some b) : (w.receive me (.respond i env)).Outstanding := by
  have heq : w.receive me (.respond i env) =
      { w with
        state := handleSyncBatchResponse w.state (maxAppliedKeys b.records) b.recipient
        answered := w.answered ++ [i] } := by
    simp only [receive, hb, if_pos hi]
  have hfresh : i ∉ w.answered := ha.once i rfl
  obtain ⟨st, hst, hunconfirmed, hlast⟩ := ho.last i b hb hfresh
  -- the batch answered is the one the state is about
  obtain ⟨b', j, hl, hg⟩ := hs.sound.good _ _ st hst
  have hj : j = i := by simpa [hl] using hlast
  have hb' : w.sent[i]? = some b' := hj ▸ (lastSent_spec hl).1
  rw [hb] at hb'
  cases hb'
  have hsync : ∀ q g, (w.receive me (.respond i env)).syncState q g =
      if q = b.partition ∧ g = b.recipient then (w.syncState q g).map (confirm st.currMaxKey)
      else w.syncState q g := by
    intro q g
    rw [heq]
    exact sync_answer (hs.sound.proper b (List.mem_of_getElem? hb)) hg.answer
  have hsent : (w.receive me (.respond i env)).sent = w.sent := by rw [heq]
  have hanswered : (w.receive me (.respond i env)).answered = w.answered ++ [i] := by rw [heq]
  unfold Outstanding
  rw [hsent, hanswered]
  refine ⟨fun j hj => ?_, fun j b' hb' hj => ?_, fun q g st' b' j hst' hc hl' => ?_,
    fun q g st' hst' => ?_⟩
  · rcases List.mem_append.mp hj with hj | hj
    · exact ho.known j hj
    · rw [List.mem_singleton.mp hj]
      exact (List.getElem?_eq_some_iff.mp hb).1
  · rw [List.mem_append, List.mem_singleton, not_or] at hj
    obtain ⟨st', hst', hc', hl'⟩ := ho.last j b' hb' hj.1
    have hne : ¬ (b'.partition = b.partition ∧ b'.recipient = b.recipient) := by
      rintro ⟨hp, hr⟩
      rw [hp, hr, hlast] at hl'
      exact hj.2 (Option.some_inj.mp hl').symm
    refine ⟨st', ?_, hc', hl'⟩
    rw [hsync, if_neg hne]
    exact hst'
  · rw [hsync] at hst'
    by_cases heq' : q = b.partition ∧ g = b.recipient
    · -- the state answered is confirmed
      rw [if_pos heq', heq'.1, heq'.2, hst, Option.map_some] at hst'
      cases hst'
      simp [confirm] at hc
    · rw [if_neg heq'] at hst'
      rw [List.mem_append, List.mem_singleton, not_or]
      refine ⟨ho.waiting q g st' b' j hst' hc hl', fun hji => heq' ?_⟩
      obtain ⟨hget, hp, hr⟩ := lastSent_spec hl'
      rw [hji, hb] at hget
      cases hget
      exact ⟨hp.symm, hr.symm⟩
  · rw [hsync] at hst'
    split at hst'
    · obtain ⟨st₀, hst₀, -⟩ := Option.map_eq_some_iff.mp hst'
      exact ha.connected hst₀
    · exact ha.connected hst'

theorem outstanding_receive (hs : w.Sound) (ho : w.Outstanding) (ha : Orderly me w a trace) :
    (w.receive me a).Outstanding := by
  cases a with
  | store event => exact ho.unanswered ha rfl rfl rfl
  | tick env => exact ho.unanswered ha rfl rfl rfl
  | message msg env =>
    by_cases hmsg : ∃ id keys, msg = .syncBatchResponse id keys
    · obtain ⟨id, keys, rfl⟩ := hmsg
      exact ho.unanswered ha rfl rfl rfl
    · have hne : ∀ id keys, msg ≠ .syncBatchResponse id keys :=
        fun id keys heq => hmsg ⟨id, keys, heq⟩
      have heq := receive_message me w env hne
      refine ho.unanswered ha ?_ (by rw [heq]) (by rw [heq])
      rw [heq]
      funext p h
      rw [syncState, sync_handle hne]
      rfl
  | deliver i =>
    refine ho.unanswered ha ?_ ?_ ?_
    all_goals
      simp only [receive]
      split <;> rfl
  | respond i env =>
    cases hb : w.sent[i]? with
    | none =>
      have heq : w.receive me (.respond i env) = w := by simp only [receive, hb]
      exact ho.unanswered ha (by rw [heq]) (by rw [heq]) (by rw [heq])
    | some b =>
      by_cases hi : i ∈ w.delivered
      · exact outstanding_respond hs ho ha hi hb
      · have heq : w.receive me (.respond i env) = w := by simp only [receive, hb, if_neg hi]
        exact ho.unanswered ha (by rw [heq]) (by rw [heq]) (by rw [heq])
  | peer h event => exact ho.unanswered ha rfl rfl rfl

/-- An orderly step is careful. -/
theorem Orderly.careful (ho : w.Outstanding) (ha : Orderly me w a trace) : w.Careful a trace := by
  constructor
  · cases a with
    | respond i env =>
      intro b hb st _ _ _
      obtain ⟨-, -, -, hlast⟩ := ho.last i b hb (ha.once i rfl)
      exact hlast
    | _ => trivial
  · intro e he
    have hquiet := ha.quiet e he
    cases e with
    | timedOut _ _ _ _ => cases hquiet
    | _ => rfl

theorem outstanding_finish {env : Env} (hs : w.Sound) (ho : w.Outstanding)
    (hshort : ShortRanges (w.ticked me env).trace)
    (hquiet : ∀ e ∈ (w.ticked me env).trace, e.timeout = false) :
    (w.finish me env).Outstanding := by
  refine outstanding_moves (hs.ticking env) ?_ (hs.moves_ticked hshort) hquiet
  have hsync : ∀ p h st, (heartbeats w.state me env.heartbeatNow).1.sync[p]?.bind
      (fun states => states[h]?) = some st → w.syncState p h = some st := by
    intro p h st hst
    rw [sync_heartbeats] at hst
    exact hst
  refine ⟨ho.known, fun i b hb hi => ?_,
    fun p h st b i hst => ho.waiting p h st b i (hsync p h st hst),
    fun p h st hst => mem_nodes_heartbeats.mpr (ho.connected p h st (hsync p h st hst))⟩
  obtain ⟨st, hst, hc, hl⟩ := ho.last i b hb hi
  refine ⟨st, ?_, hc, hl⟩
  rw [Tick.syncState, sync_heartbeats]
  exact hst

/-- **An orderly step keeps the world sound, with one batch at a time.** -/
theorem orderly_step (hs : w.Sound) (ho : w.Outstanding) (ha : Orderly me w a (w.traceOf me a)) :
    (w.step me a).Sound ∧ (w.step me a).Outstanding := by
  have hcareful := ha.careful ho
  refine ⟨sound_step hs hcareful, ?_⟩
  have hr := outstanding_receive hs ho ha
  rcases step_eq me w a with ⟨-, heq, -⟩ | ⟨env, -, heq, htrace⟩
  · rw [heq]
    exact hr
  · have hquiet := ha.quiet
    have hshort := hcareful.short
    rw [htrace] at hquiet hshort
    rw [heq]
    exact outstanding_finish (sound_receive me hs hcareful.matched) hr hshort hquiet

theorem outstanding_start (now : ℕ) : (start me now).Outstanding := by
  refine ⟨fun i hi => ?_, fun i b hb _ => ?_, fun p h st b i hst => ?_, fun p h st hst => ?_⟩
  · cases hi
  · cases hb
  · cases hst
  · cases hst

theorem orderly_run {now : ℕ} {actions : List Action}
    (hok : (start me now).Guarded me (Orderly me) actions) :
    (run (step me) (start me now) actions).Sound ∧
      (run (step me) (start me now) actions).Outstanding :=
  run_inv (I := fun w => w.Sound ∧ w.Outstanding) (fun _ _ hw ha => orderly_step hw.1 hw.2 ha)
    ⟨sound_start now, outstanding_start now⟩ hok

/-- **Every record of a partition under way is accounted for**: the
recipient has applied a mutation of its key at least as recent, or the
batch outstanding, the only one unanswered, carries it, or the snapshot
has not reached its key, or an entry of the journal after the base names
it. -/
def Covered (w : World) : Prop :=
  ∀ p h st, w.syncState p h = some st → ∃ b i, lastSent w.sent p h = some (b, i) ∧
    (∀ j b', w.sent[j]? = some b' → b'.partition = p ∧ b'.recipient = h → j ∉ w.answered → j = i) ∧
    ∀ (k : Key) (m : Mutation), (w.store.partition p).records[k]? = some m →
      w.Has h k m ∨
      (st.confirmed = false ∧ i ∉ w.answered ∧ mutationToDomain k m ∈ b.records) ∨
      (∃ revision, st.phase = .snapshot revision ∧ st.currMaxKey < k) ∨
      ∃ r, st.phase.pendingRevision < r ∧ (w.store.partition p).changes[r]? = some k

theorem covered_of_sound (hs : w.Sound) (ho : w.Outstanding) : w.Covered := by
  intro p h st hst
  obtain ⟨b, i, hl, hg⟩ := hs.sound.good p h st hst
  refine ⟨b, i, hl, fun j b' hb' hpair hj => ?_, fun k m hk => ?_⟩
  · obtain ⟨st', -, -, hlast⟩ := ho.last j b' hb' hj
    rw [hpair.1, hpair.2, hl] at hlast
    exact (Option.some_inj.mp hlast).symm
  · rcases hg.covered k m hk with hhas | hcarries | hunread | hjournal
    · exact Or.inl hhas
    · by_cases hc : st.confirmed = true
      · exact Or.inl (hg.arrived hc k m hcarries)
      · rw [Bool.not_eq_true] at hc
        exact Or.inr (Or.inl ⟨hc, ho.waiting p h st b i hst hc hl, hcarries⟩)
    · cases hphase : st.phase with
      | snapshot revision =>
        simp only [SyncState.Unread, hphase] at hunread
        exact Or.inr (Or.inr (Or.inl ⟨revision, rfl, hunread⟩))
      | changes c pending =>
        simp only [SyncState.Unread, hphase] at hunread
        exact hunread.elim
    · exact Or.inr (Or.inr (Or.inr hjournal))

/-- **Snapshot and journal cover every record**, in every state an orderly
run reaches. -/
theorem coverage_of_orderly {now : ℕ} {actions : List Action}
    (hok : (start me now).Guarded me (Orderly me) actions) :
    (run (step me) (start me now) actions).Covered := by
  obtain ⟨hs, ho⟩ := orderly_run hok
  exact covered_of_sound hs ho

/-- An insert behind the cursor, while the first batch is out. -/
theorem coverage_of_orderly_insert :
    (start sender 0).Guarded sender (Orderly sender)
      (handoverStarts ++ [.store (.put ⟨4096⟩ ⟨0, 2, [2]⟩), .deliver 0, .respond 0 (during [])]) ∧
    (run (step sender) (start sender 0)
      (handoverStarts ++ [.store (.put ⟨4096⟩ ⟨0, 2, [2]⟩), .deliver 0,
        .respond 0 (during [])])).Covered := by
  have hok : (start sender 0).Guarded sender (Orderly sender)
      (handoverStarts ++ [.store (.put ⟨4096⟩ ⟨0, 2, [2]⟩), .deliver 0, .respond 0 (during [])]) :=
    guarded_of_first (by decide +kernel)
  exact ⟨hok, coverage_of_orderly hok⟩

/-! ### A recipient that connects again -/

/-- The batch an action delivers. -/
def delivers : Action → Option ℕ
  | .deliver i => some i
  | _ => none

/-- No batch is delivered or answered twice, and none times out. -/
structure Single (w : World) (a : Action) (trace : List Trace) : Prop where
  delivered : ∀ i ∈ delivers a, i ∉ w.delivered
  once : ∀ i ∈ a.answers, i ∉ w.answered
  quiet : ∀ e ∈ trace, e.timeout = false

instance (w : World) (a : Action) (trace : List Trace) : Decidable (Single w a trace) :=
  decidable_of_iff ((∀ i ∈ delivers a, i ∉ w.delivered) ∧ (∀ i ∈ a.answers, i ∉ w.answered) ∧
      ∀ e ∈ trace, e.timeout = false)
    ⟨fun ⟨h₁, h₂, h₃⟩ => ⟨h₁, h₂, h₃⟩, fun ⟨h₁, h₂, h₃⟩ => ⟨h₁, h₂, h₃⟩⟩

/-- Every record of a partition under way is applied, in the batch that is
waited for, ahead of the cursor, or in the journal after the base. -/
def Accounted (w : World) : Prop :=
  ∀ p h st, w.syncState p h = some st → ∀ (k : Key) (m : Mutation),
    (w.store.partition p).records[k]? = some m →
      w.Has h k m ∨
      (st.confirmed = false ∧ ∃ b ∈ lastSent w.sent p h, mutationToDomain k m ∈ b.1.records) ∨
      (∃ revision, st.phase = .snapshot revision ∧ st.currMaxKey < k) ∨
      ∃ r, st.phase.pendingRevision < r ∧ (w.store.partition p).changes[r]? = some k

/-- The first batch is under way with version 1 of the key when version 2
is stored and worker 2 connects again: a second batch follows. Another key
is stored, and the first batch arrives and is answered. -/
def reconnects : List Action :=
  [.store (.put ⟨0⟩ ⟨0, 1, [1]⟩),
    .message (.newConnection (some ⟨2⟩) "worker-2" 9002 false) (during []),
    .message (.clusterState ⟨1, ⟨9⟩, [], widened⟩) (during []), .store (.put ⟨0⟩ ⟨0, 2, [2]⟩),
    .message (.nodeDisconnected ⟨2⟩) (during []),
    .message (.newConnection (some ⟨2⟩) "worker-2" 9002 false) (during []),
    .store (.put ⟨4096⟩ ⟨0, 3, [3]⟩), .deliver 0, .respond 0 (during [])]

theorem onlyFirst_reconnects :
    Along (firstStep sender) (OnlyFirst sender) (start sender 0) reconnects := by
  decide +kernel

/-- **The answer to an abandoned batch confirms the one after it.** The
two have the same greatest key. Version 2 has not been delivered, and it
is not in the batch that is waited for now, nor ahead of the cursor, nor
in the journal after the base. -/
theorem reconnection_uncovers :
    (start sender 0).Guarded sender Single reconnects ∧
      ¬ (run (step sender) (start sender 0) reconnects).Accounted := by
  refine ⟨guarded_of_first (by decide +kernel), ?_⟩
  rw [run_of_first onlyFirst_reconnects]
  intro haccounted
  have hsync : (run (firstStep sender) (start sender 0) reconnects).syncState ⟨0⟩ ⟨2⟩ =
      some ⟨some ⟨0⟩, ⟨4096⟩, .snapshot 2, false, 0⟩ := by decide +kernel
  have hstored : ((run (firstStep sender) (start sender 0) reconnects).store.partition
      ⟨0⟩).records[(⟨0⟩ : Key)]? = some (.put ⟨0, 2, [2]⟩) := by decide +kernel
  rcases haccounted ⟨0⟩ ⟨2⟩ _ hsync ⟨0⟩ _ hstored with ⟨record, hrecord, -, hversion⟩ |
    ⟨-, b, hb, hin⟩ | ⟨revision, hphase, hahead⟩ | ⟨r, hbase, hentry⟩
  · -- the one record applied is of version 1
    have happlied : (run (firstStep sender) (start sender 0) reconnects).applied =
        [(⟨2⟩, ⟨⟨0⟩, [1], 0, 1, false⟩)] := by decide +kernel
    rw [happlied, List.mem_singleton] at hrecord
    cases hrecord
    exact absurd hversion (by decide)
  · -- the batch waited for carries the other key
    have hlast : (lastSent (run (firstStep sender) (start sender 0) reconnects).sent ⟨0⟩
        ⟨2⟩).map (fun e => e.1.records) = some [⟨⟨4096⟩, [3], 0, 3, false⟩] := by decide +kernel
    rw [hb, Option.map_some, Option.some_inj] at hlast
    rw [hlast, List.mem_singleton] at hin
    cases hin
  · exact absurd hahead (by decide)
  · -- and so does the one entry of the journal
    have hchanges : ((run (firstStep sender) (start sender 0) reconnects).store.partition
        ⟨0⟩).changes.toList = [(3, ⟨4096⟩)] := by decide +kernel
    have hmem := Map.mem_toList.mpr hentry
    rw [hchanges, List.mem_singleton] at hmem
    cases hmem

end World

end Worker

end NoSqlStore
