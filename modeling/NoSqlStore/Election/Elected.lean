import NoSqlStore.Election.Tables
import NoSqlStore.Election.Voter
/-!
# Every leader was elected

Agreement needs a fixed membership. This does not: managers join and leave
as they please, and still nobody records a leader that was not elected. An
election is one step of the run, the delivery of the last vote for the
one election the winner runs, and the voters counted then are the other
managers it knows, of whom there is at least one (`Elects`). Whatever is
told of a decision afterwards, by a `Leader` message or by a cluster
state, goes back to that step, and each vote to a step of its voter
(`leaders_are_elected`). So managers that have never met elect nobody,
compute no table and have nothing to tell (`managers_apart_never_lead`).
-/

namespace NoSqlStore

namespace Election

open Manager Runs

variable {s : Service} {msg : ManagerProtocol} {r : Readings} {c : Cluster} {m X : NodeId}
  {e ts : ℕ} {a : Action}

/-! ## The step that elects -/

/-- **The step elects `X`** for epoch `e`: the answer arrives that completes
the one election it runs, which is for that epoch; its approvers are then
the other managers it knows, all of them, of whom there is one at least. -/
structure Elects (c : Cluster) (a : Action) (X : NodeId) (e ts : ℕ) : Prop where
  actor : a.actor = X
  completes : ∃ voter approvers, a.input.1 = some (.voteResponse voter X ts) ∧
    (c.managers X).elections = single e (.mine ts approvers) ∧
    ∀ Z, Z ∈ insert voter approvers ↔ Z ≠ X ∧ Knows (c.managers X).state Z
  known : ∃ Z, Z ≠ X ∧ Knows (c.managers X).state Z
  approved : ∀ Z, Z ≠ X → Knows (c.managers X).state Z → Approved c.sent Z X ts
  records : Records (c.act a) X e X

/-! ## The invariant of a free membership -/

/-- **The approvers counted have approved**, and so has this manager where
it takes part. A manager with nobody to ask calls elections too, so an
election need not have been asked for. -/
inductive Backed (sent : List Packet) (me : NodeId) : Elections → Prop
  | none : Backed sent me ∅
  | mine (e ts : ℕ) (approvers : Finset NodeId) (happ : ∀ y ∈ approvers, Approved sent y me ts) :
      Backed sent me (single e (.mine ts approvers))
  | other (e ts : ℕ) (cand : NodeId) (happ : Approved sent me cand ts) :
      Backed sent me (single e (.other ts cand))

theorem Backed.mono {sent sent' : List Packet} {elections : Elections} (hsub : sent ⊆ sent')
    (h : Backed sent X elections) : Backed sent' X elections := by
  cases h with
  | none => exact .none
  | mine e ts approvers happ => exact .mine e ts approvers fun y hy => (happ y hy).mono hsub
  | other e ts cand happ => exact .other e ts cand (happ.mono hsub)

/-- A vote on record has been given. -/
theorem Backed.approved_of_vote {sent : List Packet} {elections : Elections} {cand : NodeId}
    (h : Backed sent X elections) (hvote : elections[e]? = some (.other ts cand)) :
    Approved sent X cand ts := by
  cases h with
  | none => cases hvote
  | mine => cases (getElem?_single hvote).2
  | other e' ts' cand' happ =>
    cases (getElem?_single hvote).2
    exact happ

/-- The election a vote counts for. -/
theorem Backed.of_approved {sent : List Packet} {elections : Elections} {me : Me} {X : NodeId}
    {approvers : Finset NodeId} (h : Backed sent me.id elections)
    (happ : approvedElection elections me X ts = some (e, approvers)) :
    elections = single e (.mine ts approvers) ∧ ∀ y ∈ approvers, Approved sent y me.id ts := by
  have hlast := lastKeyValue_of_approved happ
  cases h with
  | none => cases hlast
  | other => cases hlast
  | mine e' ts' approvers' hall =>
    cases hlast
    exact ⟨rfl, hall⟩

theorem backed_handle {sent sent' : List Packet} (h : Backed sent s.me.id s.elections)
    (hmsg : Legit ∅ sent msg) (hsub : sent ⊆ sent')
    (hvotes : ∀ dst cand ts, .voteResponse dst cand ts ∈ (s.handle msg r).2 →
      Approved sent' s.me.id cand ts) : Backed sent' s.me.id (s.handle msg r).1.elections := by
  have hkept := h.mono hsub
  cases msg with
  | voteRequest id epoch ts =>
    simp only [Service.handle, handleVoteRequest] at hvotes ⊢
    split
    · rename_i hnewer
      split
      · rename_i hreplaces
        exact .other epoch ts id (hvotes id id ts (by simp [hnewer, hreplaces]))
      · split <;> exact hkept
    · exact hkept
  | voteResponse id leaderId ts =>
    simp only [Service.handle, handleVoteResponse]
    split
    · rename_i epoch approvers happ
      split
      · exact .none
      · obtain ⟨hone, hall⟩ := hkept.of_approved happ
        obtain rfl := approvedElection_leader happ
        rw [hone, insert_single]
        refine .mine epoch ts _ fun y hy => ?_
        rcases Finset.mem_insert.1 hy with rfl | hy
        · exact Approved.mono hsub hmsg
        · exact hall y hy
    · split <;> exact hkept
  | leader id epoch ts =>
    simp only [Service.handle, handleLeader]
    split
    · split
      · split <;> exact .none
      · exact .none
    · exact hkept
  | _ => exact hkept

theorem backed_tick {sent : List Packet} (h : Backed sent s.me.id s.elections) :
    Backed sent s.me.id (s.tick r).1.elections := by
  show Backed sent s.me.id (startElectionIfNeeded (heartbeats s.state s.me r.heartbeatNow
    r.heartbeatRandom).1 s.elections s.me r.electionNow r.electionRandom).1
  unfold startElectionIfNeeded
  split
  · split
    · exact .mine _ _ ∅ fun y hy => absurd hy (Finset.notMem_empty y)
    · exact h
  · exact h

/-- **What is on record goes back to votes that were given.** -/
structure OpenInv (c : Cluster) : Prop where
  me : ∀ m, (c.managers m).me.id = m
  elections : ∀ m, Backed c.sent m (c.managers m).elections
  leader : ∀ m l, (c.managers m).state.electedLeaderId = some l →
    ∃ e ts, (c.managers m).state.epoch = some e ∧ Won c.sent l e ts
  legit : ∀ dst msg, (dst, msg) ∈ c.sent → Legit ∅ c.sent msg

theorem openInv_booted (hstart : c.Booted) : OpenInv c := by
  have hinit : ∀ m, (c.managers m).me.id = m ∧ (c.managers m).elections = ∅ ∧
      (c.managers m).state.electedLeaderId = none := by
    intro m
    obtain ⟨me, hostPort, now, rfl, heq⟩ := hstart.managers m
    rw [heq]
    unfold Service.init
    cases hostPort <;> exact ⟨rfl, rfl, rfl⟩
  refine ⟨fun m => (hinit m).1, fun m => (hinit m).2.1 ▸ .none, fun m l hl => ?_,
    fun dst msg hin => ?_⟩
  · rw [(hinit m).2.2] at hl
    cases hl
  · rw [hstart.sent] at hin
    cases hin

/-- Whoever needs all the others and has one approval knows another. -/
theorem known_of_unanimous {state : State} {me : Me} {voter : NodeId} {approvers : Finset NodeId}
    (h : unanimous state me (insert voter approvers) = true) :
    ∃ Z, Z ≠ me.id ∧ Knows state Z :=
  ⟨voter, (unanimous_iff.1 h voter).1 (Finset.mem_insert_self voter approvers)⟩

/-- What reaches a manager is borne out by what was sent. -/
theorem legit_of_input (hinv : OpenInv c) (hopen : Open c a) (hmsg : a.input.1 = some msg) :
    Legit ∅ c.sent msg := by
  cases a with
  | deliver m msg' r =>
    obtain rfl : msg' = msg := Option.some.inj hmsg
    exact hinv.legit m msg' (hopen.sent m msg' r rfl)
  | outside m msg' r =>
    obtain rfl : msg' = msg := Option.some.inj hmsg
    have hout := hopen.outside m msg' r rfl
    cases msg' with
    | newConnection => exact hout
    | nodeDisconnected id => exact Finset.notMem_empty id
    | heartbeat => trivial
    | getClusterState => trivial
    | removePartitionFromReplica => trivial
    | _ => exact hout.elim
  | tick m r => cases hmsg

/-! ## One step -/

/-- A turn before its tick: the message handled, if there is one. -/
def received (s : Service) (input : Option ManagerProtocol × Readings) :
    Service × List ManagerProtocol :=
  match input.1 with
  | some msg => s.handle msg input.2
  | none => (s, [])

theorem turn_received (input : Option ManagerProtocol × Readings) :
    s.turn input = ((received s input).1.tick input.2).1 := by
  unfold Service.turn received
  cases input.1 <;> rfl

theorem output_received (input : Option ManagerProtocol × Readings) :
    output s input = (received s input).2 ++ ((received s input).1.tick input.2).2 := by
  unfold output received
  cases input.1 <;> rfl

@[simp] theorem received_me (input : Option ManagerProtocol × Readings) :
    (received s input).1.me = s.me := by
  unfold received
  cases input.1 with
  | none => rfl
  | some msg => exact handle_me

/-- The manager that counts the last vote tells somebody. -/
theorem announces {voter : NodeId} {approvers : Finset NodeId}
    (happ : approvedElection s.elections s.me s.me.id ts = some (e, approvers))
    (hall : unanimous s.state s.me (insert voter approvers) = true) :
    ∃ key, .leader key e ts ∈ (s.handle (.voteResponse voter s.me.id ts) r).2 := by
  obtain ⟨Z, hne, hknown⟩ := known_of_unanimous hall
  have hother : Z ∈ s.state.otherNodes s.me := by
    obtain ⟨node, hnode, -⟩ := Option.map_eq_some_iff.1 hknown
    rw [State.otherNodes, List.mem_filter, Std.ExtTreeMap.mem_keys,
      Std.ExtTreeMap.mem_iff_isSome_getElem?, hnode]
    exact ⟨rfl, by simpa using hne⟩
  refine ⟨Z, ?_⟩
  simp only [Service.handle, handleVoteResponse, happ, hall, if_true]
  exact List.mem_map.2 ⟨Z, hother, rfl⟩

/-- **The leader on record after a message was won**, before it or by
it. -/
theorem leader_received (hinv : OpenInv c) (hopen : Open c a) {l : NodeId}
    (hl : (received (c.managers a.actor) a.input).1.state.electedLeaderId = some l) :
    ∃ e ts, (received (c.managers a.actor) a.input).1.state.epoch = some e ∧
      Won (c.act a).sent l e ts := by
  have hgrow := sent_subset_act c a
  have hbefore := hinv.leader a.actor
  cases hmsg : a.input.1 with
  | none =>
    simp only [received, hmsg] at hl ⊢
    obtain ⟨e, ts, he, hw⟩ := hbefore l hl
    exact ⟨e, ts, he, hw.mono hgrow⟩
  | some msg =>
    have hlegit := legit_of_input hinv hopen hmsg
    simp only [received, hmsg] at hl ⊢
    rcases handle_decision (c.managers a.actor) msg a.input.2 with ⟨hepoch, hsame | hnone⟩ |
      ⟨e, l', -, hsource, hepoch, hleader⟩ |
      ⟨voter, ts, e, approvers, rfl, happ, hall, hepoch, hleader⟩
    · obtain ⟨e, ts, he, hw⟩ := hbefore l (hsame ▸ hl)
      exact ⟨e, ts, hepoch.trans he, hw.mono hgrow⟩
    · rw [hnone] at hl
      cases hl
    · obtain rfl : l' = l := Option.some.inj (hleader.symm.trans hl)
      rcases hsource with ⟨ts, rfl⟩ | ⟨rcpt, st, rfl, rfl, rfl⟩
      · exact ⟨e, ts, hepoch, Won.mono hgrow hlegit⟩
      · obtain ⟨ts, hw⟩ := hlegit.1
        exact ⟨st.epoch, ts, hepoch, hw.mono hgrow⟩
    · -- The last vote is counted: the packets that tell of it are new.
      obtain rfl : (c.managers a.actor).me.id = l := Option.some.inj (hleader.symm.trans hl)
      obtain ⟨key, hkey⟩ := announces (r := a.input.2) happ hall
      refine ⟨e, ts, hepoch, won_apply.2 (Or.inr ⟨hinv.me a.actor, key, ?_⟩)⟩
      rw [output_received, received, hmsg]
      exact List.mem_append_left _ hkey

/-- The tick keeps the leader, or forgets it. -/
theorem leader_turn {l : NodeId} {input : Option ManagerProtocol × Readings}
    (hl : (s.turn input).state.electedLeaderId = some l) :
    (received s input).1.state.electedLeaderId = some l := by
  rw [turn_received] at hl
  rcases tick_leader (s := (received s input).1) input.2 with hsame | hnone
  · exact hsame ▸ hl
  · rw [hnone] at hl
    cases hl

/-- The approvers the actor counts after the step have approved. -/
theorem backed_act (hinv : OpenInv c) (hopen : Open c a) :
    Backed (c.act a).sent a.actor ((c.act a).managers a.actor).elections := by
  have hme := hinv.me a.actor
  have hgrow := sent_subset_act c a
  have hback : Backed c.sent (c.managers a.actor).me.id (c.managers a.actor).elections := by
    rw [hme]
    exact hinv.elections a.actor
  have hhandled : Backed (c.act a).sent (received (c.managers a.actor) a.input).1.me.id
      (received (c.managers a.actor) a.input).1.elections := by
    rw [received_me]
    cases hmsg : a.input.1 with
    | none =>
      simp only [received, hmsg]
      exact hback.mono hgrow
    | some msg =>
      simp only [received, hmsg]
      refine backed_handle hback (legit_of_input hinv hopen hmsg) hgrow fun dst cand ts ho => ?_
      refine approved_apply.2 (Or.inr ⟨hme, dst, ?_⟩)
      rw [output_received, received, hmsg]
      exact List.mem_append_left _ ho
  have hticked := backed_tick (r := a.input.2) hhandled
  rw [received_me, hme] at hticked
  rw [Cluster.act, managers_apply_self, turn_received]
  exact hticked

/-- **A snapshot is of the decision on record**, which has been won. -/
theorem won_of_snapshot (hinv : OpenInv c) (hopen : Open c a) {rcpt : NodeId} {st : ClusterState}
    (ho : .clusterState rcpt st ∈ output (c.managers a.actor) a.input) :
    ∃ ts, Won (c.act a).sent st.leaderId st.epoch ts := by
  rw [output_received, List.mem_append] at ho
  rcases ho with ho | ho
  · cases hmsg : a.input.1 with
    | none =>
      simp only [received, hmsg] at ho
      cases ho
    | some msg =>
      simp only [received, hmsg] at ho
      cases sends_of_handle ho with
      | answers _ _ hepoch hleader _ _ =>
      obtain ⟨e, ts, he, hw⟩ := hinv.leader a.actor _ hleader
      obtain rfl : st.epoch = e := Option.some.inj (hepoch.symm.trans he)
      exact ⟨ts, hw.mono (sent_subset_act c a)⟩
  · cases sends_of_tick ho with
    | tells _ _ hleads hepoch hleader _ _ =>
    obtain ⟨e, ts, he, hw⟩ := leader_received hinv hopen hleads
    rw [he] at hepoch
    rw [hleader, hepoch]
    exact ⟨ts, hw⟩

/-- **One step keeps the invariant.** -/
theorem OpenInv.act (hinv : OpenInv c) (hopen : Open c a) : OpenInv (c.act a) := by
  have hgrow := sent_subset_act c a
  refine ⟨fun n => ?_, fun n => ?_, fun n l hl => ?_, fun dst msg hin => ?_⟩
  · by_cases hn : n = a.actor
    · subst hn
      rw [Cluster.act, managers_apply_self, turn_me, hinv.me]
    · rw [Cluster.act, managers_apply_of_ne hn, hinv.me]
  · by_cases hn : n = a.actor
    · subst hn
      exact backed_act hinv hopen
    · rw [Cluster.act, managers_apply_of_ne hn]
      exact (hinv.elections n).mono hgrow
  · by_cases hn : n = a.actor
    · subst hn
      rw [Cluster.act, managers_apply_self] at hl ⊢
      obtain ⟨e, ts, he, hw⟩ := leader_received hinv hopen (leader_turn hl)
      exact ⟨e, ts, by rw [turn_received, tick_epoch, he], hw⟩
    · rw [Cluster.act, managers_apply_of_ne hn] at hl ⊢
      obtain ⟨e, ts, he, hw⟩ := hinv.leader n l hl
      exact ⟨e, ts, he, hw.mono hgrow⟩
  · have hin' := hin
    rw [Cluster.act, mem_sent_apply] at hin'
    rcases hin' with hold | ⟨o, ho, hroute⟩
    · exact (hinv.legit dst msg hold).mono hgrow
    · cases o with
      | clusterState rcpt st =>
        cases hroute
        exact ⟨won_of_snapshot hinv hopen ho,
          Or.inr fun n hn => absurd hn (Finset.notMem_empty n)⟩
      | newConnection => cases hroute
      | nodeDisconnected => cases hroute
      | voteRequest => cases hroute; exact ⟨_, hin⟩
      | voteResponse => cases hroute; exact ⟨_, hin⟩
      | leader => cases hroute; exact ⟨_, hin⟩
      | _ => cases hroute; trivial

/-- **What is won is won by a step that elects**, or has been before. -/
theorem elects_of_won (hinv : OpenInv c) (hopen : Open c a) (hw : Won (c.act a).sent X e ts) :
    Won c.sent X e ts ∨ Elects c a X e ts := by
  refine (won_apply.1 hw).imp_right ?_
  rintro ⟨rfl, dst, hout⟩
  rw [output_received, List.mem_append] at hout
  rcases hout with hout | hout
  · cases hmsg : a.input.1 with
    | none =>
      simp only [received, hmsg] at hout
      cases hout
    | some msg =>
      simp only [received, hmsg] at hout
      have hme := hinv.me a.actor
      cases sends_of_handle hout with
      | announces _ voter _ _ approvers hvote happ hall hepoch hleader =>
      subst hvote
      have hback : Backed c.sent (c.managers a.actor).me.id (c.managers a.actor).elections := by
        rw [hme]
        exact hinv.elections a.actor
      obtain ⟨hone, hall'⟩ := hback.of_approved happ
      have hknown := known_of_unanimous hall
      have hothers := unanimous_iff.1 hall
      have hvoter := legit_of_input hinv hopen hmsg
      rw [hme] at hknown hothers hall' hvoter
      refine ⟨rfl, ⟨voter, approvers, hme ▸ hmsg, hone, hothers⟩, hknown, fun Z hne hk => ?_, ?_⟩
      · rcases Finset.mem_insert.1 ((hothers Z).2 ⟨hne, hk⟩) with rfl | hZ
        · exact hvoter
        · exact hall' Z hZ
      · unfold Records
        rw [Cluster.act, managers_apply_self, turn_received]
        simp only [received, hmsg]
        refine ⟨(tick_epoch a.input.2).trans hepoch, ?_⟩
        simp only [Service.tick, workerPartitions_leader]
        rw [heartbeats_leader_of_me _ _ (by rw [handle_me]; exact hleader), handle_me, hme]
  · cases sends_of_tick hout

theorem openInv_run (hstart : c.Booted) {actions : List Action}
    (hok : Along Cluster.act Open c actions) : OpenInv (run Cluster.act c actions) :=
  run_inv (I := OpenInv) (fun _ _ hinv hopen => hinv.act hopen) (openInv_booted hstart) hok

/-- What a run has told of as won, one of its steps has won. -/
theorem elects_of_won_run (hstart : c.Booted) {actions : List Action}
    (hok : Along Cluster.act Open c actions) (hw : Won (run Cluster.act c actions).sent X e ts) :
    ∃ before a after, actions = before ++ a :: after ∧
      Elects (run Cluster.act c before) a X e ts := by
  have hnone : ¬ Won c.sent X e ts := by
    rintro ⟨dst, hin⟩
    rw [hstart.sent] at hin
    cases hin
  exact run_origin (I := OpenInv) (P := fun c => Won c.sent X e ts)
    (fun _ _ hinv hopen => hinv.act hopen) (fun _ _ hinv hopen h => elects_of_won hinv hopen h)
    (openInv_booted hstart) hnone hok hw

/-- Who has approved has voted, in a step of the run. -/
theorem voted_of_approved_run (hstart : c.Booted) {actions : List Action}
    (hok : Along Cluster.act Open c actions) {Z : NodeId}
    (h : Approved (run Cluster.act c actions).sent Z X ts) : ∃ e', Voted c actions Z X e' ts := by
  have hnone : ¬ Approved c.sent Z X ts := by
    rintro ⟨dst, hin⟩
    rw [hstart.sent] at hin
    cases hin
  obtain ⟨before, a, after, hsplit, e', hvotes⟩ := run_origin (I := OpenInv)
    (P := fun c => Approved c.sent Z X ts) (fun _ _ hinv hopen => hinv.act hopen)
    (fun _ _ hinv _ h => approved_act (fun _ _ _ => (hinv.elections Z).approved_of_vote) h)
    (openInv_booted hstart) hnone hok h
  exact ⟨e', before, a, after, hsplit, hvotes⟩

/-- **The cluster names `l` as the leader of epoch `e`**: a manager has it
on record, or a message that has been sent says so. -/
inductive Names (c : Cluster) (e : ℕ) (l : NodeId) : Prop
  | record (m : NodeId) (h : Records c m e l)
  | state (dst rcpt : NodeId) (st : ClusterState) (h : (dst, .clusterState rcpt st) ∈ c.sent)
      (epoch : st.epoch = e) (leader : st.leaderId = l)
  | message (dst : NodeId) (ts : ℕ) (h : (dst, .leader l e ts) ∈ c.sent)

theorem OpenInv.won_of_names (hinv : OpenInv c) {l : NodeId} (h : Names c e l) :
    ∃ ts, Won c.sent l e ts := by
  cases h with
  | record m hrecords =>
    obtain ⟨e', ts, he', hw⟩ := hinv.leader m l hrecords.2
    obtain rfl : e = e' := Option.some.inj (hrecords.1.symm.trans he')
    exact ⟨ts, hw⟩
  | state dst rcpt st hin hepoch hleader =>
    obtain ⟨ts, hw⟩ := (hinv.legit dst _ hin).1
    exact ⟨ts, hleader ▸ hepoch ▸ hw⟩
  | message dst ts hin => exact ⟨ts, dst, hin⟩

/-- **Every leader was elected.** In every run, with managers and workers
joining and leaving at will and messages delayed, reordered, duplicated
and lost, whoever is named as the leader of an epoch, on record or in a
message, a step of the run elected for that epoch; and each of the other
managers it knew then had voted, in a step of its own, for a request of it
with the timestamp of that election. -/
theorem leaders_are_elected (c : Cluster) (actions : List Action) (hstart : c.Booted)
    (hok : Along Cluster.act Open c actions) (l : NodeId) (e : ℕ)
    (hnames : Names (run Cluster.act c actions) e l) :
    ∃ before a after ts, actions = before ++ a :: after ∧
      Elects (run Cluster.act c before) a l e ts ∧
      ∀ Z, Z ≠ l → Knows ((run Cluster.act c before).managers l).state Z →
        ∃ e', Voted c before Z l e' ts := by
  obtain ⟨ts, hw⟩ := (openInv_run hstart hok).won_of_names hnames
  obtain ⟨before, a, after, rfl, helects⟩ := elects_of_won_run hstart hok hw
  have hbefore := (along_append.1 hok).1
  exact ⟨before, a, after, ts, rfl, helects, fun Z hne hk =>
    voted_of_approved_run hstart hbefore (helects.approved Z hne hk)⟩

theorem leaders_are_elected_asked :
    Records (run Cluster.act bootedCluster oneIsAsked) ⟨1⟩ 1 ⟨1⟩ ∧
      ∃ before a after ts, oneIsAsked = before ++ a :: after ∧
        Elects (run Cluster.act bootedCluster before) a ⟨1⟩ 1 ts ∧
        ∀ Z, Z ≠ ⟨1⟩ → Knows ((run Cluster.act bootedCluster before).managers ⟨1⟩).state Z →
          ∃ e', Voted bootedCluster before Z ⟨1⟩ e' ts := by
  have hrecords : Records (run Cluster.act bootedCluster oneIsAsked) ⟨1⟩ 1 ⟨1⟩ :=
    ⟨by decide +kernel, by decide +kernel⟩
  exact ⟨hrecords, leaders_are_elected bootedCluster oneIsAsked booted_bootedCluster
    open_oneIsAsked ⟨1⟩ 1 (.record ⟨1⟩ hrecords)⟩

/-! ## Managers that have never met -/

/-- The step connects no manager to another. -/
def Apart (a : Action) : Prop :=
  ∀ m id host port r, a ≠ .outside m (.newConnection (some id) host port true) r

/-- **A manager alone**: it knows no other, has no leader, and its table
is the one it started with. -/
structure Alone (m : NodeId) (state : State) : Prop where
  knows : ∀ n, Knows state n → n = m
  leader : state.electedLeaderId = none
  table : state.partitions = default

/-- The message brings no manager, asks for no vote, gives none and tells of
no decision. -/
def Silent : ManagerProtocol → Prop
  | .newConnection (some _) _ _ true => False
  | .voteRequest _ _ _ | .voteResponse _ _ _ | .leader _ _ _ | .clusterState _ _ => False
  | _ => True

theorem Alone.otherManagers {state : State} {me : Me} (h : Alone me.id state) :
    state.otherManagers me = [] := by
  rw [List.eq_nil_iff_forall_not_mem]
  intro Z hZ
  obtain ⟨hne, hk⟩ := mem_otherManagers.1 hZ
  exact hne (h.knows Z hk)

theorem Alone.handle (h : Alone s.me.id s.state) (hmsg : Silent msg) :
    Alone s.me.id (s.handle msg r).1.state := by
  refine ⟨fun n hk => ?_, ?_, ?_⟩
  · obtain ⟨node, hnode, htype⟩ := Option.map_eq_some_iff.1 hk
    rcases nodes_handle hnode with ⟨before, hbefore, hsame⟩ | htold
    · exact h.knows n (by rw [Knows, hbefore, Option.map_some, hsame, htype])
    · -- A node that is told of is a worker.
      rw [htype] at htold
      cases msg with
      | newConnection id host port manager =>
        obtain ⟨rfl, hmanager⟩ := htold
        cases manager with
        | true => exact hmsg.elim
        | false => cases hmanager
      | clusterState rcpt st => cases htold.1
      | _ => exact htold.elim
  · rcases handle_decision s msg r with ⟨-, hsame | hnone⟩ |
      ⟨e, l', -, ⟨ts, rfl⟩ | ⟨rcpt, st, rfl, -, -⟩, -, -⟩ |
      ⟨voter, ts, e, approvers, rfl, -, -, -, -⟩
    · exact hsame.trans h.leader
    · exact hnone
    · exact hmsg.elim
    · exact hmsg.elim
    · exact hmsg.elim
  · rcases handle_table s msg r with hsame | ⟨id, w, p, -, htable⟩ | ⟨rcpt, st, rfl, -, -⟩
    · exact hsame.trans h.table
    · rw [htable, h.table]
      simp [removeOldReplica, default]
    · exact hmsg.elim

theorem Alone.tick (h : Alone s.me.id s.state) : Alone s.me.id (s.tick r).1.state := by
  have hleader : (heartbeats s.state s.me r.heartbeatNow r.heartbeatRandom).1.electedLeaderId =
      none := by
    rcases @heartbeats_leader s.state s.me r.heartbeatNow r.heartbeatRandom
      with hsame | hnone
    · exact hsame.trans h.leader
    · exact hnone
  have hidle : ∀ rf, workerPartitions (heartbeats s.state s.me r.heartbeatNow
      r.heartbeatRandom).1 s.me rf = ((heartbeats s.state s.me r.heartbeatNow
        r.heartbeatRandom).1, []) := by
    intro rf
    rw [workerPartitions, hleader, if_neg (by simp)]
  refine ⟨fun n hk => ?_, ?_, ?_⟩
  · obtain ⟨node, hnode, htype⟩ := Option.map_eq_some_iff.1 hk
    obtain ⟨before, hbefore, hsame⟩ := nodes_tick hnode
    exact h.knows n (by rw [Knows, hbefore, Option.map_some, hsame, htype])
  · simp only [Service.tick, hidle]
    exact hleader
  · simp only [Service.tick, hidle, heartbeats_partitions]
    exact h.table

theorem Alone.silent_handle (h : Alone s.me.id s.state) (hmsg : Silent msg) {o : ManagerProtocol}
    (ho : o ∈ (s.handle msg r).2) : Silent o := by
  cases sends_of_handle ho with
  | answers id st hepoch hleader _ _ =>
    rw [h.leader] at hleader
    cases hleader
  | votes id candidate e ts ts' hrequest _ => exact (hrequest ▸ hmsg : Silent (.voteRequest _ _ _))
  | announces id voter e ts approvers hvote => exact (hvote ▸ hmsg : Silent (.voteResponse _ _ _))
  | _ => trivial

theorem Alone.silent_tick (h : Alone s.me.id s.state) {o : ManagerProtocol}
    (ho : o ∈ (s.tick r).2) : Silent o := by
  cases sends_of_tick ho with
  | beats id ts => trivial
  | requests id e ts hother =>
    rw [h.otherManagers] at hother
    cases hother
  | tells id st hleads =>
    rw [h.leader] at hleads
    cases hleads

/-- The managers are alone and nothing they have sent tells of a
decision. -/
structure AllAlone (c : Cluster) : Prop where
  me : ∀ m, (c.managers m).me.id = m
  alone : ∀ m, Alone m (c.managers m).state
  silent : ∀ pk ∈ c.sent, Silent pk.2

theorem allAlone_booted (hstart : c.Booted) : AllAlone c := by
  refine ⟨(openInv_booted hstart).me, fun m => ?_, fun pk hpk => ?_⟩
  · obtain ⟨me, hostPort, now, rfl, heq⟩ := hstart.managers m
    have honly : ∀ state : State, state.nodes = (∅ : Map NodeId Node).insert me.id
        ⟨me.host, me.port, now, .manager⟩ → ∀ n, Knows state n → n = me.id := by
      intro state hnodes n hk
      obtain ⟨node, hnode, -⟩ := Option.map_eq_some_iff.1 hk
      rw [hnodes] at hnode
      rcases nodes_insert hnode with ⟨rfl, -⟩ | hn
      · rfl
      · simp at hn
    rw [heq]
    unfold Service.init
    cases hostPort <;> exact ⟨honly _ rfl, rfl, rfl⟩
  · rw [hstart.sent] at hpk
    cases hpk

theorem silent_route {o : ManagerProtocol} {pk : Packet} (ho : Silent o)
    (hroute : route m o = some pk) : Silent pk.2 := by
  cases o with
  | newConnection => cases hroute
  | nodeDisconnected => cases hroute
  | heartbeat => cases hroute; trivial
  | getClusterState => cases hroute; trivial
  | removePartitionFromReplica => cases hroute; trivial
  | _ => exact ho.elim

theorem AllAlone.act (hall : AllAlone c) (hopen : Open c a) (hapart : Apart a) :
    AllAlone (c.act a) := by
  have hme := hall.me a.actor
  have hbefore : Alone (c.managers a.actor).me.id (c.managers a.actor).state := by
    rw [hme]
    exact hall.alone a.actor
  have hmsg : ∀ msg, a.input.1 = some msg → Silent msg := by
    intro msg hmsg
    cases a with
    | deliver m msg' r =>
      obtain rfl : msg' = msg := Option.some.inj hmsg
      exact hall.silent _ (hopen.sent m msg' r rfl)
    | outside m msg' r =>
      obtain rfl : msg' = msg := Option.some.inj hmsg
      have hout := hopen.outside m msg' r rfl
      cases msg' with
      | newConnection id host port manager =>
        cases id with
        | none => trivial
        | some id =>
          cases manager with
          | true => exact hapart m id host port r rfl
          | false => trivial
      | voteRequest => exact hout.elim
      | voteResponse => exact hout.elim
      | leader => exact hout.elim
      | clusterState => exact hout.elim
      | _ => trivial
    | tick m r => cases hmsg
  -- The manager after its message, and what it sends.
  have hreceived : Alone (c.managers a.actor).me.id
      (received (c.managers a.actor) a.input).1.state ∧
        ∀ o ∈ (received (c.managers a.actor) a.input).2, Silent o := by
    unfold received
    cases hin : a.input.1 with
    | none => exact ⟨hbefore, nofun⟩
    | some msg =>
      exact ⟨hbefore.handle (hmsg msg hin), fun o ho => hbefore.silent_handle (hmsg msg hin) ho⟩
  have hhandled := hreceived.1
  rw [← received_me a.input] at hhandled
  refine ⟨fun n => ?_, fun n => ?_, fun pk hpk => ?_⟩
  · by_cases hn : n = a.actor
    · subst hn
      rw [Cluster.act, managers_apply_self, turn_me, hme]
    · rw [Cluster.act, managers_apply_of_ne hn, hall.me]
  · by_cases hn : n = a.actor
    · subst hn
      have hticked := hhandled.tick (r := a.input.2)
      rw [received_me, hme] at hticked
      rw [Cluster.act, managers_apply_self, turn_received]
      exact hticked
    · rw [Cluster.act, managers_apply_of_ne hn]
      exact hall.alone n
  · rw [Cluster.act, mem_sent_apply] at hpk
    rcases hpk with hold | ⟨o, ho, hroute⟩
    · exact hall.silent pk hold
    · rw [output_received, List.mem_append] at ho
      rcases ho with ho | ho
      · exact silent_route (hreceived.2 o ho) hroute
      · exact silent_route (hhandled.silent_tick ho) hroute

/-- **Managers that have never met elect nobody.** While no manager
connects to another, whatever workers and clients connect, disconnect,
send and ask, and however many elections are called, no manager records a
leader or computes a table, and none sends a cluster state. -/
theorem managers_apart_never_lead (c : Cluster) (actions : List Action) (hstart : c.Booted)
    (hok : Along Cluster.act Open c actions) (hapart : ∀ a ∈ actions, Apart a) :
    let c' := run Cluster.act c actions
    (∀ m, (c'.managers m).state.electedLeaderId = none ∧
      (c'.managers m).state.partitions = default) ∧ ∀ st, ¬ Sent c' st := by
  intro c'
  have hall : AllAlone c' := run_inv (I := AllAlone)
    (fun _ _ hall hstep => hall.act hstep.1 hstep.2) (allAlone_booted hstart)
    (along_and.2 ⟨hok, along_of_forall hapart⟩)
  refine ⟨fun m => ⟨(hall.alone m).leader, (hall.alone m).table⟩, ?_⟩
  rintro st ⟨dst, rcpt, hin⟩
  exact hall.silent _ hin

/-- A manager with a worker calls an election, and nobody can answer. -/
def onlyWorkers : List Action :=
  [.outside ⟨1⟩ (.newConnection (some ⟨3⟩) "w" 1 false) ⟨5, 5, 500, 5, 500, 1⟩,
   .outside ⟨1⟩ (.getClusterState ⟨9⟩) ⟨10, 10, 500, 10, 500, 1⟩]

theorem managers_apart_never_lead_workers :
    lastKeyValue ((run Cluster.act bootedCluster onlyWorkers).managers ⟨1⟩).elections =
        some (1, .mine 5 ∅) ∧
      ((run Cluster.act bootedCluster onlyWorkers).managers ⟨1⟩).state.electedLeaderId = none ∧
      ∀ st, ¬ Sent (run Cluster.act bootedCluster onlyWorkers) st := by
  have hok : Along Cluster.act Open bootedCluster onlyWorkers :=
    ⟨open_outside (by decide) fun n _ => Finset.notMem_empty n, open_outside (by decide) trivial,
      trivial⟩
  have hapart : ∀ a ∈ onlyWorkers, Apart a := by
    intro a ha m id host port r h
    subst h
    simp [onlyWorkers] at ha
  have hnever := managers_apart_never_lead bootedCluster onlyWorkers booted_bootedCluster hok hapart
  exact ⟨by decide +kernel, (hnever.1 ⟨1⟩).1, hnever.2⟩

end Election

end NoSqlStore
