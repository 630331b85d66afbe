import NoSqlStore.Election.Agreement
import NoSqlStore.Manager.Provenance
/-!
# A common voter

Managers that come and go: any connection may be lost and regained, and
two candidates need not know each other. What a third manager, in the
tables of both throughout, still guarantees is that neither of them wins
without its vote, given in a step of its own (`common_voter`). It does not
keep them from both winning: a voter replaces the election it takes part
in, its own included, by one for an earlier timestamp, and the vote it has
sent before still counts.
-/

namespace NoSqlStore

namespace Election

open Manager Runs

variable {c : Cluster} {sent : List Packet} {m V W X Y : NodeId} {s s' : Service}
  {outs : List ManagerProtocol} {e ts : ℕ}

/-- **The voter stays**: `W` is in the tables of `X` and `Y`, and both are
in its own. -/
structure Linked (W X Y : NodeId) (c : Cluster) : Prop where
  left : Knows (c.managers X).state W
  right : Knows (c.managers Y).state W
  voter : Knows (c.managers W).state X ∧ Knows (c.managers W).state Y

/-- **The runs considered**: any manager acts, delivers what was sent to
it, and loses and regains any connection, as long as the voter stays. -/
structure Roaming (W X Y : NodeId) (c : Cluster) (a : Action) : Prop where
  sent : ∀ m msg r, a = .deliver m msg r → (m, msg) ∈ c.sent
  outside : ∀ m msg r, a = .outside m msg r → Outside ∅ msg
  linked : Linked W X Y (c.act a)

/-- **Managers at their start**: without a leader, in no election. -/
structure Begins (c : Cluster) : Prop where
  sent : c.sent = []
  id : ∀ m, (c.managers m).me.id = m
  elections : ∀ m, (c.managers m).elections = ∅

/-- **The step votes** for the request of `X` for epoch `e`, called at
`ts`: `W` handles it, and is willing. -/
structure Votes (c : Cluster) (a : Action) (W X : NodeId) (e ts : ℕ) : Prop where
  actor : a.actor = W
  request : a.input.1 = some (.voteRequest X e ts)
  willing : Willing (c.managers W) e ts

/-- A step of the run votes. -/
def Voted (c₀ : Cluster) (actions : List Action) (W X : NodeId) (e ts : ℕ) : Prop :=
  ∃ before a after, actions = before ++ a :: after ∧ Votes (run Cluster.act c₀ before) a W X e ts

/-- **The elections of each manager carry distinct timestamps**: it asks
for votes for one epoch at a time. -/
def Dated (sent : List Packet) : Prop :=
  ∀ X e e' ts, Requested sent X e ts → Requested sent X e' ts → e = e'

/-- **What the packets say of the votes**: the elections of the three are
on record, and `X` and `Y` have won nothing without the vote of `W`. -/
structure Voting (W X Y : NodeId) (c : Cluster) : Prop where
  id : ∀ m, (c.managers m).me.id = m
  elections : ∀ Z, Z = X ∨ Z = Y ∨ Z = W → Consistent c.sent Z (c.managers Z).elections
  won : ∀ Z, Z = X ∨ Z = Y → ∀ e ts, Won c.sent Z e ts →
    Requested c.sent Z e ts ∧ Approved c.sent W Z ts

theorem voting_of_begins (h : Begins c) : Voting W X Y c := by
  refine ⟨h.id, fun Z _ => ?_, fun Z _ e ts hwon => ?_⟩
  · rw [h.elections Z]
    exact .none
  · obtain ⟨dst, hin⟩ := hwon
    rw [h.sent] at hin
    cases hin

/-! ## One move -/

/-- A change testifies to the same votes as the packets do. -/
structure SameVotes (sent sent' : List Packet) : Prop where
  requested : ∀ X e ts, Requested sent' X e ts → Requested sent X e ts
  approved : ∀ Y X ts, Approved sent' Y X ts → Approved sent Y X ts

theorem SameVotes.refl (sent : List Packet) : SameVotes sent sent :=
  ⟨fun _ _ _ h => h, fun _ _ _ h => h⟩

/-- **A change keeps the mover's election on record.** -/
theorem consistent_change {sent' : List Packet} (hvotes : SameVotes c.sent sent')
    (hid : (c.managers m).me.id = m) (hcons : Consistent c.sent m (c.managers m).elections)
    (hchange : Change sent' (c.managers m) s' outs) :
    Consistent (c.apply m s' outs).sent m s'.elections := by
  have hkept : ∀ elections : Elections,
      elections = (c.managers m).elections ∨ elections = ∅ →
      Consistent (c.apply m s' outs).sent m elections := by
    rintro elections (rfl | rfl)
    · exact hcons.mono sent_subset_apply
    · exact .none
  cases hchange with
  | quiet hel _ _ _ => exact hkept _ hel
  | adopts _ _ _ _ hel _ _ _ => exact hkept _ hel
  | repeats _ _ _ _ hsame _ _ => exact hkept _ (Or.inl (by rw [hsame]))
  | approves id e ts hreq _ hel _ houts =>
    rw [hel]
    refine .other e ts id ((hvotes.requested _ _ _ hreq).mono sent_subset_apply) ?_
    exact approved_apply.mpr (Or.inr ⟨rfl, id, by rw [houts]; exact List.mem_singleton_self _⟩)
  | counts id e ts approvers happ hlast hel _ _ =>
    rw [hid] at happ
    obtain ⟨hmine, hreq, happ'⟩ := hcons.mine_of_last hlast
    have hsingle := insert_single e (.mine ts approvers) (.mine ts (insert id approvers))
    rw [hel, hmine, hsingle]
    refine Consistent.mono sent_subset_apply (.mine e ts _ hreq fun y hy => ?_)
    rcases Finset.mem_insert.mp hy with rfl | hy
    · exact hvotes.approved _ _ _ happ
    · exact happ' y hy
  | wins _ _ _ _ _ _ _ hel _ _ _ _ =>
    rw [hel]
    exact .none

/-- **Whoever wins has been asked for and approved by all it knows.** -/
theorem won_change {sent' : List Packet} (hvotes : SameVotes c.sent sent')
    (hid : (c.managers m).me.id = m) (hcons : Consistent c.sent m (c.managers m).elections)
    (hchange : Change sent' (c.managers m) s' outs) {dst : NodeId}
    (hin : .leader dst e ts ∈ outs) (hne : V ≠ m) (hknows : Knows (c.managers m).state V) :
    Requested c.sent m e ts ∧ Approved c.sent V m ts := by
  cases hchange with
  | quiet _ _ _ hq => exact (hq _ hin).elim
  | adopts _ _ _ _ _ _ _ hq => exact (hq _ hin).elim
  | repeats _ _ _ _ _ _ houts => simp [houts] at hin
  | approves _ _ _ _ _ _ _ houts => simp [houts] at hin
  | counts _ _ _ _ _ _ _ _ houts => simp [houts] at hin
  | wins id e' ts' approvers happ hlast hunan _ _ _ _ houts =>
    rw [houts] at hin
    obtain ⟨key, -, hkey⟩ := List.mem_map.mp hin
    cases hkey
    rw [hid] at happ hunan
    obtain ⟨-, hreq, happ'⟩ := hcons.mine_of_last hlast
    refine ⟨hreq, ?_⟩
    rcases Finset.mem_insert.mp (hunan V hne hknows) with rfl | hmem
    · exact hvotes.approved _ _ _ happ
    · exact happ' V hmem

/-- What a move owes the voting: the election of one of the three that moves
is on record after it, and so is the vote behind every victory. The moves
of other managers owe nothing. -/
theorem Voting.apply (hv : Voting W X Y c) (hid : s'.me.id = m)
    (hcons : m = X ∨ m = Y ∨ m = W → Consistent (c.apply m s' outs).sent m s'.elections)
    (hwon : m = X ∨ m = Y → ∀ dst e ts, .leader dst e ts ∈ outs →
      Requested c.sent m e ts ∧ Approved c.sent W m ts) : Voting W X Y (c.apply m s' outs) := by
  refine ⟨fun Z => ?_, fun Z hZ => ?_, fun Z hZ e ts hw => ?_⟩
  · by_cases hZm : Z = m
    · subst hZm
      rw [managers_apply_self, hid]
    · rw [managers_apply_of_ne hZm, hv.id Z]
  · by_cases hZm : Z = m
    · subst hZm
      rw [managers_apply_self]
      exact hcons hZ
    · rw [managers_apply_of_ne hZm]
      exact (hv.elections Z hZ).mono sent_subset_apply
  · have hbefore : Requested c.sent Z e ts ∧ Approved c.sent W Z ts := by
      rcases won_apply.mp hw with hw | ⟨rfl, dst, hin⟩
      · exact hv.won Z hZ e ts hw
      · exact hwon hZ dst e ts hin
    exact ⟨hbefore.1.mono sent_subset_apply, hbefore.2.mono sent_subset_apply⟩

theorem Voting.apply_move {sent' : List Packet} (hv : Voting W X Y c) (hWX : W ≠ X) (hWY : W ≠ Y)
    (hvotes : SameVotes c.sent sent') (hmove : Move ∅ sent' (c.managers m) s' outs)
    (hknows : m = X ∨ m = Y → Knows (c.managers m).state W) :
    Voting W X Y (c.apply m s' outs) := by
  have hid := hv.id m
  refine hv.apply (by rw [hmove.me, hid])
    (fun hm => consistent_change hvotes hid (hv.elections m hm) hmove.change) ?_
  intro hm dst e ts hin
  have hne : W ≠ m := by
    rcases hm with rfl | rfl
    · exact hWX
    · exact hWY
  exact won_change hvotes hid (hv.elections m (hm.imp_right Or.inl)) hmove.change hin hne
    (hknows hm)

/-- The call of an election by a candidate reaches the voter, and one by
the voter a candidate. -/
theorem Voting.apply_starts (hv : Voting W X Y c) (hWX : W ≠ X) (hWY : W ≠ Y)
    (hstarts : Starts (c.managers m) s' outs e ts)
    (hknows : m = X ∨ m = Y → Knows (c.managers m).state W)
    (hvoter : m = W → Knows (c.managers m).state X) :
    Voting W X Y (c.apply m s' outs) := by
  have hid := hv.id m
  refine hv.apply (by rw [hstarts.me, hid]) (fun hm => ?_) fun _ dst e' ts' hin => ?_
  · obtain ⟨V, hne, hk⟩ : ∃ V, V ≠ m ∧ Knows (c.managers m).state V := by
      rcases hm with rfl | rfl | rfl
      · exact ⟨W, hWX, hknows (Or.inl rfl)⟩
      · exact ⟨W, hWY, hknows (Or.inr rfl)⟩
      · exact ⟨X, hWX.symm, hvoter rfl⟩
    have hasked : .voteRequest V e ts ∈ outs := by
      rw [hstarts.outs]
      exact List.mem_map.mpr ⟨V, mem_otherManagers.mpr ⟨by rw [hid]; exact hne, hk⟩, rfl⟩
    rw [hstarts.elections]
    exact .mine e ts ∅ (requested_apply.mpr (Or.inr ⟨rfl, V, hasked⟩)) fun y hy => by cases hy
  · rw [hstarts.outs] at hin
    obtain ⟨_, _, h⟩ := List.mem_map.mp hin
    cases h

/-! ## One action -/

/-- A message that was sent, or comes from outside, is a move: what a
snapshot says of its leader does not matter here. -/
theorem move_of_roaming {msg : ManagerProtocol} (r : Readings)
    (hmsg : Outside ∅ msg ∨ ∃ dst, (dst, msg) ∈ sent) :
    ∃ sent', SameVotes sent sent' ∧ Move ∅ sent' s (s.handle msg r).1 (s.handle msg r).2 := by
  by_cases hstate : ∃ rcpt st, msg = .clusterState rcpt st
  · obtain ⟨rcpt, st, rfl⟩ := hstate
    -- with the leader's announcement added, the snapshot is of a decision won
    refine ⟨(rcpt, .leader st.leaderId st.epoch 0) :: sent, ⟨?_, ?_⟩, move_handle _ r ?_⟩
    · rintro X e ts ⟨dst, hin⟩
      rcases List.mem_cons.mp hin with h | h
      · cases h
      · exact ⟨dst, h⟩
    · rintro Y X ts ⟨dst, hin⟩
      rcases List.mem_cons.mp hin with h | h
      · cases h
      · exact ⟨dst, h⟩
    · exact ⟨⟨0, rcpt, List.mem_cons_self⟩, Or.inr fun n hn => by cases hn⟩
  · refine ⟨sent, .refl sent, move_handle msg r ?_⟩
    rcases hmsg with hmsg | ⟨dst, hin⟩
    · cases msg <;> first | exact hmsg | exact hmsg.elim
    · cases msg with
      | newConnection id host port manager => exact fun n _ => Finset.notMem_empty n
      | nodeDisconnected id => exact Finset.notMem_empty id
      | clusterState rcpt st => exact absurd ⟨rcpt, st, rfl⟩ hstate
      | voteRequest id e ts => exact ⟨dst, hin⟩
      | voteResponse id l ts => exact ⟨dst, hin⟩
      | leader id e ts => exact ⟨dst, hin⟩
      | _ => trivial

theorem Voting.apply_tick (hv : Voting W X Y c) (hWX : W ≠ X) (hWY : W ≠ Y) (r : Readings)
    (hknows : m = X ∨ m = Y → Knows (c.managers m).state W)
    (hvoter : m = W → Knows (c.managers m).state X) :
    Voting W X Y (c.apply m ((c.managers m).tick r).1 ((c.managers m).tick r).2) := by
  refine tick_rule (M := ∅) (I := Voting W X Y) r hv (fun c' s' outs hsame hv' hmove => ?_) ?_
  · exact hv'.apply_move hWX hWY (.refl c'.sent) hmove fun hm => (hsame W).mpr (hknows hm)
  · intro c' s' outs e ts hsame _ hv' hstarts _
    exact hv'.apply_starts hWX hWY hstarts (fun hm => (hsame W).mpr (hknows hm))
      fun hm => (hsame X).mpr (hvoter hm)

/-- A tick changes the type of no node. -/
theorem knows_tick (s : Service) (r : Readings) (n : NodeId) :
    Knows (s.tick r).1.state n ↔ Knows s.state n := by
  simp only [Knows, Service.tick, workerPartitions_nodes]
  rw [heartbeats_nodeType]

/-- **One action keeps the voting.** -/
theorem Voting.act {a : Action} (hv : Voting W X Y c) (hWX : W ≠ X) (hWY : W ≠ Y)
    (hlinked : Linked W X Y c) (ha : Roaming W X Y c a) : Voting W X Y (c.act a) := by
  have hmsg : ∀ msg, a.input.1 = some msg → Outside ∅ msg ∨ ∃ dst, (dst, msg) ∈ c.sent := by
    intro msg hin
    cases a with
    | deliver m msg' r =>
      cases hin
      exact Or.inr ⟨m, ha.sent m msg r rfl⟩
    | outside m msg' r =>
      cases hin
      exact Or.inl (ha.outside m msg r rfl)
    | tick m r => cases hin
  have hbefore : a.actor = X ∨ a.actor = Y → Knows (c.managers a.actor).state W := by
    rintro (h | h)
    · rw [h]
      exact hlinked.left
    · rw [h]
      exact hlinked.right
  have hafter : a.actor = X ∨ a.actor = Y → Knows ((c.act a).managers a.actor).state W := by
    rintro (h | h)
    · rw [h]
      exact ha.linked.left
    · rw [h]
      exact ha.linked.right
  have hvoter : a.actor = W → Knows (c.managers a.actor).state X := by
    intro h
    rw [h]
    exact hlinked.voter.1
  have hvoter' : a.actor = W → Knows ((c.act a).managers a.actor).state X := by
    intro h
    rw [h]
    exact ha.linked.voter.1
  unfold Cluster.act at hafter hvoter' ⊢
  rw [managers_apply_self] at hafter hvoter'
  generalize a.actor = m at hbefore hafter hvoter hvoter' ⊢
  generalize a.input = input at hmsg hafter hvoter' ⊢
  obtain ⟨msg?, r⟩ := input
  cases msg? with
  | none => exact hv.apply_tick hWX hWY r hbefore hvoter
  | some msg =>
    obtain ⟨sent', hvotes, hmove⟩ := move_of_roaming r (hmsg msg rfl)
    have hv₁ := hv.apply_move hWX hWY hvotes hmove hbefore
    have hv₂ := hv₁.apply_tick hWX hWY r
      (by rw [managers_apply_self]; exact fun hm => (knows_tick _ r W).mp (hafter hm))
      (by rw [managers_apply_self]; exact fun hm => (knows_tick _ r X).mp (hvoter' hm))
    rw [managers_apply_self, apply_apply] at hv₂
    exact hv₂

/-- **A vote is given in a step that votes**; repeating it is no news, where
the votes on record have been given. -/
theorem approved_act {a : Action}
    (hgiven : ∀ (e : ℕ) (cand : NodeId) (ts : ℕ),
      (c.managers W).elections[e]? = some (.other ts cand) → Approved c.sent W cand ts)
    (h : Approved (c.act a).sent W V ts) : Approved c.sent W V ts ∨ ∃ e, Votes c a W V e ts := by
  rcases approved_apply.mp h with hold | hnew
  · exact Or.inl hold
  obtain ⟨rfl, dst, hin⟩ := hnew
  unfold output at hin
  cases hinput : a.input.1 with
  | none =>
    rw [hinput] at hin
    cases sends_of_tick hin
  | some msg =>
    rw [hinput] at hin
    rcases List.mem_append.mp hin with hin | hin
    · cases sends_of_handle hin with
      | votes _ _ e ts₀ _ hrequest hvoted =>
        rcases hvoted with ⟨rfl, rfl, hwilling⟩ | hvoted
        · exact Or.inr ⟨e, rfl, by rw [hinput, hrequest], hwilling⟩
        · exact Or.inl (hgiven _ _ _ hvoted)
    · cases sends_of_tick hin

/-! ## A whole run -/

/-- Whoever has won was voted for in a step of the run, at the timestamp of
the election it won. -/
theorem voted_of_won (hWX : W ≠ X) (hWY : W ≠ Y) {c₀ : Cluster} (hbegins : Begins c₀)
    (hlinked : Linked W X Y c₀) {actions : List Action}
    (hok : Along Cluster.act (Roaming W X Y) c₀ actions) {Z : NodeId} (hZ : Z = X ∨ Z = Y)
    (hwon : Won (run Cluster.act c₀ actions).sent Z e ts) :
    ∃ e', Voted c₀ actions W Z e' ts ∧ (Dated (run Cluster.act c₀ actions).sent → e' = e) := by
  have hinv : ∀ c a, Voting W X Y c ∧ Linked W X Y c → Roaming W X Y c a →
      Voting W X Y (c.act a) ∧ Linked W X Y (c.act a) :=
    fun c a hc ha => ⟨hc.1.act hWX hWY hc.2 ha, ha.linked⟩
  have hstart : Voting W X Y c₀ ∧ Linked W X Y c₀ := ⟨voting_of_begins hbegins, hlinked⟩
  obtain ⟨hrequested, happroved⟩ := (run_inv hinv hstart hok).1.won Z hZ e ts hwon
  have hnone : ¬ Approved c₀.sent W Z ts := by
    rintro ⟨dst, hin⟩
    rw [hbegins.sent] at hin
    cases hin
  obtain ⟨before, a, after, hsplit, e', hvotes⟩ := run_origin (P := fun c => Approved c.sent W Z ts)
    hinv (fun c a hc _ h => approved_act
      (fun e cand ts hvote => (hc.1.elections W (Or.inr (Or.inr rfl))).approved_of_vote hvote) h)
    hstart hnone hok happroved
  refine ⟨e', ⟨before, a, after, hsplit, hvotes⟩, fun hdated => ?_⟩
  -- what was voted for had been asked for
  have hasked : Requested (run Cluster.act c₀ before).sent Z e' ts := by
    rw [hsplit] at hok
    have ha := (along_append.mp hok).2.1
    have hrequest := hvotes.request
    cases a with
    | deliver m msg r =>
      cases hrequest
      exact ⟨m, ha.sent m _ r rfl⟩
    | outside m msg r =>
      cases hrequest
      exact (ha.outside m _ r rfl).elim
    | tick m r => cases hrequest
  have hgrow : (run Cluster.act c₀ before).sent ⊆ (run Cluster.act c₀ actions).sent := by
    rw [hsplit, run_append]
    exact sent_subset_run _ _
  exact hdated Z e' e ts (hasked.mono hgrow) hrequested

/-- **A common voter's vote is behind both victories.** In every run in
which connections between managers are lost and regained at will and `W`
stays in the tables of `X` and `Y`, and both in its own, `X` and `Y` never
both take the winning branch for one epoch unless `W` has voted for both,
in steps of its own, at the timestamps of the elections won; and for that
very epoch, where no manager asks for two epochs at one time. -/
theorem common_voter (W X Y : NodeId) (hWX : W ≠ X) (hWY : W ≠ Y) (c₀ : Cluster)
    (hbegins : Begins c₀) (hlinked : Linked W X Y c₀) (actions : List Action)
    (hok : Along Cluster.act (Roaming W X Y) c₀ actions) (e tsX tsY : ℕ)
    (hX : Won (run Cluster.act c₀ actions).sent X e tsX)
    (hY : Won (run Cluster.act c₀ actions).sent Y e tsY) :
    (∃ e', Voted c₀ actions W X e' tsX) ∧ (∃ e', Voted c₀ actions W Y e' tsY) ∧
      (Dated (run Cluster.act c₀ actions).sent →
        Voted c₀ actions W X e tsX ∧ Voted c₀ actions W Y e tsY) := by
  obtain ⟨eX, hvotedX, hsameX⟩ := voted_of_won hWX hWY hbegins hlinked hok (Or.inl rfl) hX
  obtain ⟨eY, hvotedY, hsameY⟩ := voted_of_won hWX hWY hbegins hlinked hok (Or.inr rfl) hY
  refine ⟨⟨eX, hvotedX⟩, ⟨eY, hvotedY⟩, fun hdated => ⟨?_, ?_⟩⟩
  · exact hsameX hdated ▸ hvotedX
  · exact hsameY hdated ▸ hvotedY

/-- Managers 1 and 2 do not know each other, and manager 3 knows both. -/
def twoCandidates : Cluster :=
  let known (n : NodeId) : List NodeId := if n = ⟨3⟩ then [⟨1⟩, ⟨2⟩, ⟨3⟩] else [n, ⟨3⟩]
  ⟨fun n => ⟨⟨n, "m", 1⟩, State.new ((known n).foldl
    (fun nodes id => nodes.insert id ⟨"m", 1, 0, .manager⟩) ∅) (some 0), ∅⟩, []⟩

/-- Managers 2 and 1 call elections at times 10 and 20. The request of
manager 1 is there first, manager 3 votes for it, and manager 1 wins. -/
def firstWins : List Action :=
  [.tick ⟨2⟩ ⟨10, 10, 500, 10, 500, 1⟩, .tick ⟨1⟩ ⟨20, 20, 500, 20, 500, 1⟩,
   .deliver ⟨3⟩ (.voteRequest ⟨1⟩ 1 20) ⟨30, 30, 500, 30, 500, 1⟩,
   .deliver ⟨1⟩ (.voteResponse ⟨3⟩ ⟨1⟩ 20) ⟨40, 40, 500, 40, 500, 1⟩]

/-- Before manager 3 hears of it, the older request of manager 2 arrives,
and manager 3 votes again. -/
def secondWins : List Action :=
  [.deliver ⟨3⟩ (.voteRequest ⟨2⟩ 1 10) ⟨50, 50, 500, 50, 500, 1⟩,
   .deliver ⟨2⟩ (.voteResponse ⟨3⟩ ⟨2⟩ 10) ⟨60, 60, 500, 60, 500, 1⟩]

instance {state : State} {n : NodeId} : Decidable (Knows state n) :=
  inferInstanceAs (Decidable (_ = _))

theorem begins_twoCandidates : Begins twoCandidates := ⟨rfl, fun _ => rfl, fun _ => rfl⟩

theorem roaming_tick {r : Readings} (h : Linked W X Y (c.act (.tick m r))) :
    Roaming W X Y c (.tick m r) :=
  ⟨fun _ _ _ h => (by cases h), fun _ _ _ h => (by cases h), h⟩

theorem roaming_deliver {msg : ManagerProtocol} {r : Readings} (hsent : (m, msg) ∈ c.sent)
    (h : Linked W X Y (c.act (.deliver m msg r))) : Roaming W X Y c (.deliver m msg r) := by
  refine ⟨fun _ _ _ heq => ?_, fun _ _ _ heq => ?_, h⟩
  · cases heq
    exact hsent
  · cases heq

theorem linked_twoCandidates : Linked ⟨3⟩ ⟨1⟩ ⟨2⟩ twoCandidates :=
  ⟨by decide +kernel, by decide +kernel, by decide +kernel⟩

theorem roaming_firstWins :
    Along Cluster.act (Roaming ⟨3⟩ ⟨1⟩ ⟨2⟩) twoCandidates firstWins :=
  ⟨roaming_tick ⟨by decide +kernel, by decide +kernel, by decide +kernel⟩,
    roaming_tick ⟨by decide +kernel, by decide +kernel, by decide +kernel⟩,
    roaming_deliver (by decide +kernel) ⟨by decide +kernel, by decide +kernel, by decide +kernel⟩,
    roaming_deliver (by decide +kernel) ⟨by decide +kernel, by decide +kernel, by decide +kernel⟩,
    trivial⟩

theorem roaming_secondWins :
    Along Cluster.act (Roaming ⟨3⟩ ⟨1⟩ ⟨2⟩) twoCandidates (firstWins ++ secondWins) :=
  along_append.mpr ⟨roaming_firstWins,
    roaming_deliver (by decide +kernel) ⟨by decide +kernel, by decide +kernel, by decide +kernel⟩,
    roaming_deliver (by decide +kernel) ⟨by decide +kernel, by decide +kernel, by decide +kernel⟩,
    trivial⟩

theorem won_secondWins :
    Won (run Cluster.act twoCandidates (firstWins ++ secondWins)).sent ⟨1⟩ 1 20 ∧
      Won (run Cluster.act twoCandidates (firstWins ++ secondWins)).sent ⟨2⟩ 1 10 :=
  ⟨⟨⟨3⟩, by decide +kernel⟩, ⟨⟨3⟩, by decide +kernel⟩⟩

/-- The message asks for no vote but one for epoch 1. -/
def asksForFirst : ManagerProtocol → Bool
  | .voteRequest _ epoch _ => epoch == 1
  | _ => true

/-- Both elections called are for epoch 1. -/
theorem dated_secondWins :
    Dated (run Cluster.act twoCandidates (firstWins ++ secondWins)).sent := by
  have hone : ∀ packet ∈ (run Cluster.act twoCandidates (firstWins ++ secondWins)).sent,
      asksForFirst packet.2 = true := by decide +kernel
  rintro X e e' ts ⟨dst, hin⟩ ⟨dst', hin'⟩
  exact (eq_of_beq (hone _ hin)).trans (eq_of_beq (hone _ hin')).symm

/-- Manager 3 has voted for both. -/
theorem common_voter_voted_twice :
    Voted twoCandidates (firstWins ++ secondWins) ⟨3⟩ ⟨1⟩ 1 20 ∧
      Voted twoCandidates (firstWins ++ secondWins) ⟨3⟩ ⟨2⟩ 1 10 :=
  (common_voter ⟨3⟩ ⟨1⟩ ⟨2⟩ (by decide) (by decide) twoCandidates begins_twoCandidates
    linked_twoCandidates (firstWins ++ secondWins) roaming_secondWins 1 20 10 won_secondWins.1
    won_secondWins.2).2.2 dated_secondWins

/-- **A common voter does not prevent two leaders in one epoch.** -/
theorem common_voter_votes_twice :
    ¬ ∀ (W X Y : NodeId), W ≠ X → W ≠ Y → X ≠ Y → ∀ (c₀ : Cluster), Begins c₀ →
      Linked W X Y c₀ → ∀ actions, Along Cluster.act (Roaming W X Y) c₀ actions →
      ∀ e tsX tsY, ¬ (Won (run Cluster.act c₀ actions).sent X e tsX ∧
        Won (run Cluster.act c₀ actions).sent Y e tsY) := by
  intro hall
  exact hall ⟨3⟩ ⟨1⟩ ⟨2⟩ (by decide) (by decide) (by decide) twoCandidates begins_twoCandidates
    linked_twoCandidates (firstWins ++ secondWins) roaming_secondWins 1 20 10 won_secondWins

end Election

end NoSqlStore
