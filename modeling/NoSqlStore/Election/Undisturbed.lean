import NoSqlStore.Common.Collect
import NoSqlStore.Election.Tables
import NoSqlStore.Election.Voter
import NoSqlStore.Manager.Followers
/-!
# An undisturbed election ends

Liveness, beside the safety of `Agreement`. A candidate that has called an
election counts the votes it is given, and leads once every other manager
it knows has voted. What can come between is listed by `Mild`: a better
election of somebody else, a decision of a newer epoch, a manager that
joins or leaves, the vote of a stranger, which would be counted and never
matched, and the candidate's own timeout. Along a run that is free of
these the votes may arrive in any order and any number of times, among
whatever else happens (`undisturbed_election_elects`).
-/

namespace NoSqlStore

namespace Election

open Manager Runs

variable {c : Cluster} {X : NodeId} {s : Service} {msg : ManagerProtocol} {r : Readings}
  {e ts : ℕ} {n : NodeId} {approvers others : Finset NodeId}

/-! ## What leaves an election alone -/

/-- **A message that leaves alone an election** for epoch `e`, called at
`ts`. -/
def Mild (s : Service) (e ts : ℕ) : ManagerProtocol → Prop
  | .voteRequest _ epoch ts' => epoch ≤ e ∧ ts ≤ ts'
  | .voteResponse id leaderId ts' =>
    leaderId = s.me.id → ts' = ts → id ≠ s.me.id ∧ Knows s.state id
  | .leader _ epoch _ => epochBelow s.state.epoch epoch = false
  | .clusterState _ st => accepts s.state st.epoch st.leaderId = false
  | .newConnection id _ _ manager => ∀ n ∈ id, (manager = true ↔ Knows s.state n)
  | .nodeDisconnected id => ¬ Knows s.state id
  | .heartbeat _ _ _ | .getClusterState _ | .removePartitionFromReplica _ _ _ => True

/-- The vote a message brings to the candidate. -/
def voteOf (X : NodeId) (ts : ℕ) : ManagerProtocol → Option NodeId
  | .voteResponse id leaderId ts' => if leaderId = X ∧ ts' = ts then some id else none
  | _ => none

/-- A mild message changes no manager the candidate knows. -/
theorem knows_handle (h : Mild s e ts msg) :
    Knows (s.handle msg r).1.state n ↔ Knows s.state n := by
  cases msg with
  | newConnection id host port manager =>
    cases id with
    | none => exact Iff.rfl
    | some id =>
      have hsame := h id rfl
      simp only [Knows, Service.handle, handleNewConnection] at hsame ⊢
      rw [Std.ExtTreeMap.getElem?_insert]
      by_cases hid : id = n
      · subst hid
        rw [if_pos (compare_eq_iff_eq.2 rfl), ← hsame]
        cases manager <;> simp
      · rw [if_neg (by rwa [compare_eq_iff_eq])]
  | nodeDisconnected id =>
    simp only [Service.handle, handleNodeDisconnected]
    split
    · simp only [Knows]
      rw [Std.ExtTreeMap.getElem?_erase]
      by_cases hid : id = n
      · subst hid
        rw [if_pos (compare_eq_iff_eq.2 rfl)]
        exact iff_of_false (by simp) h
      · rw [if_neg (by rwa [compare_eq_iff_eq])]
    · exact Iff.rfl
  | clusterState rcpt st =>
    have hrefused : accepts s.state st.epoch st.leaderId = false := h
    simp only [Service.handle, handleClusterState, hrefused]
    exact Iff.rfl
  | leader id epoch ts' =>
    have hold : epochBelow s.state.epoch epoch = false := h
    simp only [Service.handle, handleLeader, hold]
    exact Iff.rfl
  | voteResponse id leaderId ts' =>
    simp only [Service.handle, handleVoteResponse]
    split
    · split <;> exact Iff.rfl
    · split <;> exact Iff.rfl
  | heartbeat id hid ts' =>
    simp only [Service.handle, handleHeartbeat]
    split
    · exact Iff.rfl
    · rename_i node hnode
      simp only [Knows, nodeType_insert hnode]
  | getClusterState id => exact Iff.rfl
  | voteRequest id epoch ts' => exact Iff.rfl
  | removePartitionFromReplica id replicaId partitionId => exact Iff.rfl

/-! ## The election under way -/

theorem addNew_single {epoch ts' : ℕ} (hepoch : epoch ≤ e) (hts : ts ≤ ts') :
    addNew (single e (.mine ts approvers)) epoch ts' = false := by
  show decide (epoch > e ∨ ts' < ts) = false
  exact decide_eq_false (by omega)

/-- **Handling a mild message with an election under way**: it goes on
with the votes there were, or counts one more, or is won. -/
theorem running_handle (hs : s.elections = single e (.mine ts approvers)) (h : Mild s e ts msg) :
    ((s.handle msg r).1.elections = single e (.mine ts
        ((voteOf s.me.id ts msg).elim approvers fun id => insert id approvers)) ∧
      ∀ id ∈ voteOf s.me.id ts msg, unanimous s.state s.me (insert id approvers) = false) ∨
    ((s.handle msg r).1.elections = ∅ ∧
      (s.handle msg r).1.state.electedLeaderId = some s.me.id ∧
      (s.handle msg r).1.state.epoch = some e ∧
      (s.handle msg r).2 = (s.state.otherNodes s.me).map fun key => .leader key e ts) := by
  cases msg with
  | voteRequest id epoch ts' =>
    refine Or.inl ⟨?_, fun _ hv => by cases hv⟩
    simp only [Service.handle, handleVoteRequest, hs, voteOf, Option.elim_none]
    split
    · rw [if_neg (by simp [addNew_single h.1 h.2])]
      split <;> rfl
    · rfl
  | voteResponse id leaderId ts' =>
    by_cases hvote : leaderId = s.me.id ∧ ts' = ts
    · obtain ⟨rfl, rfl⟩ := hvote
      have happroved : approvedElection s.elections s.me s.me.id ts' = some (e, approvers) := by
        rw [approvedElection, hs, lastKeyValue_single]
        exact if_pos ⟨rfl, rfl⟩
      have hvoteOf : voteOf s.me.id ts' (.voteResponse id s.me.id ts') = some id :=
        if_pos ⟨rfl, rfl⟩
      simp only [Service.handle, handleVoteResponse, happroved, hvoteOf, Option.elim_some]
      split
      · exact Or.inr ⟨rfl, rfl, rfl, rfl⟩
      · rename_i hmissing
        refine Or.inl ⟨?_, fun id' hid => ?_⟩
        · rw [hs, insert_single]
        · cases hid
          simpa using hmissing
    · have happroved : approvedElection s.elections s.me leaderId ts' = none := by
        rw [approvedElection, hs, lastKeyValue_single]
        exact if_neg fun hboth => hvote ⟨hboth.2, hboth.1.symm⟩
      have hvoteOf : voteOf s.me.id ts (.voteResponse id leaderId ts') = none := if_neg hvote
      refine Or.inl ⟨?_, fun _ hv => by rw [hvoteOf] at hv; cases hv⟩
      simp only [Service.handle, handleVoteResponse, happroved, hvoteOf, Option.elim_none]
      split <;> exact hs
  | leader id epoch ts' =>
    have hold : epochBelow s.state.epoch epoch = false := h
    refine Or.inl ⟨?_, fun _ hv => by cases hv⟩
    simp only [Service.handle, handleLeader, hold]
    exact hs
  | newConnection id host port manager => exact Or.inl ⟨hs, fun _ hv => by cases hv⟩
  | nodeDisconnected id => exact Or.inl ⟨hs, fun _ hv => by cases hv⟩
  | clusterState rcpt st => exact Or.inl ⟨hs, fun _ hv => by cases hv⟩
  | heartbeat id hid ts' => exact Or.inl ⟨hs, fun _ hv => by cases hv⟩
  | getClusterState id => exact Or.inl ⟨hs, fun _ hv => by cases hv⟩
  | removePartitionFromReplica id replicaId partitionId =>
    exact Or.inl ⟨hs, fun _ hv => by cases hv⟩

/-- What a leader of epoch `e` is. -/
structure Leads (s : Service) (e : ℕ) : Prop where
  elections : s.elections = ∅
  leader : s.state.electedLeaderId = some s.me.id
  epoch : s.state.epoch = some e

/-- **A leader stays one** through mild messages, while it knows another
manager. -/
theorem Leads.handle (hl : Leads s e) (h : Mild s e ts msg) (hself : Knows s.state s.me.id)
    {other : NodeId} (hother : Knows s.state other) (hne : other ≠ s.me.id) :
    Leads (s.handle msg r).1 e := by
  obtain ⟨helections, hleader, hepoch⟩ := hl
  cases msg with
  | voteRequest id epoch ts' =>
    have hbelow : epochBelow s.state.epoch epoch = false := by
      have := h.1
      rw [hepoch, Bool.eq_false_iff, ne_eq, epochBelow_some]
      omega
    refine ⟨?_, hleader, hepoch⟩
    simp only [Service.handle, handleVoteRequest, hbelow]
    exact helections
  | voteResponse id leaderId ts' =>
    have hnone : approvedElection s.elections s.me leaderId ts' = none := by
      rw [helections]
      rfl
    simp only [Service.handle, handleVoteResponse, hnone]
    split <;> exact ⟨helections, hleader, hepoch⟩
  | leader id epoch ts' =>
    have hold : epochBelow s.state.epoch epoch = false := h
    simp only [Service.handle, handleLeader, hold]
    exact ⟨helections, hleader, hepoch⟩
  | clusterState rcpt st =>
    have hrefused : accepts s.state st.epoch st.leaderId = false := h
    simp only [Service.handle, handleClusterState, hrefused]
    exact ⟨helections, hleader, hepoch⟩
  | newConnection id host port manager =>
    cases id with
    | none => exact ⟨helections, hleader, hepoch⟩
    | some id => exact ⟨helections, hleader, hepoch⟩
  | nodeDisconnected id =>
    have hgone : ¬ Knows s.state id := h
    simp only [Service.handle, handleNodeDisconnected]
    split
    · refine ⟨helections, ?_, hepoch⟩
      have hkept : ∀ {n : NodeId}, Knows s.state n → n ∈ s.state.nodes.erase id := by
        intro n hn
        have hid : id ≠ n := fun heq => hgone (heq ▸ hn)
        rw [Std.ExtTreeMap.mem_iff_isSome_getElem?, Std.ExtTreeMap.getElem?_erase,
          if_neg (by rwa [compare_eq_iff_eq]), ← Option.isSome_map (f := Node.nodeType)]
        rw [Knows] at hn
        rw [hn]
        rfl
      have hsize := size_ne_one (hkept hself) (hkept hother) (Ne.symm hne)
      have hleft : some id ≠ s.state.electedLeaderId := by
        rw [hleader]
        intro heq
        exact hgone (Option.some.inj heq ▸ hself)
      simp only [hleft, hsize, or_self, if_false]
      exact hleader
    · exact ⟨helections, hleader, hepoch⟩
  | heartbeat id hid ts' =>
    simp only [Service.handle, handleHeartbeat]
    split
    · exact ⟨helections, hleader, hepoch⟩
    · exact ⟨helections, hleader, hepoch⟩
  | getClusterState id => exact ⟨helections, hleader, hepoch⟩
  | removePartitionFromReplica id replicaId partitionId => exact ⟨helections, hleader, hepoch⟩

/-! ## The tick -/

/-- A tick before the timeout lets an election go on. -/
theorem running_tick (hs : s.elections = single e (.mine ts approvers))
    (hclock : r.electionNow ≤ addU64 ts r.electionRandom) :
    (s.tick r).1.elections = single e (.mine ts approvers) := by
  have hstart : startNew (single e (.mine ts approvers)) r.electionNow r.electionRandom = false :=
    decide_eq_false (Nat.not_lt.mpr hclock)
  simp only [Service.tick, startElectionIfNeeded, hs]
  split
  · rw [if_neg (by simp [hstart])]
  · rfl

theorem Leads.tick (hl : Leads s e) : Leads (s.tick r).1 e := by
  have hbeat : (heartbeats s.state s.me r.heartbeatNow r.heartbeatRandom).1.electedLeaderId =
      some s.me.id := heartbeats_leader_of_me _ _ hl.leader
  refine ⟨?_, ?_, ?_⟩
  · simp only [Service.tick, startElectionIfNeeded, hbeat]
    exact hl.elections
  · simpa only [Service.tick, workerPartitions_leader] using hbeat
  · rw [tick_epoch]
    exact hl.epoch

/-! ## The run of a candidate -/

/-- **What leaves the election of `X` alone**: whatever the others do; what
`X` hears is mild, and its timeout has not run out. -/
structure Undisturbed (X : NodeId) (e ts : ℕ) (c : Cluster) (a : Action) : Prop where
  mild : a.actor = X → ∀ msg ∈ a.input.1, Mild (c.managers X) e ts msg
  clock : a.actor = X → a.input.2.electionNow ≤ addU64 ts a.input.2.electionRandom

/-- **A candidate, or a leader**: it has counted the votes of all that
have voted, and more are missing; or it leads, and has told the others. -/
structure Candidate (X : NodeId) (e ts : ℕ) (others : Finset NodeId) (voted : NodeId → Prop)
    (c : Cluster) : Prop where
  me : (c.managers X).me.id = X
  self : Knows (c.managers X).state X
  known : ∀ n, n ∈ others ↔ n ≠ X ∧ Knows (c.managers X).state n
  stands : (∃ approvers, (c.managers X).elections = single e (.mine ts approvers) ∧
      approvers ⊂ others ∧ ∀ n, voted n → n ∈ approvers) ∨
    (Leads (c.managers X) e ∧ ∀ n ∈ others, (n, .leader X e ts) ∈ c.sent)

/-- A vote that a mild message brings is another manager's. -/
theorem known_of_voteOf (hme : s.me.id = X) (h : Mild s e ts msg) {id : NodeId}
    (hvote : voteOf X ts msg = some id) : id ≠ X ∧ Knows s.state id := by
  cases msg with
  | voteResponse id' leaderId ts' =>
    dsimp only [voteOf] at hvote
    split at hvote
    · rename_i hboth
      cases hvote
      rw [← hme] at hboth ⊢
      exact h hboth.1 hboth.2
    · cases hvote
  | _ => cases hvote

/-- The votes of a turn of `X`. -/
def brings (X : NodeId) (ts : ℕ) (a : Action) (n : NodeId) : Prop :=
  a.actor = X ∧ ∃ msg ∈ a.input.1, voteOf X ts msg = some n

theorem Candidate.handle {voted : NodeId → Prop} (hc : Candidate X e ts others voted c)
    (hne : others.Nonempty) (hmild : Mild (c.managers X) e ts msg) :
    Candidate X e ts others (fun n => voted n ∨ voteOf X ts msg = some n)
      (c.apply X ((c.managers X).handle msg r).1 ((c.managers X).handle msg r).2) := by
  obtain ⟨hme, hself, hknown, hstands⟩ := hc
  refine ⟨by rw [managers_apply_self, handle_me]; exact hme, ?_, fun n => ?_, ?_⟩
  · rw [managers_apply_self, knows_handle hmild]
    exact hself
  · rw [managers_apply_self, knows_handle hmild]
    exact hknown n
  rw [managers_apply_self]
  rcases hstands with ⟨approvers, hs, hmissing, hcounted⟩ | ⟨hleads, htold⟩
  · rcases running_handle (r := r) hs hmild with ⟨hgoes, hmore⟩ | ⟨hnone, hleader, hepoch, houts⟩
    · rw [hme] at hgoes hmore
      refine Or.inl ⟨_, hgoes, ?_, fun n hn => ?_⟩
      · cases hvote : voteOf X ts msg with
        | none => exact hmissing
        | some id =>
          have hid : id ∈ others := (hknown id).2 (known_of_voteOf hme hmild hvote)
          refine (Finset.insert_subset hid hmissing.subset).ssubset_of_ne fun heq => ?_
          have hall : unanimous (c.managers X).state (c.managers X).me others = true :=
            unanimous_iff.2 (by rw [hme]; exact hknown)
          have hfew := hmore id hvote
          rw [show insert id approvers = others from heq, hall] at hfew
          cases hfew
      · rcases hn with hn | hn
        · have hin := hcounted n hn
          cases voteOf X ts msg with
          | none => exact hin
          | some id => exact Finset.mem_insert_of_mem hin
        · rw [hn]
          exact Finset.mem_insert_self n approvers
    · refine Or.inr ⟨⟨hnone, by rw [handle_me]; exact hleader, hepoch⟩, fun n hn => ?_⟩
      obtain ⟨hnX, hknows⟩ := (hknown n).1 hn
      have hmem : n ∈ (c.managers X).state.nodes := by
        rw [Std.ExtTreeMap.mem_iff_isSome_getElem?, ← Option.isSome_map (f := Node.nodeType)]
        rw [Knows] at hknows
        rw [hknows]
        rfl
      refine mem_sent_apply.2 (Or.inr ⟨.leader n e ts, ?_, rfl⟩)
      rw [houts]
      exact List.mem_map.2 ⟨n, mem_otherNodes.2 ⟨hmem, by rw [hme]; exact hnX⟩, rfl⟩
  · obtain ⟨other, hother⟩ := hne
    obtain ⟨hneX, hknows⟩ := (hknown other).1 hother
    refine Or.inr ⟨hleads.handle hmild (by rw [hme]; exact hself) hknows (by rw [hme]; exact hneX),
      fun n hn => sent_subset_apply (htold n hn)⟩

theorem Candidate.tick {voted : NodeId → Prop} (hc : Candidate X e ts others voted c)
    (hclock : r.electionNow ≤ addU64 ts r.electionRandom) :
    Candidate X e ts others voted
      (c.apply X ((c.managers X).tick r).1 ((c.managers X).tick r).2) := by
  obtain ⟨hme, hself, hknown, hstands⟩ := hc
  refine ⟨by rw [managers_apply_self, tick_me]; exact hme, ?_, fun n => ?_, ?_⟩
  · rw [managers_apply_self, knows_tick]
    exact hself
  · rw [managers_apply_self, knows_tick]
    exact hknown n
  rw [managers_apply_self]
  rcases hstands with ⟨approvers, hs, hmissing, hcounted⟩ | ⟨hleads, htold⟩
  · exact Or.inl ⟨approvers, running_tick hs hclock, hmissing, hcounted⟩
  · exact Or.inr ⟨hleads.tick, fun n hn => sent_subset_apply (htold n hn)⟩

/-- **One action keeps the candidate**, and counts the vote it brings. -/
theorem Candidate.act {voted : NodeId → Prop} {a : Action} (hc : Candidate X e ts others voted c)
    (hne : others.Nonempty) (ha : Undisturbed X e ts c a) :
    Candidate X e ts others (fun n => voted n ∨ brings X ts a n) (c.act a) := by
  by_cases hactor : a.actor = X
  swap
  · obtain ⟨hme, hself, hknown, hstands⟩ := hc
    have hsame : (c.act a).managers X = c.managers X := managers_apply_of_ne (Ne.symm hactor)
    refine ⟨by rw [hsame]; exact hme, by rw [hsame]; exact hself,
      fun n => by rw [hsame]; exact hknown n, ?_⟩
    rw [hsame]
    rcases hstands with ⟨approvers, hs, hmissing, hcounted⟩ | ⟨hleads, htold⟩
    · refine Or.inl ⟨approvers, hs, hmissing, fun n hn => ?_⟩
      exact hn.elim (hcounted n) fun hbrings => absurd hbrings.1 hactor
    · exact Or.inr ⟨hleads, fun n hn => sent_subset_act c a (htold n hn)⟩
  have hclock := ha.clock hactor
  cases hinput : a.input.1 with
  | none =>
    have hact : c.act a =
        c.apply X ((c.managers X).tick a.input.2).1 ((c.managers X).tick a.input.2).2 := by
      rw [Cluster.act, Service.turn, output, hinput, hactor]
    rw [hact]
    have htick := hc.tick hclock
    refine ⟨htick.me, htick.self, htick.known, htick.stands.imp_left ?_⟩
    rintro ⟨approvers, hs, hmissing, hcounted⟩
    refine ⟨approvers, hs, hmissing, fun n hn => ?_⟩
    rcases hn with hn | ⟨-, msg, hmsg, -⟩
    · exact hcounted n hn
    · rw [hinput] at hmsg
      cases hmsg
  | some msg =>
    have hact : c.act a = (c.apply X ((c.managers X).handle msg a.input.2).1
        ((c.managers X).handle msg a.input.2).2).apply X
          (((c.managers X).handle msg a.input.2).1.tick a.input.2).1
          (((c.managers X).handle msg a.input.2).1.tick a.input.2).2 := by
      rw [apply_apply, Cluster.act, Service.turn, output, hinput, hactor]
      rfl
    have hhandled := (hc.handle (r := a.input.2) hne
      (ha.mild hactor msg hinput)).tick hclock
    rw [managers_apply_self] at hhandled
    rw [hact]
    refine ⟨hhandled.me, hhandled.self, hhandled.known, hhandled.stands.imp_left ?_⟩
    rintro ⟨approvers, hs, hmissing, hcounted⟩
    refine ⟨approvers, hs, hmissing, fun n hn => hcounted n (hn.imp_right ?_)⟩
    rintro ⟨-, msg', hmsg', hvote⟩
    rw [hinput] at hmsg'
    cases hmsg'
    exact hvote

theorem candidate_run {voted : NodeId → Prop} {actions : List Action}
    (hc : Candidate X e ts others voted c) (hne : others.Nonempty)
    (hok : Along Cluster.act (Undisturbed X e ts) c actions) :
    Candidate X e ts others (fun n => voted n ∨ ∃ a ∈ actions, brings X ts a n)
      (run Cluster.act c actions) := by
  induction actions generalizing c voted with
  | nil =>
    refine ⟨hc.me, hc.self, hc.known, hc.stands.imp_left ?_⟩
    rintro ⟨approvers, hs, hmissing, hcounted⟩
    refine ⟨approvers, hs, hmissing, fun n hn => hcounted n (hn.resolve_right ?_)⟩
    rintro ⟨a, ha, -⟩
    cases ha
  | cons a actions ih =>
    obtain ⟨ha, hrest⟩ := along_cons.1 hok
    obtain ⟨hme, hself, hknown, hstands⟩ := ih (hc.act hne ha) hrest
    refine ⟨hme, hself, hknown, hstands.imp_left ?_⟩
    rintro ⟨approvers, hs, hmissing, hcounted⟩
    refine ⟨approvers, hs, hmissing, fun n hn => hcounted n ?_⟩
    rcases hn with hn | ⟨b, hb, hbrings⟩
    · exact Or.inl (Or.inl hn)
    · rcases List.mem_cons.1 hb with rfl | hb
      · exact Or.inl (Or.inr hbrings)
      · exact Or.inr ⟨b, hb, hbrings⟩

/-! ## The round -/

/-- A willing voter votes. -/
theorem vote_given (h : Willing (c.managers n) e ts) :
    (X, .voteResponse n X ts) ∈ (c.act (.deliver n (.voteRequest X e ts) r)).sent := by
  refine mem_sent_apply.2 (Or.inr ⟨.voteResponse X X ts, ?_, rfl⟩)
  refine List.mem_append_left _ ?_
  show .voteResponse X X ts ∈
    (handleVoteRequest (c.managers n).state (c.managers n).elections X e ts).2
  rw [handleVoteRequest, if_pos h.1, if_pos h.2]
  exact List.mem_singleton_self _

/-- **An undisturbed election ends with its candidate as the leader.** A
candidate that knows another manager has called an election, and nobody
has voted yet. Along every run that leaves the election alone, whatever
else happens in the cluster: each manager that handles the candidate's
request while it is willing has voted for it; and once the candidate has
handled the votes of all the managers it knew, in any order, it leads the
epoch it asked for and has told every one of them. -/
theorem undisturbed_election_elects (c : Cluster) (X : NodeId) (e ts : ℕ)
    (hme : (c.managers X).me.id = X) (hself : Knows (c.managers X).state X)
    (hother : ∃ n, n ≠ X ∧ Knows (c.managers X).state n)
    (hcalled : (c.managers X).elections = single e (.mine ts ∅)) (actions : List Action)
    (hok : Along Cluster.act (Undisturbed X e ts) c actions) :
    let c' := run Cluster.act c actions
    (∀ n before r after, actions = before ++ .deliver n (.voteRequest X e ts) r :: after →
      Willing ((run Cluster.act c before).managers n) e ts →
        (X, .voteResponse n X ts) ∈ c'.sent) ∧
    ((∀ n, n ≠ X → Knows (c.managers X).state n →
        ∃ r, .deliver X (.voteResponse n X ts) r ∈ actions) →
      (c'.managers X).state.electedLeaderId = some X ∧
        (c'.managers X).state.epoch = some e ∧
        ∀ n, n ≠ X → Knows (c'.managers X).state n → (n, .leader X e ts) ∈ c'.sent) := by
  intro c'
  refine ⟨fun n before r after hactions hwilling => ?_, fun hvotes => ?_⟩
  · have hc' : c' = run Cluster.act ((run Cluster.act c before).act
        (.deliver n (.voteRequest X e ts) r)) after := by
      show run Cluster.act c actions = _
      rw [hactions, run_append, run_cons]
    rw [hc']
    exact sent_subset_run _ after (vote_given hwilling)
  · let others := ((c.managers X).state.otherManagers (c.managers X).me).toFinset
    have hknown : ∀ n, n ∈ others ↔ n ≠ X ∧ Knows (c.managers X).state n := by
      intro n
      rw [List.mem_toFinset, mem_otherManagers, hme, Knows]
    obtain ⟨other, hother⟩ := hother
    have hne : others.Nonempty := ⟨other, (hknown other).2 hother⟩
    have hstart : Candidate X e ts others (fun _ => False) c := by
      refine ⟨hme, hself, hknown, Or.inl ⟨∅, hcalled, Finset.empty_ssubset.2 hne, ?_⟩⟩
      exact fun _ h => h.elim
    obtain ⟨hme', -, hknown', hstands⟩ := candidate_run hstart hne hok
    rcases hstands with ⟨approvers, -, hmissing, hcounted⟩ | ⟨hleads, htold⟩
    · -- Whoever is missing has voted, and was counted.
      obtain ⟨n, hn, hnot⟩ := Finset.exists_of_ssubset hmissing
      obtain ⟨hnX, hknows⟩ := (hknown n).1 hn
      obtain ⟨r, hin⟩ := hvotes n hnX hknows
      have hbrings : brings X ts (.deliver X (.voteResponse n X ts) r) n :=
        ⟨rfl, _, rfl, if_pos ⟨rfl, rfl⟩⟩
      exact absurd (hcounted n (Or.inr ⟨_, hin, hbrings⟩)) hnot
    · have hleader := hleads.leader
      rw [hme'] at hleader
      exact ⟨hleader, hleads.epoch, fun n hnX hknows => htold n ((hknown' n).2 ⟨hnX, hknows⟩)⟩

/-- Manager 1 has met manager 2 and called an election. -/
def oneCalls : Cluster := run Cluster.act bootedCluster (oneIsAsked.take 1)

theorem undisturbed_oneCalls :
    Along Cluster.act (Undisturbed ⟨1⟩ 1 5) oneCalls (oneIsAsked.drop 1) := by
  have hother : ∀ {c : Cluster} {a : Action}, a.actor ≠ ⟨1⟩ → Undisturbed ⟨1⟩ 1 5 c a :=
    fun h => ⟨fun ha => absurd ha h, fun ha => absurd ha h⟩
  refine ⟨hother (by decide), hother (by decide), ⟨fun _ msg hmsg => ?_, fun _ => by decide⟩,
    ⟨fun _ msg hmsg => ?_, fun _ => by decide⟩, trivial⟩
  · cases hmsg
    intro _ _
    exact ⟨by decide, by show _ = _; decide +kernel⟩
  · cases hmsg
    trivial

theorem undisturbed_election_elects_oneCalls :
    ((run Cluster.act oneCalls (oneIsAsked.drop 1)).managers ⟨1⟩).state.electedLeaderId =
        some ⟨1⟩ ∧
      (⟨1⟩, .voteResponse ⟨2⟩ ⟨1⟩ 5) ∈ (run Cluster.act oneCalls (oneIsAsked.drop 1)).sent := by
  have hknows : Knows (oneCalls.managers ⟨1⟩).state ⟨2⟩ := by show _ = _; decide +kernel
  have hround := undisturbed_election_elects oneCalls ⟨1⟩ 1 5 rfl (by show _ = _; decide +kernel)
    ⟨⟨2⟩, by decide, hknows⟩ rfl (oneIsAsked.drop 1) undisturbed_oneCalls
  refine ⟨(hround.2 fun n hn hk => ?_).1,
    hround.1 ⟨2⟩ ((oneIsAsked.drop 1).take 1) ⟨20, 20, 500, 20, 500, 1⟩ (oneIsAsked.drop 3) rfl
      (by decide +kernel)⟩
  have hlisted :
      (oneCalls.managers ⟨1⟩).state.otherManagers (oneCalls.managers ⟨1⟩).me = [⟨2⟩] := by
    decide +kernel
  have hmem : n ∈ (oneCalls.managers ⟨1⟩).state.otherManagers (oneCalls.managers ⟨1⟩).me :=
    mem_otherManagers.2 ⟨hn, hk⟩
  rw [hlisted, List.mem_singleton] at hmem
  subst hmem
  exact ⟨⟨30, 30, 500, 30, 500, 1⟩, by simp [oneIsAsked]⟩

end Election

end NoSqlStore
