import NoSqlStore.Election.Moves
/-!
# Election agreement

A manager that wins an epoch has the approval of every other manager. So
if two managers won one epoch, each approved the other, and it did so
while its own candidacy was not alive: approving replaces it, and a winner
approves nobody at the epoch it won. Each approval is then older than the
approver's own request, which the other's approval follows: a cycle.
`Inv.exclusive` is this argument as an invariant; every decision on record
is one that was won (`Sound.leader`, `Legit`), so agreement follows from
the winner of an epoch being one (`won_unique`). An epoch is a `u64`: after
the last one the numbers start again, but its winner leads for good, and
whoever calls an election past it does so in vain (`Inv.ahead`).
-/

namespace NoSqlStore

namespace Election

open Manager Runs

variable {M : Finset NodeId} {sent sent' : List Packet} {c : Cluster} {m X Y : NodeId}
  {s s' : Service} {outs : List ManagerProtocol} {e ts : ℕ}

/-! ## One entry in the election table -/

/-- The table of one election. -/
def single (e : ℕ) (x : Manager.Election) : Elections := (∅ : Elections).insert e x

theorem lastKeyValue_single (e : ℕ) (x : Manager.Election) :
    lastKeyValue (single e x) = some (e, x) := rfl

theorem single_inj {e e' : ℕ} {x x' : Manager.Election} (h : single e x = single e' x') :
    e = e' ∧ x = x' := by
  have := congrArg lastKeyValue h
  rw [lastKeyValue_single, lastKeyValue_single] at this
  cases this
  exact ⟨rfl, rfl⟩

theorem single_ne_empty (e : ℕ) (x : Manager.Election) : single e x ≠ ∅ := by
  intro h
  have := congrArg lastKeyValue h
  rw [lastKeyValue_single] at this
  cases this

theorem insert_single (e : ℕ) (x x' : Manager.Election) :
    Std.ExtTreeMap.insert (single e x) e x' = single e x' := by
  refine Std.ExtTreeMap.ext_getElem? fun k => ?_
  simp only [single, Std.ExtTreeMap.getElem?_insert]
  split <;> rfl

theorem getElem?_single {e k : ℕ} {x y : Manager.Election} (h : (single e x)[k]? = some y) :
    e = k ∧ x = y := by
  rw [single, Std.ExtTreeMap.getElem?_insert] at h
  split at h
  · rename_i heq
    exact ⟨compare_eq_iff_eq.mp heq, Option.some.inj h⟩
  · cases h

/-! ## The invariant -/

/-- **The election a manager takes part in is on record**: its own was
requested and its approvers approved it, or it approved the candidate, who
asked. -/
inductive Consistent (sent : List Packet) (me : NodeId) : Elections → Prop
  | none : Consistent sent me ∅
  | mine (e ts : ℕ) (approvers : Finset NodeId) (hreq : Requested sent me e ts)
      (happ : ∀ y ∈ approvers, Approved sent y me ts) :
      Consistent sent me (single e (.mine ts approvers))
  | other (e ts : ℕ) (cand : NodeId) (hreq : Requested sent cand e ts)
      (happ : Approved sent me cand ts) : Consistent sent me (single e (.other ts cand))

/-- The last epoch a `u64` counts. -/
def lastEpoch : ℕ := 2 ^ 64 - 1

/-- **A winner is past the epochs it won**, at one that was won, and who
wins the last epoch goes on leading. -/
structure Settled (sent : List Packet) (s : Service) (e : ℕ) : Prop where
  past : ∃ e₀, s.state.epoch = some e₀ ∧ e ≤ e₀ ∧ ∃ l ts₀, Won sent l e₀ ts₀
  leads : e = lastEpoch → s.state.electedLeaderId = some s.me.id

/-- What holds of one manager, given what has been sent. -/
structure Sound (M : Finset NodeId) (sent : List Packet) (s : Service) : Prop where
  known : ∀ n ∈ M, Knows s.state n
  elections : Consistent sent s.me.id s.elections
  settled : ∀ e ts, Won sent s.me.id e ts → Settled sent s e
  /-- The decision on record was won. -/
  leader : ∀ l, s.state.electedLeaderId = some l →
    ∃ e ts, s.state.epoch = some e ∧ Won sent l e ts

/-- A candidacy that is alive or has won. -/
def Active (c : Cluster) (X : NodeId) (e ts : ℕ) : Prop :=
  (∃ approvers, (c.managers X).elections = single e (.mine ts approvers)) ∨ Won c.sent X e ts

/-- **No one can win the candidacy** of `X` called at `ts`: the winner of
the last epoch has not approved it, and approves nothing any more. -/
def Hopeless (M : Finset NodeId) (sent : List Packet) (X : NodeId) (ts : ℕ) : Prop :=
  ∃ Z ∈ M, Z ≠ X ∧ (∃ ts₀, Won sent Z lastEpoch ts₀) ∧ ¬ Approved sent Z X ts

/-- **The invariant of a cluster.** -/
structure Inv (M : Finset NodeId) (c : Cluster) : Prop where
  id : ∀ m ∈ M, (c.managers m).me.id = m
  sound : ∀ m ∈ M, Sound M c.sent (c.managers m)
  legit : ∀ dst msg, (dst, msg) ∈ c.sent → Legit M c.sent msg
  bounded : ∀ X e ts, Requested c.sent X e ts → e < 2 ^ 64
  /-- A winner is a candidate for later epochs only, or in vain. -/
  ahead : ∀ X ∈ M, ∀ e ts, Won c.sent X e ts → ∀ e' ts' approvers,
    (c.managers X).elections = single e' (.mine ts' approvers) →
      e < e' ∨ Hopeless M c.sent X ts'
  requestUnique : ∀ X e e' ts, Requested c.sent X e ts → Requested c.sent X e' ts → e = e'
  approvedRequested : ∀ Y X ts, Approved c.sent Y X ts → ∃ e, Requested c.sent X e ts
  won : ∀ X e ts, Won c.sent X e ts → X ∈ M ∧ Requested c.sent X e ts ∧
    ∀ Z ∈ M, Z ≠ X → Approved c.sent Z X ts
  /-- Of two candidacies for one epoch whose candidates approved each
  other, one is dead. -/
  exclusive : ∀ X ∈ M, ∀ Y ∈ M, X ≠ Y → ∀ e tsX tsY,
    Requested c.sent X e tsX → Requested c.sent Y e tsY →
    Approved c.sent Y X tsX → Approved c.sent X Y tsY →
    ¬ (Active c X e tsX ∧ Active c Y e tsY)

/-! ## What is sent stays sent -/

theorem Requested.mono (hsub : sent ⊆ sent') (h : Requested sent X e ts) :
    Requested sent' X e ts := h.imp fun _ hin => hsub hin

theorem Approved.mono (hsub : sent ⊆ sent') (h : Approved sent Y X ts) : Approved sent' Y X ts :=
  h.imp fun _ hin => hsub hin

theorem Won.mono (hsub : sent ⊆ sent') (h : Won sent X e ts) : Won sent' X e ts :=
  h.imp fun _ hin => hsub hin

theorem Consistent.mono {elections : Elections} (hsub : sent ⊆ sent')
    (h : Consistent sent X elections) : Consistent sent' X elections := by
  cases h with
  | none => exact .none
  | mine e ts approvers hreq happ =>
    exact .mine e ts approvers (hreq.mono hsub) fun y hy => (happ y hy).mono hsub
  | other e ts cand hreq happ => exact .other e ts cand (hreq.mono hsub) (happ.mono hsub)

/-- An own candidacy that is the last election is the only one. -/
theorem Consistent.mine_of_last {elections : Elections} {approvers : Finset NodeId}
    (h : Consistent sent X elections)
    (hlast : lastKeyValue elections = some (e, .mine ts approvers)) :
    elections = single e (.mine ts approvers) ∧ Requested sent X e ts ∧
      ∀ y ∈ approvers, Approved sent y X ts := by
  cases h with
  | none => cases hlast
  | other => cases hlast
  | mine e' ts' approvers' hreq happ =>
    cases hlast
    exact ⟨rfl, hreq, happ⟩

/-- A vote on record has been given. -/
theorem Consistent.approved_of_vote {elections : Elections} {cand : NodeId}
    (h : Consistent sent X elections) (hvote : elections[e]? = some (.other ts cand)) :
    Approved sent X cand ts := by
  cases h with
  | none => cases hvote
  | mine => cases (getElem?_single hvote).2
  | other e' ts' cand' _ happ =>
    cases (getElem?_single hvote).2
    exact happ

/-- The election is no part of it. -/
theorem Settled.of_same (h : Settled sent s e) (hme : s'.me = s.me) (hstate : s'.state = s.state) :
    Settled sent s' e :=
  ⟨hstate ▸ h.past, by rw [hme, hstate]; exact h.leads⟩

theorem Settled.mono (hsub : sent ⊆ sent') (h : Settled sent s e) : Settled sent' s e := by
  obtain ⟨e₀, he₀, hle, l, ts₀, hw⟩ := h.past
  exact ⟨⟨e₀, he₀, hle, l, ts₀, hw.mono hsub⟩, h.leads⟩

/-- A manager that does not win stays sound while others send. -/
theorem Sound.mono (hsub : sent ⊆ sent') (hwon : ∀ e ts, Won sent' s.me.id e ts →
    Won sent s.me.id e ts) (h : Sound M sent s) : Sound M sent' s := by
  refine ⟨h.known, h.elections.mono hsub, fun e ts hw => (h.settled e ts (hwon e ts hw)).mono hsub,
    ?_⟩
  intro l hl
  obtain ⟨e, ts, he, hw⟩ := h.leader l hl
  exact ⟨e, ts, he, hw.mono hsub⟩

theorem Legit.mono {msg : ManagerProtocol} (hsub : sent ⊆ sent') (h : Legit M sent msg) :
    Legit M sent' msg := by
  cases msg with
  | clusterState rcpt st => exact ⟨h.1.imp fun _ hw => hw.mono hsub, h.2⟩
  | voteRequest id e ts => exact Requested.mono hsub h
  | voteResponse id l ts => exact Approved.mono hsub h
  | leader id e ts => exact Won.mono hsub h
  | _ => exact h

/-! ## One move -/

/-- What a move owes the invariant: the manager that moves is sound after
it, the snapshots it sends are of decisions won, and the packets keep
their properties. The others stay sound, since nobody wins for them. -/
theorem Inv.apply (hinv : Inv M c) (hm : m ∈ M) (hme : s'.me.id = m)
    (hsound : Sound M (c.apply m s' outs).sent s')
    (hout : ∀ rcpt st, .clusterState rcpt st ∈ outs →
      Legit M (c.apply m s' outs).sent (.clusterState rcpt st))
    (hbound : ∀ X e ts, Requested (c.apply m s' outs).sent X e ts → e < 2 ^ 64)
    (hahead : ∀ X ∈ M, ∀ e ts, Won (c.apply m s' outs).sent X e ts → ∀ e' ts' approvers,
      ((c.apply m s' outs).managers X).elections = single e' (.mine ts' approvers) →
        e < e' ∨ Hopeless M (c.apply m s' outs).sent X ts')
    (hreq : ∀ X e e' ts, Requested (c.apply m s' outs).sent X e ts →
      Requested (c.apply m s' outs).sent X e' ts → e = e')
    (happ : ∀ Y X ts, Approved (c.apply m s' outs).sent Y X ts →
      ∃ e, Requested (c.apply m s' outs).sent X e ts)
    (hwon : ∀ X e ts, Won (c.apply m s' outs).sent X e ts → X ∈ M ∧
      Requested (c.apply m s' outs).sent X e ts ∧
      ∀ Z ∈ M, Z ≠ X → Approved (c.apply m s' outs).sent Z X ts)
    (hexcl : ∀ X ∈ M, ∀ Y ∈ M, X ≠ Y → ∀ e tsX tsY,
      Requested (c.apply m s' outs).sent X e tsX → Requested (c.apply m s' outs).sent Y e tsY →
      Approved (c.apply m s' outs).sent Y X tsX → Approved (c.apply m s' outs).sent X Y tsY →
      ¬ (Active (c.apply m s' outs) X e tsX ∧ Active (c.apply m s' outs) Y e tsY)) :
    Inv M (c.apply m s' outs) := by
  refine ⟨fun X hX => ?_, fun X hX => ?_, fun dst msg hin => ?_, hbound, hahead, hreq, happ, hwon,
    hexcl⟩
  · by_cases hXm : X = m
    · subst hXm
      rw [managers_apply_self, hme]
    · rw [managers_apply_of_ne hXm, hinv.id X hX]
  · by_cases hXm : X = m
    · subst hXm
      rw [managers_apply_self]
      exact hsound
    · rw [managers_apply_of_ne hXm]
      refine (hinv.sound X hX).mono sent_subset_apply fun e ts hw => ?_
      rw [hinv.id X hX] at hw ⊢
      exact (won_apply.mp hw).resolve_right fun h => hXm h.1
  · rcases mem_sent_apply.mp hin with hold | ⟨o, ho, hroute⟩
    · exact (hinv.legit dst msg hold).mono sent_subset_apply
    · cases o <;> simp only [route, Option.some.injEq, Prod.mk.injEq, reduceCtorEq] at hroute <;>
        obtain ⟨rfl, rfl⟩ := hroute
      · trivial
      · trivial
      · exact hout _ _ ho
      · exact ⟨_, hin⟩
      · exact ⟨_, hin⟩
      · exact ⟨_, hin⟩
      · trivial

/-- A candidacy is active after a move only if it was before it, where the
election in the table of the mover and the victories were. -/
theorem Active.of_apply (h : Active (c.apply m s' outs) X e ts)
    (hmine : ∀ approvers, s'.elections = single e (.mine ts approvers) → X = m → Active c m e ts)
    (hwon : Won (c.apply m s' outs).sent X e ts → Active c X e ts) : Active c X e ts := by
  rcases h with ⟨approvers, hal⟩ | hw
  · by_cases hXm : X = m
    · subst hXm
      rw [managers_apply_self] at hal
      exact hmine approvers hal rfl
    · rw [managers_apply_of_ne hXm] at hal
      exact Or.inl ⟨approvers, hal⟩
  · exact hwon hw

/-- **A move that testifies to nothing new** and revives no candidacy. -/
theorem Inv.apply_of_same_facts (hinv : Inv M c) (hm : m ∈ M) (hme : s'.me.id = m)
    (hsound : Sound M (c.apply m s' outs).sent s')
    (hout : ∀ rcpt st, .clusterState rcpt st ∈ outs →
      Legit M (c.apply m s' outs).sent (.clusterState rcpt st))
    (hreq : ∀ id e ts, .voteRequest id e ts ∉ outs)
    (hlead : ∀ id e ts, .leader id e ts ∉ outs)
    (hvote : ∀ id X ts, .voteResponse id X ts ∈ outs → Approved c.sent m X ts)
    (hact : ∀ e ts approvers, s'.elections = single e (.mine ts approvers) →
      ∃ approvers', (c.managers m).elections = single e (.mine ts approvers')) :
    Inv M (c.apply m s' outs) := by
  have hR : ∀ X e ts, Requested (c.apply m s' outs).sent X e ts ↔ Requested c.sent X e ts := by
    intro X e ts
    rw [requested_apply, or_iff_left]
    rintro ⟨-, id, hin⟩
    exact hreq id e ts hin
  have hA : ∀ Y X ts, Approved (c.apply m s' outs).sent Y X ts ↔ Approved c.sent Y X ts := by
    intro Y X ts
    rw [approved_apply, or_iff_left_of_imp]
    rintro ⟨rfl, id, hin⟩
    exact hvote id X ts hin
  have hW : ∀ X e ts, Won (c.apply m s' outs).sent X e ts ↔ Won c.sent X e ts := by
    intro X e ts
    rw [won_apply, or_iff_left]
    rintro ⟨-, id, hin⟩
    exact hlead id e ts hin
  have hActive : ∀ X e ts, Active (c.apply m s' outs) X e ts → Active c X e ts := by
    intro X e ts h
    exact h.of_apply (fun approvers hal _ => Or.inl (hact e ts approvers hal))
      fun hw => Or.inr ((hW X e ts).mp hw)
  refine hinv.apply hm hme hsound hout ?_ ?_ ?_ ?_ ?_ ?_
  · simp only [hR]
    exact hinv.bounded
  · simp only [Hopeless, hA, hW]
    intro X hX e ts hw e' ts' approvers hal
    by_cases hXm : X = m
    · subst hXm
      rw [managers_apply_self] at hal
      obtain ⟨approvers', hbefore⟩ := hact e' ts' approvers hal
      exact hinv.ahead X hX e ts hw e' ts' approvers' hbefore
    · rw [managers_apply_of_ne hXm] at hal
      exact hinv.ahead X hX e ts hw e' ts' approvers hal
  · simp only [hR]
    exact hinv.requestUnique
  · simp only [hR, hA]
    exact hinv.approvedRequested
  · simp only [hR, hA, hW]
    exact hinv.won
  · simp only [hR, hA]
    intro X hX Y hY hne e tsX tsY h1 h2 h3 h4 hboth
    exact hinv.exclusive X hX Y hY hne e tsX tsY h1 h2 h3 h4
      ⟨hActive _ _ _ hboth.1, hActive _ _ _ hboth.2⟩

/-- The snapshots of a quiet output are legitimate, if the decision on
record was won. -/
theorem legit_of_quiet {state : State} (hquiet : Quiet state outs)
    (hleader : ∀ l, state.electedLeaderId = some l → ∃ e ts, state.epoch = some e ∧ Won sent l e ts)
    (hknown : ∀ n ∈ M, Knows state n) {rcpt : NodeId} {st : ClusterState}
    (hin : .clusterState rcpt st ∈ outs) : Legit M sent (.clusterState rcpt st) := by
  obtain ⟨hl, he, hnodes⟩ := hquiet _ hin
  obtain ⟨e, ts, hepoch, hwon⟩ := hleader _ hl
  refine ⟨⟨ts, ?_⟩, hnodes.imp_right fun hall n hn => hall n ?_⟩
  · rw [he e hepoch]
    exact hwon
  · obtain ⟨node, hnode, -⟩ := Option.map_eq_some_iff.mp (hknown n hn)
    rw [Std.ExtTreeMap.mem_iff_isSome_getElem?, hnode]
    rfl

/-- A quiet move, whether or not it takes a decision over, keeps the
invariant: it is enough that the manager is sound after it. -/
theorem Inv.apply_quiet (hinv : Inv M c) (hm : m ∈ M) (hme : s'.me.id = m)
    (hsound : Sound M c.sent s') (hquiet : Quiet s'.state outs)
    (helections : s'.elections = (c.managers m).elections ∨ s'.elections = ∅) :
    Inv M (c.apply m s' outs) := by
  have hnew : ∀ e ts, Won (c.apply m s' outs).sent s'.me.id e ts → Won c.sent s'.me.id e ts :=
    fun e ts hw => (won_apply.mp hw).resolve_right fun ⟨_, _, hin⟩ => hquiet _ hin
  have hsound' : Sound M (c.apply m s' outs).sent s' := hsound.mono sent_subset_apply hnew
  refine hinv.apply_of_same_facts hm hme hsound' ?_ ?_ ?_ ?_ ?_
  · intro rcpt st hin
    exact legit_of_quiet hquiet hsound'.leader hsound'.known hin
  · exact fun id e ts hin => hquiet _ hin
  · exact fun id e ts hin => hquiet _ hin
  · exact fun id X ts hin => (hquiet _ hin).elim
  · intro e ts approvers hs
    rcases helections with h | h
    · exact ⟨approvers, by rw [← h, hs]⟩
    · rw [h] at hs
      exact absurd hs.symm (single_ne_empty _ _)

/-- Giving a vote. Whoever votes for an epoch has not won it and has no
candidacy left. -/
theorem Inv.apply_approves (hinv : Inv M c) (hm : m ∈ M) (hme : s'.me = (c.managers m).me)
    {id : NodeId} (hreq : Requested c.sent id e ts)
    (hnewer : epochBelow (c.managers m).state.epoch e = true)
    (helections : s'.elections = single e (.other ts id))
    (hstate : s'.state = (c.managers m).state) :
    Inv M (c.apply m s' [.voteResponse id id ts]) := by
  have hid : s'.me.id = m := by rw [hme, hinv.id m hm]
  have hold := hinv.sound m hm
  have hR : ∀ X e' ts', Requested (c.apply m s' [.voteResponse id id ts]).sent X e' ts' ↔
      Requested c.sent X e' ts' := by
    intro X e' ts'
    simp [requested_apply]
  have hW : ∀ X e' ts', Won (c.apply m s' [.voteResponse id id ts]).sent X e' ts' ↔
      Won c.sent X e' ts' := by
    intro X e' ts'
    simp [won_apply]
  have hA : ∀ Y X ts', Approved (c.apply m s' [.voteResponse id id ts]).sent Y X ts' ↔
      Approved c.sent Y X ts' ∨ (Y = m ∧ X = id ∧ ts' = ts) := by
    intro Y X ts'
    simp [approved_apply]
  -- the voter is no candidate for an epoch it can still vote in
  have hdead : ∀ ts', ¬ Active (c.apply m s' [.voteResponse id id ts]) m e ts' := by
    rintro ts' (⟨approvers, h⟩ | h)
    · rw [managers_apply_self, helections] at h
      cases (single_inj h).2
    · rw [hW, ← hid, hme] at h
      obtain ⟨e₀, he₀, hle, -⟩ := (hold.settled e ts' h).past
      rw [he₀, epochBelow_some] at hnewer
      omega
  have hActive : ∀ X e' ts', Active (c.apply m s' [.voteResponse id id ts]) X e' ts' →
      Active c X e' ts' := by
    intro X e' ts' h
    refine h.of_apply (fun approvers hal _ => ?_) fun hw => Or.inr ((hW _ _ _).mp hw)
    -- the mover's table holds the election of another
    rw [helections] at hal
    cases (single_inj hal).2
  refine hinv.apply hm hid ⟨?_, ?_, ?_, ?_⟩ ?_ ?_ ?_ ?_ ?_ ?_ ?_
  · rw [hstate]
    exact hold.known
  · rw [helections, hid]
    exact .other e ts id ((hR _ _ _).mpr hreq) ((hA _ _ _).mpr (Or.inr ⟨rfl, rfl, rfl⟩))
  · intro e' ts' hw
    rw [hW, hme] at hw
    exact ((hold.settled e' ts' hw).mono sent_subset_apply).of_same hme hstate
  · intro l hl
    rw [hstate] at hl ⊢
    obtain ⟨e', ts', he', hw⟩ := hold.leader l hl
    exact ⟨e', ts', he', (hW _ _ _).mpr hw⟩
  · intro rcpt st hin
    cases List.mem_singleton.mp hin
  · simp only [hR]
    exact hinv.bounded
  · intro X hX e' ts' hw e'' ts'' approvers hal
    by_cases hXm : X = m
    · subst hXm
      rw [managers_apply_self, helections] at hal
      cases (single_inj hal).2
    · rw [managers_apply_of_ne hXm] at hal
      rw [hW] at hw
      refine (hinv.ahead X hX e' ts' hw e'' ts'' approvers hal).imp_right ?_
      rintro ⟨Z, hZ, hZX, ⟨ts₀, hlast⟩, hnever⟩
      refine ⟨Z, hZ, hZX, ⟨ts₀, (hW _ _ _).mpr hlast⟩, fun ha => ?_⟩
      rcases (hA _ _ _).mp ha with ha | ⟨rfl, rfl, rfl⟩
      · exact hnever ha
      · -- who has won the last epoch has no newer one to vote for
        rw [← hid, hme] at hlast
        obtain ⟨e₀, he₀, hle, -⟩ := (hold.settled _ _ hlast).past
        have hbound := hinv.bounded _ _ _ hreq
        rw [he₀, epochBelow_some] at hnewer
        unfold lastEpoch at hle
        omega
  · simp only [hR]
    exact hinv.requestUnique
  · intro Y X ts' h
    simp only [hR]
    rcases (hA _ _ _).mp h with h | ⟨rfl, rfl, rfl⟩
    · exact hinv.approvedRequested Y X ts' h
    · exact ⟨e, hreq⟩
  · intro X e' ts' h
    rw [hW] at h
    obtain ⟨h1, h2, h3⟩ := hinv.won X e' ts' h
    exact ⟨h1, (hR _ _ _).mpr h2, fun Z hZ hne => (hA _ _ _).mpr (Or.inl (h3 Z hZ hne))⟩
  · intro X hX Y hY hne e' tsX tsY h1 h2 h3 h4 hboth
    rw [hR] at h1 h2
    rcases (hA _ _ _).mp h3 with h3 | ⟨rfl, rfl, rfl⟩
    · rcases (hA _ _ _).mp h4 with h4 | ⟨rfl, rfl, rfl⟩
      · exact hinv.exclusive X hX Y hY hne e' tsX tsY h1 h2 h3 h4
          ⟨hActive _ _ _ hboth.1, hActive _ _ _ hboth.2⟩
      · obtain rfl := hinv.requestUnique _ _ _ _ h2 hreq
        exact hdead tsX hboth.1
    · obtain rfl := hinv.requestUnique _ _ _ _ h1 hreq
      exact hdead tsY hboth.2

/-- The approvals behind an election that is complete. -/
theorem approved_of_unanimous (hinv : Inv M c) (hm : m ∈ M) {id : NodeId}
    {approvers : Finset NodeId} (happ : Approved c.sent id m ts)
    (hmine : (c.managers m).elections = single e (.mine ts approvers))
    (hunan : ∀ n, n ≠ m → Knows (c.managers m).state n → n ∈ insert id approvers) :
    Requested c.sent m e ts ∧ ∀ Z ∈ M, Z ≠ m → Approved c.sent Z m ts := by
  have hcons := (hinv.sound m hm).elections
  rw [hmine, hinv.id m hm] at hcons
  generalize hel : single e (.mine ts approvers) = elections at hcons
  cases hcons with
  | none => exact absurd hel (single_ne_empty _ _)
  | other => cases (single_inj hel).2
  | mine e' ts' approvers' hreq happ' =>
    obtain ⟨rfl, hx⟩ := single_inj hel
    cases hx
    refine ⟨hreq, fun Z hZ hne => ?_⟩
    rcases Finset.mem_insert.mp (hunan Z hne ((hinv.sound m hm).known Z hZ)) with rfl | hin
    · exact happ
    · exact happ' Z hin

/-- Winning. The candidacy was alive, so no rival gains by it. -/
theorem Inv.apply_wins (hinv : Inv M c) (hM : 1 < M.card) (hm : m ∈ M)
    (hme : s'.me = (c.managers m).me) {id : NodeId} {approvers : Finset NodeId}
    (happ : Approved c.sent id m ts)
    (hmine : (c.managers m).elections = single e (.mine ts approvers))
    (hunan : ∀ n, n ≠ m → Knows (c.managers m).state n → n ∈ insert id approvers)
    (helections : s'.elections = ∅) (hepoch : s'.state.epoch = some e)
    (hleader : s'.state.electedLeaderId = some m)
    (hnodes : s'.state.nodes = (c.managers m).state.nodes) :
    Inv M (c.apply m s'
      (((c.managers m).state.otherNodes (c.managers m).me).map fun key => .leader key e ts)) := by
  have hid : s'.me.id = m := by rw [hme, hinv.id m hm]
  have hold := hinv.sound m hm
  obtain ⟨hreq, hall⟩ := approved_of_unanimous hinv hm happ hmine hunan
  -- another manager is listed, so the victory is announced
  obtain ⟨Z, hZ, hZm⟩ : ∃ Z ∈ M, Z ≠ m := Finset.exists_mem_ne hM m
  have hannounced : Z ∈ (c.managers m).state.otherNodes (c.managers m).me := by
    obtain ⟨node, hnode, -⟩ := Option.map_eq_some_iff.mp (hold.known Z hZ)
    rw [State.otherNodes, List.mem_filter, hinv.id m hm, Std.ExtTreeMap.mem_keys,
      Std.ExtTreeMap.mem_iff_isSome_getElem?, hnode]
    exact ⟨rfl, by simpa using hZm⟩
  generalize houts : (((c.managers m).state.otherNodes (c.managers m).me).map
    fun key => ManagerProtocol.leader key e ts) = outs
  have hR : ∀ X e' ts', Requested (c.apply m s' outs).sent X e' ts' ↔
      Requested c.sent X e' ts' := by
    intro X e' ts'
    simp [requested_apply, ← houts]
  have hA : ∀ Y X ts', Approved (c.apply m s' outs).sent Y X ts' ↔ Approved c.sent Y X ts' := by
    intro Y X ts'
    simp [approved_apply, ← houts]
  have hW : ∀ X e' ts', Won (c.apply m s' outs).sent X e' ts' ↔
      Won c.sent X e' ts' ∨ (X = m ∧ e' = e ∧ ts' = ts) := by
    intro X e' ts'
    rw [won_apply, ← houts]
    refine or_congr_right (and_congr_right fun _ => ?_)
    simp only [List.mem_map, ManagerProtocol.leader.injEq]
    constructor
    · rintro ⟨_, _, _, -, rfl, rfl⟩
      exact ⟨rfl, rfl⟩
    · rintro ⟨rfl, rfl⟩
      exact ⟨Z, Z, hannounced, rfl, rfl, rfl⟩
  have hActive : ∀ X e' ts', Active (c.apply m s' outs) X e' ts' → Active c X e' ts' := by
    intro X e' ts' h
    refine h.of_apply (fun approvers' hal _ => ?_) fun hw => ?_
    · rw [helections] at hal
      exact absurd hal.symm (single_ne_empty _ _)
    · -- the candidacy that has just won was alive
      rcases (hW _ _ _).mp hw with hw | ⟨rfl, rfl, rfl⟩
      · exact Or.inr hw
      · exact Or.inl ⟨approvers, hmine⟩
  refine hinv.apply hm hid ⟨?_, ?_, ?_, ?_⟩ ?_ ?_ ?_ ?_ ?_ ?_ ?_
  · intro n hn
    rw [Knows, hnodes]
    exact hold.known n hn
  · rw [helections]
    exact .none
  · intro e' ts' hw
    have hnow : Won (c.apply m s' outs).sent m e ts := (hW _ _ _).mpr (Or.inr ⟨rfl, rfl, rfl⟩)
    refine ⟨⟨e, hepoch, ?_, m, ts, hnow⟩, fun _ => by rw [hid]; exact hleader⟩
    rw [hid] at hw
    -- an epoch it had won before lies below that of its candidacy, which was not in vain
    rcases (hW _ _ _).mp hw with hw | ⟨-, rfl, -⟩
    · rcases hinv.ahead m hm e' ts' hw e ts approvers hmine with hlt | ⟨Z, hZ, hZm, -, hnever⟩
      · exact hlt.le
      · exact absurd (hall Z hZ hZm) hnever
    · exact le_rfl
  · intro l hl
    rw [hleader] at hl
    cases hl
    exact ⟨e, ts, hepoch, (hW _ _ _).mpr (Or.inr ⟨rfl, rfl, rfl⟩)⟩
  · intro rcpt st hin
    rw [← houts] at hin
    obtain ⟨_, _, h⟩ := List.mem_map.mp hin
    cases h
  · simp only [hR]
    exact hinv.bounded
  · intro X hX e' ts' hw e'' ts'' approvers' hal
    by_cases hXm : X = m
    · subst hXm
      rw [managers_apply_self, helections] at hal
      exact absurd hal.symm (single_ne_empty _ _)
    · rw [managers_apply_of_ne hXm] at hal
      have hbefore := ((hW _ _ _).mp hw).resolve_right fun h => hXm h.1
      refine (hinv.ahead X hX e' ts' hbefore e'' ts'' approvers' hal).imp_right ?_
      rintro ⟨Z, hZ, hZX, ⟨ts₀, hlast⟩, hnever⟩
      exact ⟨Z, hZ, hZX, ⟨ts₀, (hW _ _ _).mpr (Or.inl hlast)⟩, fun ha => hnever ((hA _ _ _).mp ha)⟩
  · simp only [hR]
    exact hinv.requestUnique
  · simp only [hR, hA]
    exact hinv.approvedRequested
  · intro X e' ts' hw
    simp only [hR, hA]
    rcases (hW _ _ _).mp hw with hw | ⟨rfl, rfl, rfl⟩
    · exact hinv.won X e' ts' hw
    · exact ⟨hm, hreq, hall⟩
  · simp only [hR, hA]
    intro X hX Y hY hne e' tsX tsY h1 h2 h3 h4 hboth
    exact hinv.exclusive X hX Y hY hne e' tsX tsY h1 h2 h3 h4
      ⟨hActive _ _ _ hboth.1, hActive _ _ _ hboth.2⟩

/-- An election is called for a later epoch than any its caller has won.
If there is no later one, somebody else leads the last epoch. -/
theorem Inv.ahead_of_starts (hinv : Inv M c) (hm : m ∈ M)
    (hstarts : Starts (c.managers m) s' outs e ts) (hnever : ∀ e', ¬ Requested c.sent m e' ts)
    {e₁ ts₁ : ℕ} (hw : Won c.sent m e₁ ts₁) : e₁ < e ∨ Hopeless M c.sent m ts := by
  have hid := hinv.id m hm
  have hold := hinv.sound m hm
  obtain ⟨e₀, he₀, hle, l, ts₀, hl⟩ := (hold.settled e₁ ts₁ (by rw [hid]; exact hw)).past
  obtain ⟨e₂, he₂, hnewer⟩ := hstarts.newer
  rw [he₀] at he₂
  cases he₂
  rcases hnewer with hlt | hend
  · exact Or.inl (hle.trans_lt hlt)
  · obtain ⟨hlM, hrequested, -⟩ := hinv.won l e₀ ts₀ hl
    obtain rfl : e₀ = lastEpoch := by
      have := hinv.bounded l e₀ ts₀ hrequested
      unfold lastEpoch
      omega
    refine Or.inr ⟨l, hlM, fun heq => ?_, ⟨ts₀, hl⟩, fun ha => ?_⟩
    · -- the winner of the last epoch leads, and calls no election
      rw [heq, ← hid] at hl
      have hleads := (hold.settled _ ts₀ hl).leads rfl
      rw [hstarts.leaderless] at hleads
      cases hleads
    · obtain ⟨e', he'⟩ := hinv.approvedRequested l m ts ha
      exact hnever e' he'

/-- A call adds no vote and no victory. -/
theorem Hopeless.of_apply_starts {ts' : ℕ} (h : Hopeless M c.sent X ts')
    (hstarts : Starts (c.managers m) s' outs e ts) : Hopeless M (c.apply m s' outs).sent X ts' := by
  obtain ⟨Z, hZ, hZX, ⟨ts₀, hlast⟩, hnever⟩ := h
  refine ⟨Z, hZ, hZX, ⟨ts₀, hlast.mono sent_subset_apply⟩, fun ha => hnever ?_⟩
  simpa [approved_apply, hstarts.outs] using ha

/-- Calling an election. Nobody can have approved a request that was not
made before. -/
theorem Inv.apply_starts (hinv : Inv M c) (hM : 1 < M.card) (hm : m ∈ M)
    (hstarts : Starts (c.managers m) s' outs e ts)
    (hfresh : ∀ id e' ts', .voteRequest id e' ts' ∈ outs → ∀ e'', ¬ Requested c.sent m e'' ts') :
    Inv M (c.apply m s' outs) := by
  have hid : s'.me.id = m := by rw [hstarts.me, hinv.id m hm]
  have hold := hinv.sound m hm
  obtain ⟨Z, hZ, hZm⟩ : ∃ Z ∈ M, Z ≠ m := Finset.exists_mem_ne hM m
  have hasked : .voteRequest Z e ts ∈ outs := by
    rw [hstarts.outs]
    exact List.mem_map.mpr ⟨Z, mem_otherManagers.mpr
      ⟨by rw [hinv.id m hm]; exact hZm, hold.known Z hZ⟩, rfl⟩
  -- a request has gone out, so the election is called at a new time
  have hnever := hfresh Z e ts hasked
  have hR : ∀ X e' ts', Requested (c.apply m s' outs).sent X e' ts' ↔
      Requested c.sent X e' ts' ∨ (X = m ∧ e' = e ∧ ts' = ts) := by
    intro X e' ts'
    rw [requested_apply]
    refine or_congr_right (and_congr_right fun _ => ?_)
    constructor
    · rintro ⟨dst, hin⟩
      rw [hstarts.outs] at hin
      obtain ⟨_, _, h⟩ := List.mem_map.mp hin
      cases h
      exact ⟨rfl, rfl⟩
    · rintro ⟨rfl, rfl⟩
      exact ⟨Z, hasked⟩
  have hA : ∀ Y X ts', Approved (c.apply m s' outs).sent Y X ts' ↔ Approved c.sent Y X ts' := by
    intro Y X ts'
    simp [approved_apply, hstarts.outs]
  have hW : ∀ X e' ts', Won (c.apply m s' outs).sent X e' ts' ↔ Won c.sent X e' ts' := by
    intro X e' ts'
    simp [won_apply, hstarts.outs]
  -- an election approved by someone is not the one just called
  have hbefore : ∀ X Y e' ts', Requested (c.apply m s' outs).sent X e' ts' →
      Approved c.sent Y X ts' → Requested c.sent X e' ts' := by
    intro X Y e' ts' hr ha
    refine ((hR _ _ _).mp hr).resolve_right ?_
    rintro ⟨rfl, rfl, rfl⟩
    obtain ⟨e'', hr'⟩ := hinv.approvedRequested Y X ts' ha
    exact hnever e'' hr'
  have hActive : ∀ X e' ts', Requested c.sent X e' ts' →
      Active (c.apply m s' outs) X e' ts' → Active c X e' ts' := by
    intro X e' ts' hr h
    refine h.of_apply (fun approvers hal hXm => ?_) fun hw => Or.inr ((hW _ _ _).mp hw)
    -- the election in the table is the one just called, which nobody has asked for before
    rw [hstarts.elections] at hal
    obtain ⟨rfl, hx⟩ := single_inj hal
    cases hx
    exact absurd (hXm ▸ hr) (hnever e)
  refine hinv.apply hm hid ⟨?_, ?_, ?_, ?_⟩ ?_ ?_ ?_ ?_ ?_ ?_ ?_
  · rw [hstarts.same]
    exact hold.known
  · rw [hstarts.elections, hid]
    exact .mine e ts ∅ ((hR _ _ _).mpr (Or.inr ⟨rfl, rfl, rfl⟩)) fun y hy => by cases hy
  · intro e' ts' hw
    rw [hW, hstarts.me] at hw
    exact ((hold.settled e' ts' hw).mono sent_subset_apply).of_same hstarts.me hstarts.same
  · intro l hl
    rw [hstarts.same] at hl ⊢
    obtain ⟨e', ts', he', hw⟩ := hold.leader l hl
    exact ⟨e', ts', he', (hW _ _ _).mpr hw⟩
  · intro rcpt st hin
    rw [hstarts.outs] at hin
    obtain ⟨_, _, h⟩ := List.mem_map.mp hin
    cases h
  · intro X e' ts' hr
    rcases (hR _ _ _).mp hr with hr | ⟨-, rfl, -⟩
    · exact hinv.bounded X e' ts' hr
    · exact hstarts.bounded
  · intro X hX e' ts' hw e'' ts'' approvers hal
    rw [hW] at hw
    by_cases hXm : X = m
    · subst hXm
      rw [managers_apply_self, hstarts.elections] at hal
      obtain ⟨rfl, hx⟩ := single_inj hal
      cases hx
      exact (hinv.ahead_of_starts hm hstarts hnever hw).imp_right fun h => h.of_apply_starts hstarts
    · rw [managers_apply_of_ne hXm] at hal
      exact (hinv.ahead X hX e' ts' hw e'' ts'' approvers hal).imp_right
        fun h => h.of_apply_starts hstarts
  · intro X e₁ e₂ ts' h1 h2
    rw [hR] at h1 h2
    rcases h1 with h1 | ⟨rfl, rfl, rfl⟩
    · rcases h2 with h2 | ⟨rfl, rfl, rfl⟩
      · exact hinv.requestUnique X e₁ e₂ ts' h1 h2
      · exact absurd h1 (hnever e₁)
    · rcases h2 with h2 | ⟨-, rfl, -⟩
      · exact absurd h2 (hnever e₂)
      · rfl
  · intro Y X ts' h
    rw [hA] at h
    obtain ⟨e', he'⟩ := hinv.approvedRequested Y X ts' h
    exact ⟨e', (hR _ _ _).mpr (Or.inl he')⟩
  · intro X e' ts' hw
    rw [hW] at hw
    obtain ⟨h1, h2, h3⟩ := hinv.won X e' ts' hw
    exact ⟨h1, (hR _ _ _).mpr (Or.inl h2), fun W hW hne => (hA _ _ _).mpr (h3 W hW hne)⟩
  · intro X hX Y hY hne e' tsX tsY h1 h2 h3 h4 hboth
    rw [hA] at h3 h4
    have h1' := hbefore X Y e' tsX h1 h3
    have h2' := hbefore Y X e' tsY h2 h4
    exact hinv.exclusive X hX Y hY hne e' tsX tsY h1' h2' h3 h4
      ⟨hActive _ _ _ h1' hboth.1, hActive _ _ _ h2' hboth.2⟩

/-- Repeating a vote. -/
theorem Inv.apply_repeats (hinv : Inv M c) (hm : m ∈ M) {id cand : NodeId}
    (hvote : (c.managers m).elections[e]? = some (.other ts cand)) :
    Inv M (c.apply m (c.managers m) [.voteResponse id cand ts]) := by
  have hold := hinv.sound m hm
  have happ : Approved c.sent m cand ts := by
    have hcons := hold.elections
    rw [hinv.id m hm] at hcons
    exact hcons.approved_of_vote hvote
  have hnew : ∀ e' ts', Won (c.apply m (c.managers m) [.voteResponse id cand ts]).sent
      (c.managers m).me.id e' ts' → Won c.sent (c.managers m).me.id e' ts' := by
    intro e' ts' hw
    simpa [won_apply] using hw
  refine hinv.apply_of_same_facts hm (hinv.id m hm) (hold.mono sent_subset_apply hnew) ?_ ?_ ?_ ?_
    ?_
  · intro rcpt st hin
    cases List.mem_singleton.mp hin
  · intro id' e' ts' hin
    cases List.mem_singleton.mp hin
  · intro id' e' ts' hin
    cases List.mem_singleton.mp hin
  · intro id' X ts' hin
    cases List.mem_singleton.mp hin
    exact happ
  · exact fun e' ts' approvers h => ⟨approvers, h⟩

/-- Counting a vote while more are missing. -/
theorem Inv.apply_counts (hinv : Inv M c) (hm : m ∈ M) (hme : s'.me = (c.managers m).me)
    {id : NodeId} {approvers : Finset NodeId} (happ : Approved c.sent id m ts)
    (hlast : lastKeyValue (c.managers m).elections = some (e, .mine ts approvers))
    (helections : s'.elections =
      (c.managers m).elections.insert e (.mine ts (insert id approvers)))
    (hstate : s'.state = (c.managers m).state) : Inv M (c.apply m s' []) := by
  have hid : s'.me.id = m := by rw [hme, hinv.id m hm]
  have hold := hinv.sound m hm
  have hcons := hold.elections
  rw [hinv.id m hm] at hcons
  obtain ⟨hmine, hreq, happ'⟩ := hcons.mine_of_last hlast
  have hsingle : s'.elections = single e (.mine ts (insert id approvers)) := by
    rw [helections, hmine]
    exact insert_single e _ _
  have hsound : Sound M c.sent s' := by
    refine ⟨?_, ?_, ?_, ?_⟩
    · rw [hstate]
      exact hold.known
    · rw [hsingle, hid]
      refine .mine e ts _ hreq fun y hy => ?_
      rcases Finset.mem_insert.mp hy with rfl | hy
      · exact happ
      · exact happ' y hy
    · intro e' ts' hw
      rw [hme] at hw
      exact (hold.settled e' ts' hw).of_same hme hstate
    · rw [hstate]
      exact hold.leader
  have hnew : ∀ e' ts', Won (c.apply m s' []).sent s'.me.id e' ts' →
      Won c.sent s'.me.id e' ts' := by
    intro e' ts' hw
    simpa [won_apply] using hw
  refine hinv.apply_of_same_facts hm hid (hsound.mono sent_subset_apply hnew) ?_ ?_ ?_ ?_ ?_
  · exact fun _ _ hin => by cases hin
  · exact fun _ _ _ hin => by cases hin
  · exact fun _ _ _ hin => by cases hin
  · exact fun _ _ _ hin => by cases hin
  · intro e' ts' approvers' h
    rw [hsingle] at h
    obtain ⟨rfl, hx⟩ := single_inj h
    cases hx
    exact ⟨approvers, hmine⟩

/-- **One move keeps the invariant.** -/
theorem Inv.apply_move (hinv : Inv M c) (hM : 1 < M.card) (hm : m ∈ M)
    (hmove : Move M c.sent (c.managers m) s' outs) : Inv M (c.apply m s' outs) := by
  have hid : s'.me.id = m := by rw [hmove.me, hinv.id m hm]
  have hold := hinv.sound m hm
  have hknown : ∀ n ∈ M, Knows s'.state n := fun n hn => hmove.known n hn (hold.known n hn)
  have helections : ∀ {elections : Elections},
      elections = (c.managers m).elections ∨ elections = ∅ →
      Consistent c.sent s'.me.id elections := by
    intro elections h
    rw [hmove.me]
    rcases h with h | h
    · rw [h]
      exact hold.elections
    · rw [h]
      exact .none
  cases hmove.change with
  | quiet hel hepoch hleader hquiet =>
    refine hinv.apply_quiet hm hid ⟨hknown, helections hel, ?_, ?_⟩ hquiet hel
    · intro e ts hw
      rw [hmove.me] at hw
      obtain ⟨hpast, hleads⟩ := hold.settled e ts hw
      refine ⟨by rw [hepoch]; exact hpast, fun hlast => ?_⟩
      rcases hleader with h | h
      · rw [h, hmove.me]
        exact hleads hlast
      · -- a leader that knows another manager is not cleared
        obtain ⟨Z, hZ, hZm⟩ : ∃ Z ∈ M, Z ≠ m := Finset.exists_mem_ne hM m
        have hself : Knows s'.state (c.managers m).me.id := by
          rw [hinv.id m hm]
          exact hknown m hm
        refine absurd (h.2 (hleads hlast) hself Z (hknown Z hZ)) ?_
        rw [hinv.id m hm]
        exact hZm
    · intro l hl
      rw [hepoch]
      rcases hleader with h | h
      · exact hold.leader l (h ▸ hl)
      · rw [h.1] at hl
        cases hl
  | adopts e l hwon hnewer hel hepoch hleader hquiet =>
    refine hinv.apply_quiet hm hid ⟨hknown, helections hel, ?_, ?_⟩ hquiet hel
    · intro e' ts hw
      rw [hmove.me] at hw
      obtain ⟨e₀, he₀, hle, -⟩ := (hold.settled e' ts hw).past
      rw [he₀, epochBelow_some] at hnewer
      obtain ⟨ts₀, hw₀⟩ := hwon
      refine ⟨⟨e, hepoch, by omega, l, ts₀, hw₀⟩, fun hlast => ?_⟩
      -- nothing is newer than the last epoch
      have hbound := hinv.bounded l e ts₀ (hinv.won l e ts₀ hw₀).2.1
      unfold lastEpoch at hlast
      omega
    · intro l' hl
      rw [hleader] at hl
      cases hl
      obtain ⟨ts, hw⟩ := hwon
      exact ⟨e, ts, hepoch, hw⟩
  | repeats id cand e ts hsame hvote houts =>
    subst hsame houts
    exact hinv.apply_repeats hm hvote
  | approves id e ts hreq hnewer hel hsame houts =>
    subst houts
    exact hinv.apply_approves hm hmove.me hreq hnewer hel hsame
  | counts id e ts approvers happ hlast hel hsame houts =>
    subst houts
    rw [hinv.id m hm] at happ
    exact hinv.apply_counts hm hmove.me happ hlast hel hsame
  | wins id e ts approvers happ hlast hunan hel hepoch hleader hnodes houts =>
    subst houts
    have hcons := hold.elections
    rw [hinv.id m hm] at hcons happ hunan hleader
    exact hinv.apply_wins hM hm hmove.me happ (hcons.mine_of_last hlast).1 hunan hel hepoch hleader
      hnodes

/-! ## One action and whole runs -/

/-- A tick keeps the invariant, if the election it may call is fresh. -/
theorem Inv.apply_tick (hinv : Inv M c) (hM : 1 < M.card) (hm : m ∈ M) (r : Readings)
    (hfresh : ∀ id e ts, .voteRequest id e ts ∈ ((c.managers m).tick r).2 →
      ∀ e', ¬ Requested c.sent m e' ts) :
    Inv M (c.apply m ((c.managers m).tick r).1 ((c.managers m).tick r).2) := by
  refine tick_rule (M := M) (I := Inv M) r hinv (fun c' s' outs _ hinv' hmove => ?_) ?_
  · exact hinv'.apply_move hM hm hmove
  · intro c' s' outs e ts _ hbefore hinv' hstarts houts
    refine hinv'.apply_starts hM hm hstarts fun id e' ts' hin e'' hreq => ?_
    exact hfresh id e' ts' (houts hin) e'' (hbefore m e'' ts' hreq)

/-- **One action keeps the invariant.** -/
theorem Inv.act (hinv : Inv M c) (hM : 1 < M.card) {a : Action} (ha : Admissible M c a) :
    Inv M (c.act a) := by
  have hfresh : ∀ id e ts, .voteRequest id e ts ∈ output (c.managers a.actor) a.input →
      ∀ e', ¬ Requested c.sent a.actor e' ts := by
    rintro id e ts hin e' ⟨dst, hsent⟩
    exact ha.fresh id e ts hin dst e' hsent
  have hmsg : ∀ msg, a.input.1 = some msg → Legit M c.sent msg := by
    intro msg hin
    cases a with
    | deliver m msg' r =>
      cases hin
      exact hinv.legit m msg (ha.sent m msg r rfl)
    | outside m msg' r =>
      cases hin
      have hout := ha.outside m msg r rfl
      cases msg <;> first | exact hout | exact hout.elim
    | tick m r => cases hin
  have hm := ha.actor
  unfold Cluster.act
  generalize a.actor = m at hm hfresh ⊢
  generalize a.input = input at hfresh hmsg ⊢
  obtain ⟨msg?, r⟩ := input
  cases msg? with
  | none => exact hinv.apply_tick hM hm r hfresh
  | some msg =>
    have hmove := move_handle (M := M) (s := c.managers m) msg r (hmsg msg rfl)
    have hinv₁ := hinv.apply_move hM hm hmove
    have hinv₂ := hinv₁.apply_tick hM hm r (by
      rw [managers_apply_self]
      intro id e ts hin e' hreq
      rcases requested_apply.mp hreq with hreq | ⟨-, dst, hin'⟩
      · exact hfresh id e ts (List.mem_append_right _ hin) e' hreq
      · exact hmove.change.no_request dst e' ts hin')
    rw [managers_apply_self, apply_apply] at hinv₂
    exact hinv₂

theorem inv_initial (h : Initial M c) : Inv M c := by
  have hR : ∀ X e ts, ¬ Requested c.sent X e ts := fun X e ts ⟨_, hin⟩ => by simp [h.sent] at hin
  have hA : ∀ Y X ts, ¬ Approved c.sent Y X ts := fun Y X ts ⟨_, hin⟩ => by simp [h.sent] at hin
  have hW : ∀ X e ts, ¬ Won c.sent X e ts := fun X e ts ⟨_, hin⟩ => by simp [h.sent] at hin
  refine ⟨h.id, fun m hm => ⟨h.known m hm, ?_, ?_, ?_⟩, ?_, ?_, ?_, ?_, ?_, ?_, ?_⟩
  · rw [h.elections m hm]
    exact .none
  · exact fun e ts hw => absurd hw (hW _ e ts)
  · intro l hl
    rw [h.leader m hm] at hl
    cases hl
  · intro dst msg hin
    simp [h.sent] at hin
  · exact fun X e ts hr => absurd hr (hR X e ts)
  · exact fun X _ e ts hw => absurd hw (hW X e ts)
  · exact fun X e e' ts hr => absurd hr (hR X e ts)
  · exact fun Y X ts ha => absurd ha (hA Y X ts)
  · exact fun X e ts hw => absurd hw (hW X e ts)
  · exact fun X _ Y _ _ e tsX tsY hr => absurd hr (hR X e tsX)

/-- **One winner an epoch.** -/
theorem won_unique (hinv : Inv M c) {ts' : ℕ} (hX : Won c.sent X e ts)
    (hY : Won c.sent Y e ts') : X = Y := by
  by_contra hne
  obtain ⟨hXM, hXr, hXa⟩ := hinv.won X e ts hX
  obtain ⟨hYM, hYr, hYa⟩ := hinv.won Y e ts' hY
  exact hinv.exclusive X hXM Y hYM hne e ts ts' hXr hYr (hXa Y hYM fun h => hne h.symm)
    (hYa X hXM hne) ⟨Or.inr hX, Or.inr hY⟩

/-- A manager records `l` as the leader of epoch `e`. -/
def Records (c : Cluster) (m : NodeId) (e : ℕ) (l : NodeId) : Prop :=
  (c.managers m).state.epoch = some e ∧ (c.managers m).state.electedLeaderId = some l

/-- **Election agreement.** In every run of at least two managers that know
each other throughout and whose own elections carry distinct timestamps,
with packets delayed, reordered, duplicated and lost at will, no two
managers ever record different leaders of one epoch, at one time or at
different times, and the managers that take the winning branch for an
epoch are one. -/
theorem election_agreement (M : Finset NodeId) (hM : 1 < M.card) (c₀ : Cluster)
    (hinit : Initial M c₀) (is js : List Action)
    (hok : Along Cluster.act (Admissible M) c₀ (is ++ js)) :
    (∀ m ∈ M, ∀ m' ∈ M, ∀ e l l', Records (run Cluster.act c₀ is) m e l →
      Records (run Cluster.act c₀ (is ++ js)) m' e l' → l = l') ∧
    ∀ X Y e ts ts', Won (run Cluster.act c₀ (is ++ js)).sent X e ts →
      Won (run Cluster.act c₀ (is ++ js)).sent Y e ts' → X = Y := by
  have hall := run_inv (I := Inv M) (fun c a hc ha => hc.act hM ha) (inv_initial hinit) hok
  obtain ⟨hok₁, hok₂⟩ := along_append.mp hok
  have hfirst := run_inv (I := Inv M) (fun c a hc ha => hc.act hM ha) (inv_initial hinit) hok₁
  have hgrow : (run Cluster.act c₀ is).sent ⊆ (run Cluster.act c₀ (is ++ js)).sent := by
    rw [run_append]
    exact run_rel (I := fun _ => True) (R := fun a b : Cluster => a.sent ⊆ b.sent)
      (fun _ => List.Subset.refl _) (fun _ _ _ h₁ h₂ => List.Subset.trans h₁ h₂)
      (fun _ _ _ _ => trivial) (fun c a _ _ => sent_subset_act c a) trivial hok₂
  refine ⟨fun m hm m' hm' e l l' hr hr' => ?_, fun X Y e ts ts' hX hY => won_unique hall hX hY⟩
  obtain ⟨e₁, ts, he₁, hw⟩ := (hfirst.sound m hm).leader l hr.2
  obtain ⟨e₂, ts', he₂, hw'⟩ := (hall.sound m' hm').leader l' hr'.2
  rw [hr.1] at he₁
  rw [hr'.1] at he₂
  cases he₁
  cases he₂
  exact won_unique hall (hw.mono hgrow) hw'

/-- A delivery that calls no election is admissible. -/
theorem admissible_deliver {msg : ManagerProtocol} {r : Readings} (hm : m ∈ M)
    (hsent : (m, msg) ∈ c.sent)
    (hcalls : (output (c.managers m) (some msg, r)).all
      (fun | .voteRequest _ _ _ => false | _ => true) = true) :
    Admissible M c (.deliver m msg r) := by
  refine ⟨hm, fun _ _ _ h => ?_, (fun _ _ _ h => by cases h), fun id epoch ts hin => ?_⟩
  · cases h
    exact hsent
  · have := List.all_eq_true.mp hcalls _ hin
    cases this

/-- Managers 1 and 2, who know each other, at epoch zero. -/
def twoManagers : Cluster :=
  ⟨fun n => ⟨⟨n, "m", 1⟩,
    State.new (((∅ : Map NodeId Node).insert ⟨1⟩ ⟨"m", 1, 0, .manager⟩).insert ⟨2⟩
      ⟨"m", 1, 0, .manager⟩) (some 0), ∅⟩, []⟩

/-- Manager 1 calls an election, manager 2 votes, manager 1 wins. -/
def oneWins : List Action :=
  [.tick ⟨1⟩ ⟨10, 10, 500, 10, 500, 1⟩,
   .deliver ⟨2⟩ (.voteRequest ⟨1⟩ 1 10) ⟨20, 20, 500, 20, 500, 1⟩,
   .deliver ⟨1⟩ (.voteResponse ⟨2⟩ ⟨1⟩ 10) ⟨30, 30, 500, 30, 500, 1⟩]

/-- And manager 2 hears of it. -/
def twoHears : List Action := [.deliver ⟨2⟩ (.leader ⟨1⟩ 1 10) ⟨40, 40, 500, 40, 500, 1⟩]

theorem election_agreement_of_two :
    Records (run Cluster.act twoManagers oneWins) ⟨1⟩ 1 ⟨1⟩ ∧
      Records (run Cluster.act twoManagers (oneWins ++ twoHears)) ⟨2⟩ 1 ⟨1⟩ ∧
      ∀ l, Records (run Cluster.act twoManagers (oneWins ++ twoHears)) ⟨2⟩ 1 l → ⟨1⟩ = l := by
  have h1 : Records (run Cluster.act twoManagers oneWins) ⟨1⟩ 1 ⟨1⟩ :=
    ⟨by decide +kernel, by decide +kernel⟩
  have hinit : Initial {⟨1⟩, ⟨2⟩} twoManagers :=
    ⟨rfl, fun m _ => rfl, by decide +kernel, fun _ _ => rfl, fun _ _ => rfl⟩
  have hok : Along Cluster.act (Admissible {⟨1⟩, ⟨2⟩}) twoManagers (oneWins ++ twoHears) := by
    refine ⟨⟨by decide, (fun _ _ _ h => by cases h), (fun _ _ _ h => by cases h), ?_⟩,
      admissible_deliver (by decide) (by decide +kernel) (by decide +kernel),
      admissible_deliver (by decide) (by decide +kernel) (by decide +kernel),
      admissible_deliver (by decide) (by decide +kernel) (by decide +kernel), trivial⟩
    intro id epoch ts _ dst epoch' h
    cases h
  exact ⟨h1, ⟨by decide +kernel, by decide +kernel⟩, fun l hl =>
    (election_agreement {⟨1⟩, ⟨2⟩} (by decide) twoManagers hinit oneWins twoHears hok).1
      ⟨1⟩ (by decide) ⟨2⟩ (by decide) 1 ⟨1⟩ l h1 hl⟩

end Election

end NoSqlStore
