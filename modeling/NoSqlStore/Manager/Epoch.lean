import NoSqlStore.Manager.Effects
import NoSqlStore.Common.Runs
/-!
# Epochs move forward

A manager's decision is the pair of its epoch and its leader. `Leader` and
`ClusterState` messages replace it under a guard, heartbeats and
disconnections only clear its leader, and a vote response that completes
the manager's own election replaces it under no guard at all: the election
may be older than a decision accepted meanwhile, or have been called past
the last epoch a `u64` counts, where the numbers start again. `forward_iff`
says that this is the one way back.
-/

namespace NoSqlStore

namespace Manager

open Runs

variable {s : Service} {a b c : State}

/-- The order of epochs, in which `None` is lowest. -/
def epochRank : Option ℕ → ℕ
  | none => 0
  | some e => e + 1

theorem epochRank_inj {e e' : Option ℕ} (h : epochRank e = epochRank e') : e = e' := by
  cases e <;> cases e' <;> simp_all [epochRank]

theorem epochBelow_iff {e : Option ℕ} {epoch : ℕ} :
    epochBelow e epoch = true ↔ epochRank e < epochRank (some epoch) := by
  cases e <;> simp [epochRank]

/-- **A state no decision was taken back in**: the epoch is not lower,
and within one epoch the leader is the same or cleared. -/
structure Forward (a b : State) : Prop where
  epoch : epochRank a.epoch ≤ epochRank b.epoch
  leader : a.epoch = b.epoch →
    b.electedLeaderId = a.electedLeaderId ∨ b.electedLeaderId = none

namespace Forward

theorem refl (a : State) : Forward a a := ⟨le_rfl, fun _ => Or.inl rfl⟩

theorem trans (h₁ : Forward a b) (h₂ : Forward b c) : Forward a c := by
  refine ⟨h₁.epoch.trans h₂.epoch, fun hac => ?_⟩
  -- the epoch in between is squeezed between two equal ones
  have hab : a.epoch = b.epoch := by
    refine epochRank_inj (le_antisymm h₁.epoch ?_)
    rw [hac]
    exact h₂.epoch
  rcases h₂.leader (hab ▸ hac) with h | h
  · rw [h]
    exact h₁.leader hab
  · exact Or.inr h

end Forward

/-- The epoch of the manager's own election, if this message completes
it. -/
def completes (s : Service) : ManagerProtocol → Option ℕ
  | .voteResponse id leaderId ts =>
    match approvedElection s.elections s.me leaderId ts with
    | some (epoch, approvers) =>
      if unanimous s.state s.me (insert id approvers) then some epoch else none
    | none => none
  | _ => none

/-- An election this input completes passes the guard a snapshot of its
epoch and leader would have to pass. -/
def CompletionAccepted (s : Service) (input : Option ManagerProtocol × Readings) : Prop :=
  ∀ msg ∈ input.1, ∀ e ∈ completes s msg, accepts s.state e s.me.id = true

instance (s : Service) (input : Option ManagerProtocol × Readings) :
    Decidable (CompletionAccepted s input) :=
  inferInstanceAs (Decidable (∀ msg ∈ input.1, ∀ e ∈ completes s msg,
    accepts s.state e s.me.id = true))

/-- A completed election is recorded, whatever the epoch before. -/
theorem handle_of_completes {msg : ManagerProtocol} {r : Readings} {e : ℕ}
    (h : completes s msg = some e) :
    (s.handle msg r).1.state.epoch = some e ∧
      (s.handle msg r).1.state.electedLeaderId = some s.me.id := by
  cases msg with
  | voteResponse id leaderId ts =>
    simp only [completes] at h
    split at h
    · rename_i epoch approvers ha
      split at h
      · rename_i hu
        cases h
        simp [Service.handle, handleVoteResponse, ha, hu]
      · cases h
    · cases h
  | _ => cases h

/-- Outside a completion, a message moves the decision forward. -/
theorem handle_forward_of_not_completes {msg : ManagerProtocol} {r : Readings}
    (h : completes s msg = none) : Forward s.state (s.handle msg r).1.state := by
  rcases handle_decision s msg r with ⟨he, hl⟩ | ⟨e, l, hb, -, he, -⟩ | h3
  · exact ⟨by rw [he], fun _ => hl⟩
  · have hlt := epochBelow_iff.mp hb
    refine ⟨by rw [he]; exact hlt.le, fun heq => ?_⟩
    rw [heq, he] at hlt
    exact absurd hlt (lt_irrefl _)
  · obtain ⟨id, ts, e, approvers, rfl, ha, hu, -⟩ := h3
    simp [completes, ha, hu] at h

/-- An election completed at epoch `e` moves the decision forward exactly
when the guard of `handle_cluster_state` accepts that epoch and leader. -/
theorem accepts_iff_forward {e : ℕ} {l : NodeId} (hb : b.epoch = some e)
    (hl : b.electedLeaderId = some l) : accepts a e l = true ↔ Forward a b := by
  simp only [accepts, Bool.or_eq_true, Bool.and_eq_true, decide_eq_true_eq, epochBelow_iff]
  constructor
  · rintro (h | ⟨he, hal⟩)
    · refine ⟨by rw [hb]; exact h.le, fun heq => ?_⟩
      rw [heq, hb] at h
      exact absurd h (lt_irrefl _)
    · exact ⟨by rw [he, hb], fun _ => Or.inl (by rw [hl, hal])⟩
  · intro h
    rcases lt_or_eq_of_le h.epoch with hlt | heq
    · exact Or.inl (hb ▸ hlt)
    · have he := epochRank_inj heq
      rcases h.leader he with h' | h'
      · exact Or.inr ⟨by rw [he, hb], by rw [← h', hl]⟩
      · rw [hl] at h'
        cases h'

/-- **One tick.** The epoch stays and the leader stays or is cleared. -/
theorem tick_forward (s : Service) (r : Readings) : Forward s.state (s.tick r).1.state :=
  ⟨by rw [tick_epoch], fun _ => tick_leader r⟩

/-- The tick after a completed election keeps the pair: a manager does not
time itself out. -/
theorem turn_of_completes {msg : ManagerProtocol} {r : Readings} {e : ℕ}
    (h : completes s msg = some e) :
    (s.turn (some msg, r)).state.epoch = some e ∧
      (s.turn (some msg, r)).state.electedLeaderId = some s.me.id := by
  have hh := handle_of_completes (r := r) h
  refine ⟨by simp [Service.turn, Service.process, hh.1], ?_⟩
  have hme : (s.handle msg r).1.state.electedLeaderId = some (s.handle msg r).1.me.id := by
    rw [hh.2, handle_me]
  have hbeat := heartbeats_leader_of_me r.heartbeatNow r.heartbeatRandom hme
  simpa [Service.turn, Service.process, Service.tick] using hbeat

/-- **One turn.** The decision moves forward exactly when an election the
turn completes is accepted. -/
theorem turn_forward_iff (s : Service) (input : Option ManagerProtocol × Readings) :
    Forward s.state (s.turn input).state ↔ CompletionAccepted s input := by
  obtain ⟨msg?, r⟩ := input
  cases msg? with
  | none => exact ⟨fun _ => by simp [CompletionAccepted], fun _ => tick_forward s r⟩
  | some msg =>
    cases hc : completes s msg with
    | none =>
      refine ⟨fun _ => by simp [CompletionAccepted, hc], fun _ => ?_⟩
      exact (handle_forward_of_not_completes hc).trans (tick_forward _ r)
    | some e =>
      have ht := turn_of_completes (r := r) hc
      rw [← accepts_iff_forward ht.1 ht.2]
      simp [CompletionAccepted, hc]

/-- **Epochs move forward in exactly the runs that complete no outdated
election.** Over every run from the start of a manager, any two states of
the run are in order if and only if each vote response that completes the
manager's own election finds an epoch below the election's, or that very
decision. The epoch of an election is a `u64` sum: one called past the
last epoch has a lower one, and does not meet the condition. -/
theorem forward_iff (me : Me) (managerHostPort : Option (String × ℕ)) (now : ℕ)
    (inputs : List (Option ManagerProtocol × Readings)) :
    (∀ is js ks, inputs = is ++ js ++ ks →
      Forward (run Service.turn (Service.init me managerHostPort now).1 is).state
        (run Service.turn (Service.init me managerHostPort now).1 (is ++ js)).state) ↔
      Along Service.turn CompletionAccepted (Service.init me managerHostPort now).1 inputs := by
  generalize (Service.init me managerHostPort now).1 = s₀
  constructor
  · intro h
    induction inputs generalizing s₀ with
    | nil => exact trivial
    | cons i inputs ih =>
      refine ⟨(turn_forward_iff s₀ i).mp (h [] [i] inputs rfl), ih _ ?_⟩
      intro is js ks hsplit
      exact h (i :: is) js ks (by rw [hsplit]; rfl)
  · intro hok is js ks hsplit
    rw [hsplit, along_append, along_append] at hok
    rw [run_append]
    exact run_rel (I := fun _ => True) (R := fun a b : Service => Forward a.state b.state)
      (fun s => Forward.refl s.state) (fun _ _ _ => Forward.trans) (fun _ _ _ _ => trivial)
      (fun s i _ hi => (turn_forward_iff s i).mpr hi) trivial hok.1.2

/-! ### A late vote -/

/-- Readings of a turn at time `now`. -/
def readingsAt (now : ℕ) : Readings := ⟨now, now, 500, now, 500, 1⟩

/-- A second manager joins and the first calls an election for epoch 1;
before the vote arrives it takes over epoch 7 from a snapshot. -/
def supersededElection : List (Option ManagerProtocol × Readings) :=
  [(some (.newConnection (some ⟨2⟩) "b" 2 true), readingsAt 10),
   (some (.clusterState ⟨1⟩ ⟨7, ⟨2⟩, [], default⟩), readingsAt 20)]

/-- The vote the superseded election was waiting for. -/
def lateVote : Option ManagerProtocol × Readings :=
  (some (.voteResponse ⟨2⟩ ⟨1⟩ 10), readingsAt 30)

/-- **A late vote moves a manager from epoch 7 back to epoch 1.** -/
theorem late_vote_moves_epoch_back :
    let s₀ := (Service.init ⟨⟨1⟩, "a", 1⟩ none 0).1
    (run Service.turn s₀ supersededElection).state.epoch = some 7 ∧
      (run Service.turn s₀ (supersededElection ++ [lateVote])).state.epoch = some 1 ∧
      ¬ Forward (run Service.turn s₀ supersededElection).state
        (run Service.turn s₀ (supersededElection ++ [lateVote])).state := by
  have h7 : (run Service.turn (Service.init ⟨⟨1⟩, "a", 1⟩ none 0).1
      supersededElection).state.epoch = some 7 := by decide
  have h1 : (run Service.turn (Service.init ⟨⟨1⟩, "a", 1⟩ none 0).1
      (supersededElection ++ [lateVote])).state.epoch = some 1 := by decide
  refine ⟨h7, h1, fun h => ?_⟩
  have hle := h.epoch
  rw [h7, h1] at hle
  simp [epochRank] at hle

/-- Manager 1 takes over the last epoch there is, does not hear of its
leader again, and calls an election: the next epoch is 2. -/
def pastTheLastEpoch : List (Option ManagerProtocol × Readings) :=
  [(some (.newConnection (some ⟨2⟩) "b" 2 true), readingsAt 10),
   (some (.clusterState ⟨1⟩ ⟨2 ^ 64 - 1, ⟨2⟩, [], default⟩), readingsAt 20),
   (none, readingsAt 600)]

example :
    let s := run Service.turn (Service.init ⟨⟨1⟩, "a", 1⟩ none 0).1 pastTheLastEpoch
    let vote : Option ManagerProtocol × Readings :=
      (some (.voteResponse ⟨2⟩ ⟨1⟩ 600), readingsAt 610)
    s.state.epoch = some (2 ^ 64 - 1) ∧ (s.turn vote).state.epoch = some 2 ∧
      ¬ CompletionAccepted s vote := by
  decide +kernel

end Manager

end NoSqlStore
