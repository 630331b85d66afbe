import NoSqlStore.Model.Sessions
import NoSqlStore.Manager.Effects
import NoSqlStore.Sync.Visits
import NoSqlStore.Sync.Idle
/-!
# Stale streams

The session map and the service are both keyed by the peer's id, and the
end of a stream removes the key and reports the peer disconnected,
whichever stream the key stands for by then. So what is left of a peer
after all events is what the last of them says: the session map holds a
stream just when the last event on it is a registration, and the service
knows the peer just when the last message to it is an announcement
(`Balanced`).
-/

namespace NoSqlStore

namespace Sessions

open Runs

variable {peer : NodeId} {l : Link}

/-! ## The service -/

/-- A connection puts the peer into the table. -/
theorem Owner.knows_connected (owner : Owner) (host : String) (port : ℕ) (turn : Turn) :
    (owner.process peer (.connected host port) turn).Knows peer := by
  cases owner with
  | manager service peerType =>
    refine Manager.mem_nodes_tick.mpr ?_
    exact Std.ExtTreeMap.mem_insert_self
  | worker me state store =>
    refine Worker.mem_nodes_tick.mpr ?_
    exact Std.ExtTreeMap.mem_insert_self

/-- A disconnection takes it out. -/
theorem Owner.not_knows_disconnected (owner : Owner) (turn : Turn) :
    ¬ (owner.process peer .disconnected turn).Knows peer := by
  cases owner with
  | manager service peerType =>
    intro hknows
    have hmem : peer ∈ (Manager.handleNodeDisconnected service.state peer).nodes :=
      Manager.mem_nodes_tick.mp hknows
    unfold Manager.handleNodeDisconnected at hmem
    split at hmem
    · exact absurd hmem (by simp)
    · rename_i hnot
      exact hnot hmem
  | worker me state store =>
    intro hknows
    have hmem : peer ∈ state.nodes.erase peer := Worker.mem_nodes_tick.mp hknows
    exact absurd hmem (by simp)

theorem Owner.knows_tick (owner : Owner) (turn : Turn) :
    (owner.tick turn).Knows peer ↔ owner.Knows peer := by
  cases owner with
  | manager service peerType => exact Manager.mem_nodes_tick
  | worker me state store => exact Worker.mem_nodes_tick

/-! ## What the last event says -/

/-- Whether the service will know the peer once it has read the queue. -/
def Link.WillKnow (peer : NodeId) (l : Link) : Prop :=
  match l.queue.getLast? with
  | some (.connected _ _) => True
  | some .disconnected => False
  | none => l.owner.Knows peer

theorem willKnow_snoc {l : Link} {queue : List Notice} {notice : Notice}
    (h : l.queue = queue ++ [notice]) : l.WillKnow peer ↔ notice ≠ .disconnected := by
  unfold Link.WillKnow
  rw [h, List.getLast?_concat]
  cases notice <;> simp

/-- Reading the next message leaves what the service will know. -/
theorem willKnow_serve {notice : Notice} {queue : List Notice} (turn : Turn)
    (h : l.queue = notice :: queue) :
    Link.WillKnow peer { l with queue, owner := l.owner.process peer notice turn } ↔
      l.WillKnow peer := by
  rcases List.eq_nil_or_concat queue with rfl | ⟨front, last, rfl⟩
  · have hlast : l.queue = [] ++ [notice] := h
    rw [willKnow_snoc hlast]
    show (l.owner.process peer notice turn).Knows peer ↔ _
    cases notice with
    | connected host port => exact iff_of_true (l.owner.knows_connected host port turn) (by simp)
    | disconnected => exact iff_of_false (l.owner.not_knows_disconnected turn) (by simp)
  · have hlast : l.queue = (notice :: front) ++ [last] := by rw [h, List.concat_eq_append]; rfl
    rw [willKnow_snoc hlast, willKnow_snoc (show _ = front ++ [last] from List.concat_eq_append)]

/-- **What the events so far say of the peer.** -/
structure Balanced (peer : NodeId) (l : Link) (registered announced : Bool) : Prop where
  session : l.session.isSome = registered
  live : ∀ stream ∈ l.session, l.stage stream = .registered ∨ l.stage stream = .announced
  knows : l.WillKnow peer ↔ announced = true

theorem balanced_initial (h : l.Initial peer) : Balanced peer l false false := by
  refine ⟨?_, ?_, ?_⟩
  · rw [h.session]
    rfl
  · rw [h.session]
    simp
  · unfold Link.WillKnow
    rw [h.queue]
    exact iff_of_false h.unknown (by simp)

/-- A task that goes on keeps its stream among the live ones. -/
theorem live_setStage {stream : ℕ} {stage : Stage}
    (hlive : ∀ i ∈ l.session, l.stage i = .registered ∨ l.stage i = .announced)
    (hstage : stream ∈ l.session → stage = .registered ∨ stage = .announced) :
    ∀ i ∈ l.session, (l.setStage stream stage).stage i = .registered ∨
      (l.setStage stream stage).stage i = .announced := by
  intro i hi
  by_cases heq : i = stream
  · subst heq
    simpa [Link.setStage] using hstage hi
  · simpa [Link.setStage, heq] using hlive i hi

/-- **One event**: a registration and a removal decide the session map, an
announcement and a report what the service will know. -/
theorem Balanced.step {registered announced : Bool} {event : Event}
    (hb : Balanced peer l registered announced) (he : l.Enabled event) :
    Balanced peer (l.step peer event) (registeredAfter registered event)
      (announcedAfter announced event) := by
  cases event with
  | register stream =>
    refine ⟨rfl, fun i hi => Or.inl ?_, hb.knows⟩
    obtain rfl : stream = i := Option.some.inj hi
    simp [Link.step, Link.setStage]
  | announce stream host port =>
    refine ⟨hb.session, live_setStage hb.live fun _ => Or.inr rfl, ?_⟩
    exact iff_of_true ((willKnow_snoc rfl).mpr (by simp)) rfl
  | close stream => exact ⟨hb.session, hb.live, hb.knows⟩
  | remove stream => exact ⟨rfl, (fun i hi => by cases hi), hb.knows⟩
  | report stream =>
    refine ⟨hb.session, live_setStage hb.live fun hmem => ?_, ?_⟩
    · -- a stream whose key is there has not been removed
      have hremoved : l.stage stream = .removed := he
      rcases hb.live stream hmem with h | h
      · rw [hremoved] at h
        cases h
      · rw [hremoved] at h
        cases h
    · exact iff_of_false (fun h => (willKnow_snoc rfl).mp h rfl) (by simp [announcedAfter])
  | findClosed => exact ⟨hb.session, hb.live, hb.knows⟩
  | evict => exact ⟨rfl, (fun i hi => by cases hi), hb.knows⟩
  | tell =>
    refine ⟨hb.session, hb.live, ?_⟩
    exact iff_of_false (fun h => (willKnow_snoc rfl).mp h rfl) (by simp [announcedAfter])
  | serve turn =>
    simp only [Link.step]
    split
    · exact hb
    · rename_i notice queue hqueue
      exact ⟨hb.session, hb.live, (willKnow_serve turn hqueue).trans hb.knows⟩
  | tick turn =>
    refine ⟨hb.session, hb.live, ?_⟩
    refine Iff.trans ?_ hb.knows
    unfold Link.WillKnow
    show (match l.queue.getLast? with
      | some (.connected _ _) => True
      | some .disconnected => False
      | none => (l.owner.tick turn).Knows peer) ↔ _
    cases l.queue.getLast? with
    | none => exact l.owner.knows_tick turn
    | some notice => cases notice <;> rfl

theorem Balanced.run {registered announced : Bool} {events : List Event}
    (hb : Balanced peer l registered announced)
    (hok : Along (Link.step peer) Link.Enabled l events) :
    Balanced peer (run (Link.step peer) l events) (events.foldl registeredAfter registered)
      (events.foldl announcedAfter announced) := by
  induction events generalizing l registered announced with
  | nil => exact hb
  | cons event events ih => exact ih (hb.step hok.1) hok.2

/-! ## What is left of the peer -/

/-- **When an open stream keeps the peer**: in every interleaving of
openings and endings, once all events are processed, the session map holds
an open stream and the service knows the peer, if a stream is open at all,
just when no stream is open, or the last event on the session map is a
registration and the last message to the service an announcement. -/
theorem keepsPeer_iff (peer : NodeId) (l₀ : Link) (events : List Event) (hinit : l₀.Initial peer)
    (hok : Along (Link.step peer) Link.Enabled l₀ events)
    (hsettled : (run (Link.step peer) l₀ events).Settled) :
    (run (Link.step peer) l₀ events).KeepsPeer peer ↔
      (∀ stream, ¬ (run (Link.step peer) l₀ events).Open stream) ∨
        endsRegistered events = true ∧ endsAnnounced events = true := by
  have hb := (balanced_initial hinit).run hok
  rw [← endsRegistered, ← endsAnnounced] at hb
  generalize Runs.run (Link.step peer) l₀ events = l at hb hsettled
  -- a stream in the session map of a settled link is open
  have hopen : ∀ stream ∈ l.session, l.Open stream := by
    intro stream hstream
    have hlive := hb.live stream hstream
    refine ⟨hlive, ?_⟩
    rcases hsettled.stage stream with h | h | h
    · rw [h] at hlive
      simp at hlive
    · rw [h] at hlive
      simp at hlive
    · exact h.2
  have hknows : l.owner.Knows peer ↔ endsAnnounced events = true := by
    have h := hb.knows
    unfold Link.WillKnow at h
    rw [hsettled.queue] at h
    exact h
  have hsession : (∃ stream ∈ l.session, l.Open stream) ↔ endsRegistered events = true := by
    rw [← hb.session, Option.isSome_iff_exists]
    constructor
    · rintro ⟨stream, hstream, -⟩
      exact ⟨stream, hstream⟩
    · rintro ⟨stream, hstream⟩
      exact ⟨stream, hstream, hopen stream hstream⟩
  unfold Link.KeepsPeer
  rw [hsession, hknows, imp_iff_not_or, not_exists]

/-- Manager 1 before any stream of worker 3. -/
def noStream : Link :=
  ⟨fun _ => .unborn, ∅, none, .idle, [],
    .manager (Manager.Service.init ⟨⟨1⟩, "a", 1⟩ none 0).1 .worker⟩

/-- A turn at time 10. -/
def turnAtTen : Turn := ⟨⟨10, 10, 500, 10, 500, 1⟩, ⟨.ascending, [], [], 10, 10⟩⟩

theorem initial_noStream : noStream.Initial ⟨3⟩ :=
  ⟨fun _ => rfl, rfl, rfl, rfl, rfl, by decide +kernel⟩

/-- Worker 3 connects. -/
def connects (stream : ℕ) : List Event :=
  [.register stream, .announce stream "c" 3, .serve turnAtTen]

/-- Worker 3 connects, its stream ends, and it connects again. -/
def reconnects : List Event :=
  connects 1 ++ [.close 1, .remove 1, .report 1, .serve turnAtTen] ++ connects 2

theorem keepsPeer_iff_reconnects :
    (run (Link.step ⟨3⟩) noStream reconnects).Open 2 ∧
      (run (Link.step ⟨3⟩) noStream reconnects).KeepsPeer ⟨3⟩ := by
  refine ⟨⟨Or.inr rfl, by decide⟩,
    (keepsPeer_iff ⟨3⟩ noStream reconnects initial_noStream ?_ ?_).mpr (Or.inr ⟨rfl, rfl⟩)⟩
  · exact ⟨⟨rfl, Finset.notMem_empty _⟩, rfl, trivial, Or.inr rfl,
      ⟨Or.inr rfl, Finset.mem_insert_self _ _⟩, rfl, trivial, ⟨rfl, by decide⟩, rfl, trivial,
      trivial⟩
  · refine ⟨fun stream => ?_, rfl, rfl⟩
    by_cases h₁ : stream = 1
    · subst h₁
      exact Or.inr (Or.inl rfl)
    by_cases h₂ : stream = 2
    · subst h₂
      exact Or.inr (Or.inr ⟨rfl, by decide⟩)
    · refine Or.inl ?_
      simp [reconnects, connects, Link.step, Link.setStage, noStream, h₁, h₂]

/-- Worker 3 connects, connects again, and its first stream ends. -/
def staleEnd : List Event :=
  connects 1 ++ connects 2 ++ [.close 1, .remove 1, .report 1, .serve turnAtTen]

/-- **The end of the older stream evicts the peer**, whose newer one is
open. -/
theorem stale_end_evicts_peer :
    ¬ ∀ (peer : NodeId) (l₀ : Link) (events : List Event), l₀.Initial peer →
      Along (Link.step peer) Link.Enabled l₀ events →
      (run (Link.step peer) l₀ events).Settled →
      (run (Link.step peer) l₀ events).KeepsPeer peer := by
  intro hall
  have hopen : (run (Link.step ⟨3⟩) noStream staleEnd).Open 2 := ⟨Or.inr rfl, by decide⟩
  have hkeeps := hall ⟨3⟩ noStream staleEnd initial_noStream ?_ ?_ ⟨2, hopen⟩
  · obtain ⟨stream, hstream, -⟩ := hkeeps.1
    cases hstream
  · exact ⟨⟨rfl, Finset.notMem_empty _⟩, rfl, trivial, ⟨rfl, Finset.notMem_empty _⟩, rfl, trivial,
      Or.inr rfl, ⟨Or.inr rfl, Finset.mem_insert_self _ _⟩, rfl, trivial, trivial⟩
  · refine ⟨fun stream => ?_, rfl, rfl⟩
    by_cases h₁ : stream = 1
    · subst h₁
      exact Or.inr (Or.inl rfl)
    by_cases h₂ : stream = 2
    · subst h₂
      exact Or.inr (Or.inr ⟨rfl, by decide⟩)
    · refine Or.inl ?_
      simp [staleEnd, connects, Link.step, Link.setStage, noStream, h₁, h₂]

end Sessions

end NoSqlStore
