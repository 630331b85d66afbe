import NoSqlStore.Sync.Idle
/-!
# What a confirmation of changes means

`handle_sync_batch_response` matches an answer by the greatest key of the
batch alone. Where the answer is that of the last batch, and the ranges
read again after a timeout fit in a page, a confirmation means what it
says: every journal entry of the range has been read for the batch, and
what was stored under its key then has been applied. An answer to an
earlier batch with the same greatest key confirms changes the recipient
never got (`stale_answer_confirms`).
-/

namespace NoSqlStore

namespace Worker

open Coverage Runs

namespace World

variable {me : Me} {w : World}

/-- **A confirmed range has been applied.** For every entry of a confirmed
range of the journal whose key is still stored: the entry was read for the
last batch, and what was stored under its key then, if anything, has been
applied; and what is stored now has been applied too, or an entry after
the range names it. -/
def ChangesApplied (w : World) : Prop :=
  ∀ p h st c pending, w.syncState p h = some st → st.confirmed = true →
    st.phase = .changes c pending →
    ∃ b i, lastSent w.sent p h = some (b, i) ∧
      ∀ (r : ℕ) (k : Key) (m : Mutation), c < r → r ≤ pending →
        (w.store.partition p).changes[r]? = some k → (w.store.partition p).records[k]? = some m →
        (∃ o, (r, k, o) ∈ b.reads ∧ ∀ m₀, o = some m₀ → w.Has h k m₀) ∧
        (w.Has h k m ∨ ∃ r', pending < r' ∧ (w.store.partition p).changes[r']? = some k)

theorem Sound.changesApplied (hs : w.Sound) : w.ChangesApplied := by
  intro p h st c pending hst hconfirmed hphase
  obtain ⟨b, i, hl, hg⟩ := hs.sound.good p h st hst
  refine ⟨b, i, hl, fun r k m hr hle hk hm => ⟨?_, ?_⟩⟩
  · obtain ⟨o, ho, hcarries⟩ := hg.read c pending hphase r k hr hle hk
    exact ⟨o, ho, fun m₀ hm₀ => hg.arrived hconfirmed k m₀ (hcarries m₀ hm₀)⟩
  · have hcovers := hg.covered_of_confirmed hconfirmed
    simp only [SyncState.Unread, SyncPhase.pendingRevision, hphase] at hcovers
    rcases hcovers k m hm with hhas | hout | hunread | hlater
    · exact Or.inl hhas
    · exact hout.elim
    · exact hunread.elim
    · exact Or.inr hlater

/-- **An answer confirms only changes that were applied**, in every run
whose steps are careful: batches and answers may be lost, delayed and
duplicated, and may time out any number of times. -/
theorem confirmed_changes_applied {now i : ℕ} {env : Env} {actions : List Action}
    (hok : (start me now).Guarded me Careful (actions ++ [.respond i env])) :
    ((run (step me) (start me now) actions).receive me (.respond i env)).ChangesApplied := by
  obtain ⟨hrun, hlast, -⟩ := along_append.mp hok
  have hs := sound_run (sound_start now) hrun
  exact (sound_receive me hs hlast.matched).changesApplied

/-- A change follows the first batch, and goes out when that is answered. -/
def changeFollows : List Action :=
  handoverStarts ++
    [.deliver 0, .store (.put ⟨0⟩ ⟨0, 2, [2]⟩), .respond 0 (during [])]

theorem run_changeFollows :
    run (step sender) (start sender 0) changeFollows =
      run (firstStep sender) (start sender 0) changeFollows :=
  run_of_first (by decide +kernel)

theorem confirmed_changes_applied_delivered :
    (((run (step sender) (start sender 0) (changeFollows ++ [.deliver 1])).receive sender
        (.respond 1 (during []))).syncState ⟨0⟩ ⟨2⟩).map (fun st => (st.confirmed, st.phase)) =
      some (true, .changes 1 2) ∧
    ((run (step sender) (start sender 0) (changeFollows ++ [.deliver 1])).receive sender
      (.respond 1 (during []))).ChangesApplied := by
  refine ⟨?_, confirmed_changes_applied (guarded_of_first (by decide +kernel))⟩
  rw [run_append, run_changeFollows]
  decide +kernel

/-- **An answer to an earlier batch confirms a later one.** The first
batch is answered a second time while the change, which has the same
greatest key, has not been delivered. -/
theorem stale_answer_confirms :
    ¬ ((run (step sender) (start sender 0) changeFollows).receive sender
      (.respond 0 (during []))).ChangesApplied := by
  rw [run_changeFollows]
  intro happlied
  have hst : ∃ st, ((run (firstStep sender) (start sender 0) changeFollows).receive sender
      (.respond 0 (during []))).syncState ⟨0⟩ ⟨2⟩ = some st ∧ st.confirmed = true ∧
      st.phase = .changes 1 2 := by
    refine ⟨⟨none, ⟨0⟩, .changes 1 2, true, 0⟩, ?_, rfl, rfl⟩
    decide +kernel
  obtain ⟨st, hsync, hconfirmed, hphase⟩ := hst
  obtain ⟨b, i, hlast, hb⟩ := happlied ⟨0⟩ ⟨2⟩ st 1 2 hsync hconfirmed hphase
  obtain ⟨⟨o, hread, hhas⟩, -⟩ :=
    hb 2 ⟨0⟩ (.put ⟨0, 2, [2]⟩) (by decide) (by decide) (by decide +kernel) (by decide +kernel)
  -- the batch that carries the change read version 2
  have hreads : (lastSent ((run (firstStep sender) (start sender 0) changeFollows).receive sender
      (.respond 0 (during []))).sent ⟨0⟩ ⟨2⟩).map (fun e => e.1.reads) =
      some [(2, ⟨0⟩, some (.put ⟨0, 2, [2]⟩))] := by decide +kernel
  rw [hlast, Option.map_some, Option.some_inj] at hreads
  dsimp only at hreads
  rw [hreads, List.mem_singleton] at hread
  cases hread
  obtain ⟨record, hrecord, -, hversion⟩ := hhas _ rfl
  -- and the one record applied is of version 1
  have happ : ((run (firstStep sender) (start sender 0) changeFollows).receive sender
      (.respond 0 (during []))).applied = [(⟨2⟩, ⟨⟨0⟩, [1], 0, 1, false⟩)] := by decide +kernel
  rw [happ, List.mem_singleton] at hrecord
  cases hrecord
  exact absurd hversion (by decide)

end World

end Worker

end NoSqlStore
