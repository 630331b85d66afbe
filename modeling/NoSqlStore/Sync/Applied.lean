import NoSqlStore.Store.Expiry
import NoSqlStore.Sync.Idle
/-!
# What a recipient holds

`Has` is about the batches a recipient has applied. Its store is one in
use like any other: the batches delivered to it, and whatever its own
clients and its expiry task do there, are its uses (`peers_step`). So what
it has applied it holds, in that version or a later one, until an expired
put of the key, itself at least as recent, is erased there
(`applied_is_held`).
-/

namespace NoSqlStore

namespace Worker

open Runs

namespace World

variable {me : Me} {w : World} {h : NodeId} {k : Key} {m : Mutation} {a : Action}

/-- The use an action makes of the store of a recipient. -/
def useOf (me : Me) (w : World) (h : NodeId) : Action → Option Use
  | .deliver i =>
    match w.sent[i]? with
    | some b => if b.recipient = h then some (.syncBatch ⟨me.id, b.records⟩) else none
    | none => none
  | .peer g event => if g = h then some (.event event) else none
  | _ => none

/-- **The recipient holds** a mutation of the key at least as recent. -/
def Holds (w : World) (h : NodeId) (k : Key) (m : Mutation) : Prop :=
  ∃ m', (w.peers h).stored k = some m' ∧ m.version ≤ m'.version

/-- **The action makes the recipient forget the key**: it erases an expired
put at least as recent as the mutation. -/
def Forgets (w : World) (h : NodeId) (k : Key) (m : Mutation) (a : Action) : Prop :=
  ∃ event record, a = .peer h event ∧
    RuntimeStore.Erases (w.peers h) (.event event) k record ∧ m.version ≤ record.creationTimeMs

/-- The tick of an action is the worker's own. -/
theorem peers_of_step (me : Me) (w : World) (a : Action) :
    (w.step me a).peers = (w.receive me a).peers ∧
      (w.step me a).applied = (w.receive me a).applied := by
  rcases step_eq me w a with ⟨-, heq, -⟩ | ⟨env, -, heq, -⟩
  · rw [heq]
    exact ⟨rfl, rfl⟩
  · rw [heq]
    exact ⟨rfl, rfl⟩

/-- **The store of a recipient is what its uses make of it.** -/
theorem peers_step (me : Me) (w : World) (h : NodeId) (a : Action) :
    (w.step me a).peers h = (w.useOf me h a).elim (w.peers h) (w.peers h).use := by
  rw [(peers_of_step me w a).1]
  cases a with
  | deliver i =>
    simp only [receive, useOf]
    cases w.sent[i]? with
    | none => rfl
    | some b =>
      by_cases hb : b.recipient = h
      · subst hb
        simp only [Function.update_self, if_true]
        rfl
      · simp only [Function.update_of_ne (Ne.symm hb), if_neg hb]
        rfl
  | peer g event =>
    simp only [receive, useOf]
    by_cases hg : g = h
    · subst hg
      simp only [Function.update_self, if_true]
      rfl
    · simp only [Function.update_of_ne (Ne.symm hg), if_neg hg]
      rfl
  | message msg env =>
    by_cases hmsg : ∃ id keys, msg = .syncBatchResponse id keys
    · obtain ⟨id, keys, rfl⟩ := hmsg
      rfl
    · rw [receive_message me w env fun id keys heq => hmsg ⟨id, keys, heq⟩]
      rfl
  | respond i env =>
    simp only [receive]
    split
    · rfl
    · split <;> rfl
  | store event => rfl
  | tick env => rfl

/-- A batch erases nothing: a use that reads a clock is the recipient's
own. -/
theorem eq_peer_of_clock {u : Use} {clock : ℕ} (hu : w.useOf me h a = some u)
    (hclock : u.clock = some clock) : ∃ event, a = .peer h event ∧ u = .event event := by
  cases a with
  | deliver i =>
    simp only [useOf] at hu
    split at hu
    · split at hu
      · cases hu
        cases hclock
      · cases hu
    · cases hu
  | peer g event =>
    simp only [useOf] at hu
    split at hu
    · rename_i hg
      cases hu
      exact ⟨event, hg ▸ rfl, rfl⟩
    · cases hu
  | _ => cases hu

/-- **A recipient goes on holding what it holds**, unless the action makes
it forget the key. -/
theorem Holds.step (hh : w.Holds h k m) (a : Action) :
    (w.step me a).Holds h k m ∨ w.Forgets h k m a := by
  obtain ⟨m₁, hm₁, hle⟩ := hh
  unfold Holds
  rw [peers_step]
  cases hu : w.useOf me h a with
  | none => exact Or.inl ⟨m₁, hm₁, hle⟩
  | some u =>
    rcases RuntimeStore.stored_use hm₁ u with ⟨m₂, hm₂, hle'⟩ | ⟨hnone, clock, hclock, hexpired⟩
    · exact Or.inl ⟨m₂, hm₂, hle.trans hle'⟩
    · obtain ⟨event, rfl, rfl⟩ := eq_peer_of_clock hu hclock
      obtain ⟨record, rfl⟩ := RuntimeStore.exists_put_of_expired hexpired
      exact Or.inr ⟨event, record, rfl, ⟨hm₁, hnone, clock, hclock, hexpired⟩, hle⟩

theorem version_mutation (record : SyncRecord) :
    record.mutation.version = record.creationTimeMs := by
  unfold SyncRecord.mutation
  split <;> rfl

/-- **What a delivery brings, the recipient holds.** -/
theorem holds_of_delivered {i : ℕ} {b : Sent} (hb : w.sent[i]? = some b) {record : SyncRecord}
    (hrecord : record ∈ b.records) :
    (w.step me (.deliver i)).Holds b.recipient record.key record.mutation := by
  unfold Holds
  rw [peers_step, useOf, hb]
  simp only [if_true]
  exact RuntimeStore.stored_use_of_mem _ (u := .syncBatch ⟨me.id, b.records⟩)
    (List.mem_map.mpr ⟨record, hrecord, rfl⟩)

/-- What a recipient comes to have, it holds. -/
theorem has_step (hhas : (w.step me a).Has h k m) :
    w.Has h k m ∨ (w.step me a).Holds h k m := by
  obtain ⟨record, hin, rfl, hle⟩ := hhas
  by_cases hbefore : (h, record) ∈ w.applied
  · exact Or.inl ⟨record, hbefore, rfl, hle⟩
  rw [(peers_of_step me w a).2] at hin
  refine Or.inr ?_
  cases a with
  | deliver i =>
    simp only [receive] at hin
    split at hin
    · exact absurd hin hbefore
    · rename_i b hb
      obtain ⟨record', hrecord, heq⟩ := List.mem_map.mp
        ((List.mem_append.mp hin).resolve_left hbefore)
      cases heq
      obtain ⟨m', hm', hle'⟩ : (w.step me (.deliver _)).Holds b.recipient record.key
          record.mutation := holds_of_delivered hb hrecord
      rw [version_mutation] at hle'
      exact ⟨m', hm', hle.trans hle'⟩
  | message msg env =>
    by_cases hmsg : ∃ id keys, msg = .syncBatchResponse id keys
    · obtain ⟨id, keys, rfl⟩ := hmsg
      exact absurd hin hbefore
    · rw [receive_message me w env fun id keys heq => hmsg ⟨id, keys, heq⟩] at hin
      exact absurd hin hbefore
  | respond i env =>
    simp only [receive] at hin
    split at hin
    · exact absurd hin hbefore
    · split at hin <;> exact absurd hin hbefore
  | store event => exact absurd hin hbefore
  | tick env => exact absurd hin hbefore
  | peer g event => exact absurd hin hbefore

/-- **What has been applied is held.** In every run of a worker and its
recipients, with whatever is done to their stores in between, a recipient
that has applied a mutation of a key at least as recent as `m` holds one,
unless a step of the run has erased an expired put of the key there that
is itself at least as recent. -/
theorem applied_is_held (me : Me) (now : ℕ) (actions : List Action) (h : NodeId) (k : Key)
    (m : Mutation) (hhas : (run (step me) (start me now) actions).Has h k m) :
    (run (step me) (start me now) actions).Holds h k m ∨
      ∃ before a after, actions = before ++ a :: after ∧
        (run (step me) (start me now) before).Forgets h k m a := by
  by_cases hholds : (run (step me) (start me now) actions).Holds h k m
  · exact Or.inl hholds
  -- what is had and not held has been forgotten
  have hstep : ∀ (w : World) (a : Action), True → True →
      (w.step me a).Has h k m ∧ ¬ (w.step me a).Holds h k m →
        (w.Has h k m ∧ ¬ w.Holds h k m) ∨ w.Forgets h k m a := by
    rintro w a - - ⟨hhas, hnot⟩
    by_cases hheld : w.Holds h k m
    · exact Or.inr ((hheld.step a).resolve_left hnot)
    · exact Or.inl ⟨(has_step hhas).resolve_right hnot, hheld⟩
  have hnothing : ¬ ((start me now).Has h k m ∧ ¬ (start me now).Holds h k m) := by
    rintro ⟨⟨record, hin, -⟩, -⟩
    exact absurd hin List.not_mem_nil
  exact Or.inr (run_origin (I := fun _ => True)
    (P := fun w : World => w.Has h k m ∧ ¬ w.Holds h k m) (fun _ _ _ _ => trivial) hstep trivial
    hnothing (along_of_forall fun _ _ => trivial) ⟨hhas, hholds⟩)

/-- Worker 2 applies the batch, and is given an older put by a client. -/
theorem applied_is_held_older :
    (run (step sender) (start sender 0)
      (handoverStarts ++ [.deliver 0, .peer ⟨2⟩ (.put ⟨0⟩ ⟨0, 0, []⟩)])).Has ⟨2⟩ ⟨0⟩
        (.put ⟨0, 1, [1]⟩) ∧
    ((run (step sender) (start sender 0)
      (handoverStarts ++ [.deliver 0, .peer ⟨2⟩ (.put ⟨0⟩ ⟨0, 0, []⟩)])).Holds ⟨2⟩ ⟨0⟩
        (.put ⟨0, 1, [1]⟩) ∨
      ∃ before a after,
        handoverStarts ++ [.deliver 0, .peer ⟨2⟩ (.put ⟨0⟩ ⟨0, 0, []⟩)] = before ++ a :: after ∧
        (run (step sender) (start sender 0) before).Forgets ⟨2⟩ ⟨0⟩ (.put ⟨0, 1, [1]⟩) a) := by
  have hhas : (run (step sender) (start sender 0)
      (handoverStarts ++ [.deliver 0, .peer ⟨2⟩ (.put ⟨0⟩ ⟨0, 0, []⟩)])).Has ⟨2⟩ ⟨0⟩
        (.put ⟨0, 1, [1]⟩) := by
    rw [run_of_first (by decide +kernel)]
    exact ⟨⟨⟨0⟩, [1], 0, 1, false⟩, by decide +kernel, rfl, le_rfl⟩
  exact ⟨hhas, applied_is_held sender 0 _ ⟨2⟩ ⟨0⟩ _ hhas⟩

end World

end Worker

end NoSqlStore
