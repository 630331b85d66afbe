import NoSqlStore.Sync.Orderly
/-!
# What a completed synchronisation has missed

A synchronisation completes in `start_sync`, when an empty partition is
found at the same stable revision twice, or in `continue_changes`, when
the journal is exhausted and the partition is then found stable. The first
compares the revisions, so nothing can have been written in between. The
second asks only whether there is a stable revision: a write that falls
between the two reads is missed (`write_in_the_gap_is_missed`), and where
no such write happens nothing is (`completed_missed_nothing`).
-/

namespace NoSqlStore

namespace Worker

open Coverage Runs

variable {me : Me} {has : NodeId → Key → Mutation → Prop} {t t' : Tick} {p : PartitionId}
  {h : NodeId}

/-- Between the end of the journal and the stable revision, no client
writes the partition. -/
def Trace.unwritten : Trace → Bool
  | .gap p events => events.all fun event => !event.writes p
  | _ => true

/-- Something stored when the synchronisation completed is not at the
recipient. -/
def Trace.Missing (has : NodeId → Key → Mutation → Prop) : Trace → Prop
  | .completed _ h records => ∃ (k : Key) (m : Mutation), records[k]? = some m ∧ ¬ has h k m
  | _ => False

/-- **A round that completes has missed nothing**, unless a client wrote in
the gap. -/
theorem has_of_completes (hs : t.Sound has) (ho : Outcome (has h) p h t t' true)
    (hgaps : ∀ e ∈ t'.trace, e.unwritten) {k : Key} {m : Mutation}
    (hk : (t'.records p)[k]? = some m) : has h k m := by
  cases ho with
  | empty hst hsent hsync hnone =>
    rw [hnone k] at hk
    cases hk
  | copied n st hst hconfirmed hsent hsync hdone hstore hgap =>
    have hquiet : ∀ event ∈ (t.after n).schedule.headD [], StoreEvent.writes p event = false := by
      intro event he
      have hall := List.all_eq_true.mp (hgaps _ hgap) event he
      simpa using hall
    have hw := (t.evolution_after n hs.wellFormed).1
    have hloses := RuntimeStore.loses_foldl (p := p) hw hquiet
    rw [Tick.records, hstore] at hk
    exact hdone k m (hloses.1 k m hk)

/-- A tick in which no client writes in a gap completes nothing that has
missed something. -/
theorem complete_moves (hs : t.Sound has) (hm : Moves has me t t')
    (ht : ∀ e ∈ t.trace, ¬ e.Missing has) (hgaps : ∀ e ∈ t'.trace, e.unwritten) :
    ∀ e ∈ t'.trace, ¬ e.Missing has := by
  refine moves_inv (I := fun t => (∀ e ∈ t.trace, e.unwritten) → ∀ e ∈ t.trace, ¬ e.Missing has)
    (fun t t' hs hI hmove hgaps => ?_) hs (fun _ => ht) hm hgaps
  have hold := hI fun e he => hgaps e ((trace_move hmove).subset he)
  have hinner : ∀ e : Trace, e.inner = true → ¬ e.Missing has := by
    intro e hkind
    cases e with
    | completed _ _ _ => cases hkind
    | _ => exact id
  cases hmove with
  | round _ p h hh hframe ho =>
    obtain ⟨n, hpassed⟩ := hframe.passed
    exact hpassed.trace.all hinner hold
  | complete t₁ p h hh hframe ho =>
    obtain ⟨n, hpassed⟩ := hframe.passed
    intro e he
    rcases List.mem_append.mp he with hin | hin
    · exact hpassed.trace.all hinner hold e hin
    · rw [List.mem_singleton.mp hin]
      rintro ⟨k, m, hk, hmissing⟩
      refine hmissing (has_of_completes hs ho (fun e he => hgaps e ?_) hk)
      exact List.mem_append_left _ he
  | remove p hnone hown =>
    intro e he
    rcases List.mem_append.mp he with hin | hin
    · exact hold e hin
    · rw [List.mem_singleton.mp hin]
      exact id
  | _ => exact hold

/-- A completion, with its records listed. -/
def Trace.completion : Trace → Option (PartitionId × NodeId × List (Key × Mutation))
  | .completed p h records => some (p, h, records.toList)
  | _ => none

theorem exists_of_completion {trace : List Trace} {p : PartitionId} {h : NodeId}
    {records : List (Key × Mutation)}
    (hc : trace.filterMap Trace.completion = [(p, h, records)]) :
    ∃ stored, Trace.completed p h stored ∈ trace ∧ stored.toList = records := by
  have hmem : (p, h, records) ∈ trace.filterMap Trace.completion := by
    rw [hc]
    exact List.mem_singleton_self _
  obtain ⟨e, he, heq⟩ := List.mem_filterMap.mp hmem
  cases e with
  | completed p' h' stored =>
    cases heq
    exact ⟨stored, he, rfl⟩
  | _ => cases heq

namespace World

variable {w : World} {a : Action}

/-- **No completed synchronisation has missed anything**: whatever was
stored when it completed, and so by then had been written, the recipient
has applied, or something at least as recent. -/
def Complete (w : World) : Prop := ∀ e ∈ w.trace, ¬ e.Missing w.Has

/-- An orderly step in whose gaps no client writes. -/
structure Gapless (me : Me) (w : World) (a : Action) (trace : List Trace) : Prop where
  orderly : Orderly me w a trace
  gaps : ∀ e ∈ trace, e.unwritten

instance (w : World) (a : Action) (trace : List Trace) : Decidable (Gapless me w a trace) :=
  decidable_of_iff (Orderly me w a trace ∧ ∀ e ∈ trace, e.unwritten)
    ⟨fun ⟨h₁, h₂⟩ => ⟨h₁, h₂⟩, fun ⟨h₁, h₂⟩ => ⟨h₁, h₂⟩⟩

theorem Complete.receive (hc : w.Complete) : (w.receive me a).Complete := by
  obtain ⟨happlied, htrace⟩ := applied_receive me w a
  intro e he
  rw [htrace] at he
  have hold := hc e he
  cases e with
  | completed p h records =>
    rintro ⟨k, m, hk, hmissing⟩
    exact hold ⟨k, m, hk, fun hh => hmissing (hh.mono happlied)⟩
  | _ => exact id

theorem complete_step (hs : w.Sound) (ho : w.Outstanding) (hc : w.Complete)
    (ha : Gapless me w a (w.traceOf me a)) : (w.step me a).Complete := by
  have hcareful := ha.orderly.careful ho
  have hr := sound_receive me hs hcareful.matched
  rcases step_eq me w a with ⟨-, heq, -⟩ | ⟨env, -, heq, htrace⟩
  · rw [heq]
    exact hc.receive
  · have hgaps := ha.gaps
    have hshort := hcareful.short
    rw [htrace] at hgaps hshort
    rw [heq]
    intro e he
    rcases List.mem_append.mp he with hin | hin
    · exact hc.receive e hin
    · exact complete_moves (hr.ticking env) (hr.moves_ticked hshort)
        (fun e he => absurd he List.not_mem_nil) hgaps e hin

/-- **A completed synchronisation has missed nothing**, in every orderly
run in whose gaps no client writes. -/
theorem completed_missed_nothing {now : ℕ} {actions : List Action}
    (hok : (start me now).Guarded me (Gapless me) actions) :
    (run (step me) (start me now) actions).Complete := by
  have hinv := run_inv (I := fun w : World => w.Sound ∧ w.Outstanding ∧ w.Complete)
    (fun w a hw ha => ?_) ⟨sound_start now, outstanding_start now, ?_⟩ hok
  · exact hinv.2.2
  · obtain ⟨hs, ho, hc⟩ := hw
    obtain ⟨hs', ho'⟩ := orderly_step hs ho ha.orderly
    exact ⟨hs', ho', complete_step hs ho hc ha⟩
  · exact fun e he => absurd he List.not_mem_nil

/-- The first batch is applied and answered, and a client writes another
key as scheduled meanwhile. -/
def handoverCompletes (schedule : List (List StoreEvent)) : List Action :=
  handoverStarts ++ [.deliver 0, .respond 0 (during schedule)]

theorem completed_missed_nothing_handover :
    (∃ records, Trace.completed ⟨0⟩ ⟨2⟩ records ∈
      (run (step sender) (start sender 0) (handoverCompletes [])).trace ∧
        records.toList = [(⟨0⟩, .put ⟨0, 1, [1]⟩)]) ∧
    (run (step sender) (start sender 0) (handoverCompletes [])).Complete := by
  refine ⟨?_, completed_missed_nothing (guarded_of_first (by decide +kernel))⟩
  rw [run_of_first (by decide +kernel)]
  exact exists_of_completion (by decide +kernel)

/-- A write in the gap: the two reads of `continue_changes` are the second
and the third call of the tick. -/
def gapWrite : List (List StoreEvent) := [[], [], [.put ⟨4096⟩ ⟨0, 2, [2]⟩]]

/-- **A write in the gap is missed.** The run is orderly; the key written
between the two reads is stored when the synchronisation completes, and
the recipient has not applied it. -/
theorem write_in_the_gap_is_missed :
    (start sender 0).Guarded sender (Orderly sender) (handoverCompletes gapWrite) ∧
    ¬ (run (step sender) (start sender 0) (handoverCompletes gapWrite)).Complete := by
  refine ⟨guarded_of_first (by decide +kernel), ?_⟩
  rw [run_of_first (by decide +kernel)]
  intro hcomplete
  have hcompletion : ∃ records, Trace.completed ⟨0⟩ ⟨2⟩ records ∈
      (run (firstStep sender) (start sender 0) (handoverCompletes gapWrite)).trace ∧
      records.toList = [(⟨0⟩, .put ⟨0, 1, [1]⟩), (⟨4096⟩, .put ⟨0, 2, [2]⟩)] :=
    exists_of_completion (by decide +kernel)
  obtain ⟨records, hmem, hlist⟩ := hcompletion
  refine hcomplete _ hmem ⟨⟨4096⟩, .put ⟨0, 2, [2]⟩, Map.mem_toList.mp (by rw [hlist]; simp), ?_⟩
  rintro ⟨record, hrecord, hkey, -⟩
  have happlied : (run (firstStep sender) (start sender 0) (handoverCompletes gapWrite)).applied =
      [(⟨2⟩, ⟨⟨0⟩, [1], 0, 1, false⟩)] := by decide +kernel
  rw [happlied, List.mem_singleton] at hrecord
  cases hrecord
  exact absurd hkey (by decide)

end World

end Worker

end NoSqlStore
