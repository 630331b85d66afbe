import NoSqlStore.Common.Stamped
import NoSqlStore.Model.Writers
import NoSqlStore.Sync.Store
/-!
# What a stable revision says

A shard is a register with a stamp (`Shard.register`): its writers, in
whatever order their atomic actions fall, are writers of the register, and
pruning the journal is all that happens to the contents besides. So a
revision that `stable_revision` returns is the partition's at an instant
of the call at which nobody was writing, and two calls that return the
same revision have seen the same records (`equal_stable_revisions`). The
expiries overlap and may leave the partition with an older revision than
the latest they took; but a write holds its lock alone, so that every
entry of the journal is at most the revision once the writers are gone
(`Ledger`). A stable revision therefore cuts the journal in two
(`stable_revision_cuts`), which is what a synchronisation starts from.
-/

namespace NoSqlStore

open Relation Runs Stamped

/-! ## A shard as a register -/

def Thread.stage : Thread → Stage
  | .idle => .idle
  | .entered _ | .changed _ => .entered
  | .took _ revision | .journalled _ revision => .took revision
  | .stored _ => .stored

/-- The records are the same, and the journal at most pruned. -/
def Prunes (a b : Map Key Mutation × Map ℕ Key) : Prop :=
  b.1 = a.1 ∧ ∀ (revision : ℕ) (key : Key), b.2[revision]? = some key → a.2[revision]? = some key

theorem prunes_refl (a : Map Key Mutation × Map ℕ Key) : Prunes a a := ⟨rfl, fun _ _ h => h⟩

theorem prunes_trans (a b c : Map Key Mutation × Map ℕ Key) (h₁ : Prunes a b) (h₂ : Prunes b c) :
    Prunes a c :=
  ⟨h₂.1.trans h₁.1, fun revision key h => h₁.2 revision key (h₂.2 revision key h)⟩

namespace Shard

variable {s s₀ s₁ : Shard} {t u : ℕ} {job : Job} {act : Act} {n r : ℕ}

def register (s : Shard) : Register ℕ (Map Key Mutation × Map ℕ Key) where
  next := s.nextRevision
  stamp := s.partition.revision
  active := s.partition.activeWriters
  stage t := (s.threads t).stage
  contents := (s.partition.records, s.partition.changes)

theorem stage_update {g : ℕ → Thread} (thread : Thread) {stage : Stage}
    (h : thread.stage = stage) :
    (fun u => (Function.update g t thread u).stage) =
      Function.update (fun u => (g u).stage) t stage := by
  funext u
  by_cases hu : u = t
  · subst hu
    rw [Function.update_self, Function.update_self, h]
  · rw [Function.update_of_ne hu, Function.update_of_ne hu]

/-- A thread that moves within its stage. -/
theorem stage_update_same {g : ℕ → Thread} (thread : Thread)
    (h : thread.stage = (g t).stage) :
    (fun u => (Function.update g t thread u).stage) = fun u => (g u).stage := by
  rw [stage_update thread h]
  exact Function.update_eq_self t _

/-- **Every action of a shard is one of the register**, or none. -/
theorem steps_register (s : Shard) (act : Act) :
    ReflTransGen (Register.Step Prunes) s.register (s.step act).register := by
  cases act with
  | start t job =>
    show ReflTransGen _ _ (s.start t job).register
    unfold start
    split
    · rename_i hidle
      split
      · refine .single ?_
        have hstep := Register.Step.enter (R := Prunes) (s := s.register) t
          (by show (s.threads t).stage = _; rw [hidle]; rfl)
        simpa only [register, move, stage_update (.entered job) (rfl : Thread.stage _ = .entered)]
          using hstep
      · exact .refl
    · exact .refl
  | advance t =>
    show ReflTransGen _ _ (s.advance t).register
    unfold advance
    split
    · exact .refl
    · rename_i job hat
      refine .single ?_
      have hstep := Register.Step.change (R := Prunes) (s := s.register) t
        (job.change s.partition.records, s.partition.changes)
        (by show (s.threads t).stage ≠ _; rw [hat]; nofun)
        (by show (s.threads t).stage ≠ _; rw [hat]; nofun)
      have hsame := stage_update_same (g := s.threads) (t := t) (.changed job)
        (by rw [hat]; rfl)
      simpa only [register, move, hsame] using hstep
    · rename_i job hat
      refine .single ?_
      have hstep := Register.Step.take (R := Prunes) (s := s.register) t
        (by show (s.threads t).stage = _; rw [hat]; rfl)
      simpa only [register, move, stage_update (.took job (s.nextRevision + 1))
        (rfl : Thread.stage _ = .took (s.nextRevision + 1))] using hstep
    · rename_i job revision hat
      refine .single ?_
      have hsame := stage_update_same (g := s.threads) (t := t)
        (.journalled job revision) (by rw [hat]; rfl)
      have hstep := Register.Step.change (R := Prunes) (s := s.register) t
        (s.partition.records, job.note s.partition.changes revision)
        (by show (s.threads t).stage ≠ _; rw [hat]; nofun)
        (by show (s.threads t).stage ≠ _; rw [hat]; nofun)
      simpa only [register, move, hsame] using hstep
    · rename_i job revision hat
      refine .single ?_
      have hstep := Register.Step.store (R := Prunes) (s := s.register) t revision
        (by show (s.threads t).stage = _; rw [hat]; rfl)
      simpa only [register, move, stage_update (.stored job) (rfl : Thread.stage _ = .stored)]
        using hstep
    · rename_i job hat
      refine .single ?_
      have hstep := Register.Step.leave (R := Prunes) (s := s.register) t
        (by show (s.threads t).stage = _; rw [hat]; rfl)
      simpa only [register, move, stage_update .idle (rfl : Thread.stage _ = .idle)]
        using hstep
  | elsewhere =>
    exact .single (Register.Step.outside (s := s.register) (s.nextRevision + 1) _
      (Nat.le_succ _) (prunes_refl _))
  | prune throughRevision =>
    refine .single (Register.Step.outside (s := s.register) s.nextRevision _ le_rfl
      ⟨rfl, fun revision key h => ?_⟩)
    have hkept : (s.partition.changes.filter
        fun revision _ => throughRevision < revision)[revision]? = some key := h
    rw [Std.ExtTreeMap.getElem?_filter'] at hkept
    exact (Option.filter_eq_some_iff.1 hkept).1

theorem steps_run (s : Shard) (acts : List Act) :
    ReflTransGen (Register.Step Prunes) s.register (run step s acts).register := by
  induction acts generalizing s with
  | nil => exact .refl
  | cons act acts ih => exact (steps_register s act).trans (ih (s.step act))

theorem valid_new (n : ℕ) : (new n).register.Valid := by
  refine ⟨⟨∅, fun t => ?_, rfl⟩, Nat.zero_le n, nofun⟩
  exact iff_of_false (Finset.notMem_empty t) fun h => h rfl

/-! ## The lock -/

/-- **A writer under the write lock is alone.** -/
structure Locked (s : Shard) : Prop where
  started : ∀ t, s.threads t ≠ .idle → t ∈ s.started
  alone : ∀ t u job, (s.threads t).job? = some job → job.exclusive → t ≠ u → s.threads u = .idle

theorem job_of_ne_idle {thread : Thread} (h : thread ≠ .idle) : ∃ job, thread.job? = some job := by
  cases thread with
  | idle => exact absurd rfl h
  | _ => exact ⟨_, rfl⟩

/-- The lock is free for a job next to which nobody else's matters. -/
theorem Locked.of_free (h : s.Locked) (hfree : s.free job = true) {other : Job}
    (hother : (s.threads u).job? = some other) :
    other.exclusive = false ∧ job.exclusive = false := by
  have hne : s.threads u ≠ .idle := by
    intro hidle
    rw [hidle] at hother
    cases hother
  have hall := List.all_eq_true.1 hfree u (h.started u hne)
  rw [hother] at hall
  simpa using hall

/-- Moving a thread on in its job, or out of it. -/
theorem Locked.move (h : s.Locked) (thread : Thread)
    (hjob : ∀ job, thread.job? = some job → (s.threads t).job? = some job)
    (hthreads : s₁.threads = Function.update s.threads t thread)
    (hstarted : s₁.started = s.started) : s₁.Locked := by
  have hidle : ∀ u, s.threads u = .idle → s₁.threads u = .idle := by
    intro u hu
    rw [hthreads]
    by_cases hut : u = t
    · subst hut
      rw [Function.update_self]
      by_contra hne
      obtain ⟨job, hj⟩ := job_of_ne_idle hne
      have hbefore := hjob job hj
      rw [hu] at hbefore
      cases hbefore
    · rw [Function.update_of_ne hut, hu]
  refine ⟨fun u hu => ?_, fun u v job hu hexcl hne => ?_⟩
  · rw [hstarted]
    exact h.started u fun hu' => hu (hidle u hu')
  · refine hidle v (h.alone u v job ?_ hexcl hne)
    rw [hthreads] at hu
    by_cases hut : u = t
    · subst hut
      rw [Function.update_self] at hu
      exact hjob job hu
    · rwa [Function.update_of_ne hut] at hu

theorem Locked.step (h : s.Locked) (act : Act) : (s.step act).Locked := by
  cases act with
  | start t job =>
    show (s.start t job).Locked
    unfold start
    split
    · rename_i hidle
      split
      · rename_i hfree
        refine ⟨fun u hu => ?_, fun u v other hu hexcl hne => ?_⟩
        · show u ∈ t :: s.started
          by_cases hut : u = t
          · subst hut
            exact List.mem_cons_self
          · refine List.mem_cons_of_mem _ (h.started u fun hu' => hu ?_)
            exact (Function.update_of_ne hut _ _).trans hu'
        · -- Whoever is exclusive now was so before, or is the one that starts.
          show Function.update s.threads t (.entered job) v = .idle
          change (Function.update s.threads t (.entered job) u).job? = some other at hu
          by_cases hut : u = t
          · subst hut
            rw [Function.update_self] at hu
            obtain rfl : job = other := Option.some.inj hu
            rw [Function.update_of_ne (Ne.symm hne)]
            by_contra hv
            obtain ⟨other, hother⟩ := job_of_ne_idle hv
            have := (h.of_free hfree hother).2
            rw [hexcl] at this
            cases this
          · rw [Function.update_of_ne hut] at hu
            have := (h.of_free hfree hu).1
            rw [hexcl] at this
            cases this
      · exact h
    · exact h
  | advance t =>
    show (s.advance t).Locked
    unfold advance
    split
    · exact h
    · rename_i job hat
      exact h.move (t := t) (.changed job) (fun _ hj => by rw [hat]; exact hj) rfl rfl
    · rename_i job hat
      exact h.move (t := t) (.took job _) (fun _ hj => by rw [hat]; exact hj) rfl rfl
    · rename_i job revision hat
      exact h.move (t := t) (.journalled job revision)
        (fun _ hj => by rw [hat]; exact hj) rfl rfl
    · rename_i job revision hat
      exact h.move (t := t) (.stored job) (fun _ hj => by rw [hat]; exact hj) rfl rfl
    · exact h.move (t := t) .idle nofun rfl rfl
  | elsewhere => exact ⟨h.started, h.alone⟩
  | prune throughRevision => exact ⟨h.started, h.alone⟩

/-! ## The journal -/

/-- The revision a thread has taken and not stored yet. -/
def pending : Thread → Option ℕ
  | .took _ revision | .journalled _ revision => some revision
  | _ => none

/-- **The journal against the revisions.** No entry is above a revision
that is still to be stored; and each is at most the partition's, or at
most one that is still to be stored. -/
structure Ledger (s : Shard) : Prop where
  below : ∀ (revision : ℕ) (key : Key), s.partition.changes[revision]? = some key →
    revision ≤ s.nextRevision
  pending : ∀ t n, pending (s.threads t) = some n → ∀ (revision : ℕ) (key : Key),
    s.partition.changes[revision]? = some key → revision ≤ n
  covered : ∀ (revision : ℕ) (key : Key), s.partition.changes[revision]? = some key →
    revision ≤ s.partition.revision ∨ ∃ t n, Shard.pending (s.threads t) = some n ∧ revision ≤ n

/-- A journal entry was there, or a thread notes it under the revision it
has taken. -/
theorem changes_step {revision : ℕ} {key : Key}
    (h : (s.step act).partition.changes[revision]? = some key) :
    s.partition.changes[revision]? = some key ∨
      ∃ t job, act = .advance t ∧ s.threads t = .took job revision ∧ job.exclusive := by
  cases act with
  | start t job =>
    refine Or.inl ?_
    change (s.start t job).partition.changes[revision]? = some key at h
    unfold start at h
    split at h
    · split at h <;> exact h
    · exact h
  | advance t =>
    change (s.advance t).partition.changes[revision]? = some key at h
    unfold advance at h
    split at h
    case h_4 job n hat =>
      cases hkey : job.changedKey with
      | none =>
        simp only [Job.note, hkey] at h
        exact Or.inl h
      | some noted =>
        simp only [Job.note, hkey] at h
        rcases Map.getElem?_insert_cases h with ⟨rfl, -⟩ | hold
        · exact Or.inr ⟨t, job, rfl, hat, by rw [Job.exclusive, hkey]; rfl⟩
        · exact Or.inl hold
    all_goals exact Or.inl h
  | elsewhere => exact Or.inl h
  | prune throughRevision =>
    have hkept : (s.partition.changes.filter
        fun revision _ => throughRevision < revision)[revision]? = some key := h
    rw [Std.ExtTreeMap.getElem?_filter'] at hkept
    exact Or.inl (Option.filter_eq_some_iff.1 hkept).1

/-- What a step leaves pending was pending, or is the next revision. -/
theorem pending_step {u : ℕ} (h : pending ((s.step act).threads u) = some n) :
    pending (s.threads u) = some n ∨ n = s.nextRevision + 1 := by
  have hmoved : ∀ {t : ℕ} (thread : Thread), (∀ k, pending thread = some k →
      pending (s.threads t) = some k ∨ k = s.nextRevision + 1) →
      pending (Function.update s.threads t thread u) = some n →
      pending (s.threads u) = some n ∨ n = s.nextRevision + 1 := by
    intro t thread hthread hu
    by_cases hut : u = t
    · subst hut
      rw [Function.update_self] at hu
      exact hthread n hu
    · rw [Function.update_of_ne hut] at hu
      exact Or.inl hu
  cases act with
  | start t job =>
    change pending ((s.start t job).threads u) = some n at h
    unfold start at h
    split at h
    · split at h
      · exact hmoved (t := t) (.entered job) nofun h
      · exact Or.inl h
    · exact Or.inl h
  | advance t =>
    change pending ((s.advance t).threads u) = some n at h
    unfold advance at h
    split at h
    · exact Or.inl h
    · exact hmoved (t := t) (.changed _) nofun h
    · rename_i job hat
      refine hmoved (t := t) (.took job _) (fun k hk => Or.inr ?_) h
      exact (Option.some.inj hk).symm
    · rename_i job revision hat
      refine hmoved (t := t) (.journalled job revision) (fun k hk => Or.inl ?_) h
      rw [hat]
      exact hk
    · exact hmoved (t := t) (.stored _) nofun h
    · exact hmoved (t := t) .idle nofun h
  | elsewhere => exact Or.inl h
  | prune throughRevision => exact Or.inl h

/-- What was pending is still, or is the partition's revision now. -/
theorem pending_keeps {u : ℕ} (h : pending (s.threads u) = some n) (act : Act) :
    pending ((s.step act).threads u) = some n ∨
      (act = .advance u ∧ (s.step act).partition.revision = n) := by
  have hmoved : ∀ {t : ℕ} {thread : Thread},
      (pending (s.threads t) = some n → pending thread = some n) →
      pending (Function.update s.threads t thread u) = some n := by
    intro t thread hthread
    by_cases hut : u = t
    · subst hut
      rw [Function.update_self]
      exact hthread h
    · rw [Function.update_of_ne hut, h]
  cases act with
  | start t job =>
    refine Or.inl ?_
    show pending ((s.start t job).threads u) = some n
    unfold start
    split
    · rename_i hidle
      split
      · refine hmoved (t := t) fun ht => ?_
        rw [hidle] at ht
        cases ht
      · exact h
    · exact h
  | advance t =>
    show pending ((s.advance t).threads u) = some n ∨
      (_ ∧ (s.advance t).partition.revision = n)
    unfold advance
    split
    · exact Or.inl h
    · rename_i job hat
      exact Or.inl (hmoved (t := t) fun ht => by rw [hat] at ht; cases ht)
    · rename_i job hat
      exact Or.inl (hmoved (t := t) fun ht => by rw [hat] at ht; cases ht)
    · rename_i job revision hat
      exact Or.inl (hmoved (t := t) fun ht => by rw [hat] at ht; exact ht)
    · rename_i job revision hat
      by_cases hut : u = t
      · subst hut
        rw [hat] at h
        exact Or.inr ⟨rfl, Option.some.inj h⟩
      · refine Or.inl ?_
        show pending (Function.update s.threads t _ u) = some n
        rw [Function.update_of_ne hut, h]
    · rename_i job hat
      exact Or.inl (hmoved (t := t) fun ht => by rw [hat] at ht; cases ht)
  | elsewhere => exact Or.inl h
  | prune throughRevision => exact Or.inl h

/-- The partition's revision changes when a pending one is stored. -/
theorem revision_step (s : Shard) (act : Act) :
    (s.step act).partition.revision = s.partition.revision ∨
      ∃ t, pending (s.threads t) = some (s.step act).partition.revision := by
  cases act with
  | start t job =>
    refine Or.inl ?_
    show (s.start t job).partition.revision = _
    unfold start
    split
    · split <;> rfl
    · rfl
  | advance t =>
    show (s.advance t).partition.revision = s.partition.revision ∨
      ∃ u, pending (s.threads u) = some (s.advance t).partition.revision
    unfold advance
    split
    case h_5 job revision hat => exact Or.inr ⟨t, by rw [hat]; rfl⟩
    all_goals exact Or.inl rfl
  | elsewhere => exact Or.inl rfl
  | prune throughRevision => exact Or.inl rfl

theorem Ledger.step (h : s.Ledger) (hlock : s.Locked) (hvalid : s.register.Valid) (act : Act) :
    (s.step act).Ledger := by
  have hnext : s.nextRevision ≤ (s.step act).nextRevision :=
    Register.next_steps (steps_register s act)
  have htook : ∀ {t : ℕ} {job : Job} {revision : ℕ}, s.threads t = .took job revision →
      revision ≤ s.nextRevision := by
    intro t job revision hat
    exact hvalid.took t revision (by show (s.threads t).stage = _; rw [hat]; rfl)
  refine ⟨fun revision key hkey => ?_, fun t n hn revision key hkey => ?_,
    fun revision key hkey => ?_⟩
  · rcases changes_step hkey with hold | ⟨t, job, -, hat, -⟩
    · have := h.below revision key hold
      omega
    · have := htook hat
      omega
  · rcases changes_step hkey with hold | ⟨u, job, -, hat, hexcl⟩
    · rcases pending_step hn with hbefore | rfl
      · exact h.pending t n hbefore revision key hold
      · have := h.below revision key hold
        omega
    · -- The thread that notes the entry has the write lock, so no other has taken a revision.
      rcases pending_step hn with hbefore | rfl
      · by_cases hut : u = t
        · subst hut
          rw [hat] at hbefore
          exact (Option.some.inj hbefore).le
        · rw [hlock.alone u t job (by rw [hat]; rfl) hexcl hut] at hbefore
          cases hbefore
      · have := htook hat
        omega
  · have hstays : ∀ {t n : ℕ}, Shard.pending (s.threads t) = some n → revision ≤ n →
        revision ≤ (s.step act).partition.revision ∨
          ∃ t n, Shard.pending ((s.step act).threads t) = some n ∧ revision ≤ n := by
      intro t n hn hle
      rcases pending_keeps hn act with hstill | ⟨-, hstored⟩
      · exact Or.inr ⟨t, n, hstill, hle⟩
      · exact Or.inl (by omega)
    rcases changes_step hkey with hold | ⟨u, job, -, hat, -⟩
    · rcases h.covered revision key hold with hle | ⟨t, n, hn, hle⟩
      · rcases revision_step s act with hsame | ⟨t, hpending⟩
        · exact Or.inl (by omega)
        · exact Or.inl (h.pending t _ hpending revision key hold)
      · exact hstays hn hle
    · exact hstays (t := u) (by rw [hat]; rfl) le_rfl

/-- What holds of a shard from the start. -/
structure Sound (s : Shard) : Prop where
  valid : s.register.Valid
  locked : s.Locked
  ledger : s.Ledger

theorem sound_new (n : ℕ) : (new n).Sound := by
  have hnone : ∀ (revision : ℕ) (key : Key),
      (new n).partition.changes[revision]? = some key → False := by
    intro revision key h
    simp [new, default] at h
  refine ⟨valid_new n, ⟨fun t h => absurd rfl h, nofun⟩, fun revision key h => ?_,
    fun t k hk => ?_, fun revision key h => ?_⟩
  · exact (hnone revision key h).elim
  · cases hk
  · exact (hnone revision key h).elim

theorem Sound.step (h : s.Sound) (act : Act) : (s.step act).Sound :=
  ⟨h.valid.steps (steps_register s act), h.locked.step act,
    h.ledger.step h.locked h.valid act⟩

theorem sound_run (n : ℕ) (acts : List Act) : (run step (new n) acts).Sound :=
  run_keeps (I := Sound) (fun _ act h => h.step act) (sound_new n) acts

/-- Once nobody is writing, the journal is at most at the revision. -/
theorem Sound.below_revision (h : s.Sound) (hquiet : s.partition.activeWriters = 0)
    {revision : ℕ} {key : Key} (hkey : s.partition.changes[revision]? = some key) :
    revision ≤ s.partition.revision := by
  rcases h.ledger.covered revision key hkey with hle | ⟨t, n, hn, -⟩
  · exact hle
  · have hidle : (s.threads t).stage = .idle := h.valid.quiet_iff.1 hquiet t
    cases hat : s.threads t <;> rw [hat] at hn hidle <;> cases hn <;> cases hidle

/-- What is noted after a quiet instant is noted above its counter. -/
theorem noted_since (h : s.Sound) (hquiet : s.partition.activeWriters = 0) (acts : List Act)
    {revision : ℕ} {key : Key}
    (hkey : (run step s acts).partition.changes[revision]? = some key) :
    s.partition.changes[revision]? = some key ∨ s.nextRevision < revision := by
  induction acts using List.reverseRecOn with
  | nil => exact Or.inl hkey
  | append_singleton acts act ih =>
    rw [run_append, run_cons, run_nil] at hkey
    rcases changes_step hkey with hold | ⟨t, job, -, hat, -⟩
    · exact ih hold
    · have hsince := Register.since_steps prunes_refl prunes_trans
        (h.valid.quiet_iff.1 hquiet) (steps_run s acts)
      exact Or.inr (hsince.took t revision
        (by show ((run step s acts).threads t).stage = _; rw [hat]; rfl))

/-! ## The four loads -/

/-- A revision is returned for the instant of the first load of the
writers. -/
theorem stableRevision_eq {a b c : List Act} (h : s.stableRevision a b c = some r) :
    (run step s a).partition.activeWriters = 0 ∧ s.partition.revision = r ∧
      (run step (run step s a) b).partition.revision = r := by
  unfold stableRevision at h
  dsimp only at h
  split at h
  · cases h
  · rename_i hquiet
    split at h
    · rename_i hsame
      rw [Option.some_inj] at h
      rw [not_not] at hquiet
      exact ⟨hquiet, hsame.1.trans h, h⟩
    · cases h

theorem Sound.stable (hs : s.Sound) {a b c : List Act} (h : s.stableRevision a b c = some r) :
    (run Shard.step s a).partition.revision = r ∧
      (run Shard.step s a).partition.activeWriters = 0 := by
  obtain ⟨hquiet, hbefore, hafter⟩ := stableRevision_eq h
  have hsettled := Register.settled_stamp prunes_refl prunes_trans hs.valid (steps_run s a) hquiet
    (steps_run _ b) (hbefore.trans hafter.symm)
  exact ⟨hsettled.trans hafter, hquiet⟩

/-- **A stable revision cuts the journal in two.** However the threads are
interleaved, a revision that `stable_revision` returns was the partition's
at an instant of the call at which nobody was writing it, every entry the
journal had then is at most that revision, and every entry it is given
later is above it. -/
theorem stable_revision_cuts (n : ℕ) (before a b c : List Act) (r : ℕ)
    (h : (run step (new n) before).stableRevision a b c = some r) :
    let s := run step (new n) (before ++ a)
    s.partition.revision = r ∧ s.partition.activeWriters = 0 ∧
      (∀ (revision : ℕ) (key : Key), s.partition.changes[revision]? = some key → revision ≤ r) ∧
      ∀ (later : List Act) (revision : ℕ) (key : Key),
        (run step s later).partition.changes[revision]? = some key →
          s.partition.changes[revision]? = some key ∨ r < revision := by
  intro s
  have hs : s.Sound := sound_run n (before ++ a)
  have hsplit : s = run step (run step (new n) before) a := run_append _ _ _
  obtain ⟨hrevision, hquiet⟩ := (sound_run n before).stable h
  rw [← hsplit] at hrevision hquiet
  refine ⟨hrevision, hquiet, fun revision key hkey => ?_, fun later revision key hkey => ?_⟩
  · rw [← hrevision]
    exact hs.below_revision hquiet hkey
  · refine (noted_since hs hquiet later hkey).imp_right fun hnew => ?_
    have hle : s.partition.revision ≤ s.nextRevision := hs.valid.stamp
    omega

/-- **Two stable revisions that are equal have seen the same partition**:
between the instants they were read for, no record has changed and the
journal has at most been pruned. -/
theorem equal_stable_revisions (n : ℕ) (before a b c between a' b' c' : List Act) (r : ℕ)
    (h : (run step (new n) before).stableRevision a b c = some r)
    (h' : (run step (new n) (before ++ a ++ b ++ c ++ between)).stableRevision a' b' c' =
      some r) :
    let s := run step (new n) (before ++ a)
    let s' := run step (new n) (before ++ a ++ b ++ c ++ between ++ a')
    s'.partition.records = s.partition.records ∧
      ∀ (revision : ℕ) (key : Key), s'.partition.changes[revision]? = some key →
        s.partition.changes[revision]? = some key := by
  intro s s'
  have hs : s.Sound := sound_run n (before ++ a)
  obtain ⟨hrevision, hquiet⟩ := (sound_run n before).stable h
  obtain ⟨hrevision', hquiet'⟩ := (sound_run n _).stable h'
  rw [← run_append] at hrevision hquiet hrevision' hquiet'
  have hsteps : ReflTransGen (Register.Step Prunes) s.register s'.register := by
    have hrun : s' = run step s (b ++ c ++ between ++ a') := by
      rw [← run_append]
      simp only [s', List.append_assoc]
    rw [hrun]
    exact steps_run s _
  exact Register.settled_contents prunes_refl prunes_trans hs.valid hquiet hsteps hquiet'
    (hrevision.trans hrevision'.symm)

/-- Two records are written and expire at once: the thread that takes the
later revision stores it first. -/
def expiriesCross : List Act :=
  let write (key : Key) : List Act := .start 1 (.write key (.put ⟨10, 5, [1]⟩)) ::
    List.replicate 5 (.advance 1)
  write ⟨0⟩ ++ write ⟨4096⟩ ++
    [.start 2 (.expire ⟨0⟩ 20), .start 3 (.expire ⟨4096⟩ 20), .advance 2, .advance 3, .advance 2,
      .advance 3, .advance 3, .advance 3, .advance 2, .advance 2, .advance 3, .advance 2]

theorem stable_revision_cuts_crossed :
    (run step (new 0) expiriesCross).nextRevision = 4 ∧
      (run step (new 0) expiriesCross).partition.revision = 3 ∧
      ∀ (revision : ℕ) (key : Key),
        (run step (new 0) expiriesCross).partition.changes[revision]? = some key →
          revision ≤ 3 :=
  ⟨by decide +kernel, by decide +kernel,
    (stable_revision_cuts 0 expiriesCross [] [] [] 3 (by decide +kernel)).2.2.1⟩

theorem equal_stable_revisions_crossed :
    (run step (new 0) (expiriesCross ++ [.elsewhere, .prune 1])).partition.records =
      (run step (new 0) expiriesCross).partition.records :=
  (equal_stable_revisions 0 expiriesCross [] [] [] [.elsewhere, .prune 1] [] [] [] 3
    (by decide +kernel) (by decide +kernel)).1

/-! ## Without interference -/

/-- The shard of a partition of a store that nobody is writing. -/
def ofStore (store : RuntimeStore) (p : PartitionId) : Shard :=
  ⟨store.partition p, store.nextRevision, fun _ => .idle, []⟩

/-- The actions of one job, one after the other. -/
def whole (t : ℕ) (job : Job) : List Act := .start t job :: List.replicate 5 (.advance t)

/-- What a job comes to that nothing interferes with. -/
theorem run_whole (t : ℕ) (job : Job) (hs : s.threads = fun _ => .idle)
    (hstarted : s.started = []) :
    (run step s (whole t job)).partition =
        { records := job.change s.partition.records
          changes := job.note s.partition.changes (s.nextRevision + 1)
          activeWriters := s.partition.activeWriters
          revision := s.nextRevision + 1 } ∧
      (run step s (whole t job)).nextRevision = s.nextRevision + 1 := by
  have hfree : s.free job = true := by rw [free, hstarted]; rfl
  simp [whole, List.replicate, step, start, advance, move, hs, hfree]

/-- **A write that nothing interferes with** is `applyMutation`. -/
theorem write_whole (store : RuntimeStore) (t : ℕ) (key : Key) (mutation : Mutation) :
    (run step (ofStore store key.partition) (whole t (.write key mutation))).partition =
        (store.applyMutation key mutation).partition key.partition ∧
      (run step (ofStore store key.partition) (whole t (.write key mutation))).nextRevision =
        (store.applyMutation key mutation).nextRevision := by
  obtain ⟨hpartition, hnext⟩ := run_whole (s := ofStore store key.partition) t
    (.write key mutation) rfl rfl
  rw [hpartition, hnext, RuntimeStore.partition_applyMutation, if_pos rfl]
  exact ⟨rfl, rfl⟩

/-- Rewriting a partition there is. -/
theorem modify_of_mem {store : RuntimeStore} {p : PartitionId} (h : p ∈ store.cache)
    (f : PartitionStore → PartitionStore) :
    (store.modify p f).partition p = f (store.partition p) ∧ p ∈ (store.modify p f).cache := by
  obtain ⟨shard, hp⟩ : ∃ shard, store.cache[p]? = some shard :=
    ⟨_, Std.ExtTreeMap.getElem?_eq_some_getElem h⟩
  have hself : (store.modify p f).cache[p]? = some (f shard) := by
    rw [RuntimeStore.modify, Std.ExtTreeMap.getElem?_alter, if_pos Std.ReflCmp.compare_self, hp]
    rfl
  refine ⟨?_, Std.ExtTreeMap.mem_iff_isSome_getElem?.2 (by rw [hself]; rfl)⟩
  rw [RuntimeStore.partition, RuntimeStore.partition, hself, hp]
  rfl

theorem partition_expire_self (store : RuntimeStore) {key : Key} (nowMs : ℕ)
    (h : key.partition ∈ store.cache) :
    (store.expire key nowMs).partition key.partition =
      { store.partition key.partition with
        records := (Job.expire key nowMs).change (store.partition key.partition).records
        revision := store.nextRevision + 1 } := by
  obtain ⟨hentered, hmem⟩ := modify_of_mem h
    fun p => { p with activeWriters := p.activeWriters + 1 }
  obtain ⟨hremoved, hmem⟩ := modify_of_mem hmem fun p =>
    if p.records[key]?.any (Mutation.expired nowMs) then { p with records := p.records.erase key }
    else p
  obtain ⟨hdropped, -⟩ := modify_of_mem hmem fun p =>
    { p with revision := store.nextRevision + 1, activeWriters := p.activeWriters - 1 }
  rw [hremoved, hentered] at hdropped
  refine Eq.trans hdropped ?_
  dsimp only [Job.change]
  split <;> rfl

/-- **An expiry that nothing interferes with** is `expire`, in a partition
there is. -/
theorem expire_whole (store : RuntimeStore) (t : ℕ) (key : Key) (nowMs : ℕ)
    (hpresent : key.partition ∈ store.cache) :
    (run step (ofStore store key.partition) (whole t (.expire key nowMs))).partition =
        (store.expire key nowMs).partition key.partition ∧
      (run step (ofStore store key.partition) (whole t (.expire key nowMs))).nextRevision =
        (store.expire key nowMs).nextRevision := by
  obtain ⟨hpartition, hnext⟩ := run_whole (s := ofStore store key.partition) t
    (.expire key nowMs) rfl rfl
  rw [hpartition, hnext, partition_expire_self store nowMs hpresent]
  exact ⟨rfl, rfl⟩

/-- **A stable revision read without interference** is the store's. -/
theorem stableRevision_whole (store : RuntimeStore) (p : PartitionId) :
    (ofStore store p).stableRevision [] [] [] = store.stablePartitionRevision p := by
  have hread : (ofStore store p).stableRevision [] [] [] =
      if (store.partition p).activeWriters ≠ 0 then none
        else some (store.partition p).revision := by
    by_cases hwriting : (store.partition p).activeWriters = 0
    · simp [stableRevision, ofStore, hwriting]
    · simp [stableRevision, ofStore, hwriting]
  rw [hread, RuntimeStore.stablePartitionRevision, RuntimeStore.partition]
  cases store.cache[p]? with
  | none => rfl
  | some shard => rfl

end Shard

end NoSqlStore
