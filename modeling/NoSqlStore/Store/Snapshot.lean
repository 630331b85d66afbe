import NoSqlStore.Store.LastWrite
import NoSqlStore.Store.Stable
/-!
# What a page has missed

A synchronisation reads the records of a partition while they are written:
each page at an instant of its own, with nothing to keep the writers out.
What a page has missed is in the journal. A record that is not as the page
saw it was written since, and a writer that has changed a record either
still holds its guard, which is `Due`, or has noted the key above every
stable revision read before. The entry stays there until it is pruned: no
two writers note a key under one revision (`Fresh`). So once nobody is
writing, the pages and the journal above the revision together name every
record (`journal_names_missed`), whatever the interleaving.
-/

namespace NoSqlStore

open Relation Runs Stamped

namespace Shard

variable {s s₀ : Shard} {t u : ℕ} {job : Job} {act : Act} {n : ℕ} {key : Key} {m : Mutation}

/-! ## The entries of the journal -/

/-- **No revision is noted twice**: the one a thread has taken and not yet
noted is free. -/
def Fresh (s : Shard) : Prop :=
  ∀ t job n, s.threads t = .took job n → s.partition.changes[n]? = none

/-- A thread takes the next revision, or has it already. -/
theorem took_step {u : ℕ} (h : (s.step act).threads u = .took job n) :
    (s.threads u = .took job n ∧ act ≠ .advance u) ∨ n = s.nextRevision + 1 := by
  cases act with
  | start t other =>
    change (s.start t other).threads u = _ at h
    unfold start at h
    split at h
    · split at h
      · change Function.update s.threads t (.entered other) u = _ at h
        by_cases hut : u = t
        · subst hut
          rw [Function.update_self] at h
          cases h
        · rw [Function.update_of_ne hut] at h
          exact Or.inl ⟨h, fun hact => by cases hact⟩
      · exact Or.inl ⟨h, fun hact => by cases hact⟩
    · exact Or.inl ⟨h, fun hact => by cases hact⟩
  | advance t =>
    by_cases hut : u = t
    · subst hut
      refine Or.inr ?_
      change (s.advance u).threads u = _ at h
      unfold advance at h
      split at h
      · rename_i hidle
        rw [hidle] at h
        cases h
      all_goals
        dsimp only [move] at h
        rw [Function.update_self] at h
        cases h
      rfl
    · refine Or.inl ⟨?_, fun hact => hut (Act.advance.inj hact).symm⟩
      change (s.advance t).threads u = _ at h
      unfold advance at h
      split at h
      · exact h
      all_goals
        dsimp only [move] at h
        rwa [Function.update_of_ne hut] at h
  | elsewhere => exact Or.inl ⟨h, fun hact => by cases hact⟩
  | prune throughRevision => exact Or.inl ⟨h, fun hact => by cases hact⟩

theorem Fresh.step (h : s.Fresh) (hs : s.Sound) (act : Act) : (s.step act).Fresh := by
  intro u job n hat
  by_contra hnoted
  obtain ⟨key, hkey⟩ := Option.ne_none_iff_exists'.1 hnoted
  have hbelow : ∀ {t : ℕ} {other : Job}, s.threads t = .took other n → n ≤ s.nextRevision := by
    intro t other ht
    exact hs.valid.took t n (by show (s.threads t).stage = _; rw [ht]; rfl)
  rcases took_step hat with ⟨hbefore, hact⟩ | rfl
  · rcases changes_step hkey with hold | ⟨t, other, hadvance, ht, hexcl⟩
    · rw [h u job n hbefore] at hold
      cases hold
    · -- Whoever notes the entry is alone, so it is the thread itself, which then moves on.
      by_cases hut : t = u
      · subst hut
        exact hact hadvance
      · rw [hs.locked.alone t u other (by rw [ht]; rfl) hexcl hut] at hbefore
        cases hbefore
  · rcases changes_step hkey with hold | ⟨t, other, -, ht, -⟩
    · have := hs.ledger.below _ key hold
      omega
    · have := hbelow ht
      omega

/-- What holds of a shard from the start, its journal included. -/
structure Kept (s : Shard) : Prop where
  sound : s.Sound
  fresh : s.Fresh

theorem Kept.run (h : s.Kept) (acts : List Act) : (run Shard.step s acts).Kept :=
  run_keeps (I := Kept) (fun _ act h => ⟨h.sound.step act, h.fresh.step h.sound act⟩) h acts

theorem kept_run (n : ℕ) (acts : List Act) : (Runs.run step (new n) acts).Kept :=
  Kept.run ⟨sound_new n, fun _ _ _ h => by cases h⟩ acts

/-- An entry stays until it is pruned. -/
theorem entry_step (hfresh : s.Fresh) {revision : ℕ}
    (hkey : s.partition.changes[revision]? = some key) (act : Act) :
    (s.step act).partition.changes[revision]? = some key ∨
      ∃ throughRevision, act = .prune throughRevision ∧ revision ≤ throughRevision := by
  cases act with
  | start t job =>
    refine Or.inl ?_
    show (s.start t job).partition.changes[revision]? = some key
    unfold start
    split
    · split <;> exact hkey
    · exact hkey
  | advance t =>
    refine Or.inl ?_
    show (s.advance t).partition.changes[revision]? = some key
    unfold advance
    split
    case h_4 job n hat =>
      have hne : n ≠ revision := by
        intro heq
        rw [← heq, hfresh t job n hat] at hkey
        cases hkey
      show (job.note s.partition.changes n)[revision]? = some key
      unfold Job.note
      split
      · rw [Std.ExtTreeMap.getElem?_insert, if_neg (by simpa using hne)]
        exact hkey
      · exact hkey
    all_goals exact hkey
  | elsewhere => exact Or.inl hkey
  | prune throughRevision =>
    by_cases hle : revision ≤ throughRevision
    · exact Or.inr ⟨throughRevision, rfl, hle⟩
    · refine Or.inl ?_
      show (s.partition.changes.filter
        fun revision _ => throughRevision < revision)[revision]? = some key
      rw [Std.ExtTreeMap.getElem?_filter', hkey]
      simpa using hle

/-! ## The writers that have not noted their key -/

/-- Some thread has changed the record of the key and is yet to note it. -/
def Due (s : Shard) (key : Key) : Prop :=
  ∃ t job, job.changedKey = some key ∧
    (s.threads t = .changed job ∨ ∃ n, s.threads t = .took job n)

/-- Moving another thread leaves what is due. -/
theorem due_of_ne {t : ℕ} (hjob : job.changedKey = some key)
    (hat : s.threads t = .changed job ∨ ∃ n, s.threads t = .took job n)
    {s' : Shard} (hsame : s'.threads t = s.threads t) : s'.Due key := by
  rw [← hsame] at hat
  exact ⟨t, job, hjob, hat⟩

/-- **What is due stays due, or is noted** under the revision taken for
it. -/
theorem due_step (hdue : s.Due key) (act : Act) :
    (s.step act).Due key ∨
      ∃ t job revision, s.threads t = .took job revision ∧
        (s.step act).partition.changes[revision]? = some key := by
  obtain ⟨t, job, hjob, hat⟩ := hdue
  have hne : s.threads t ≠ .idle := by
    rcases hat with hat | ⟨n, hat⟩
    · rw [hat]
      exact fun h => by cases h
    · rw [hat]
      exact fun h => by cases h
  cases act with
  | start u other =>
    refine Or.inl (due_of_ne hjob hat ?_)
    show (s.start u other).threads t = s.threads t
    unfold start
    split
    · rename_i hidle
      have htu : t ≠ u := by
        intro heq
        exact hne (heq ▸ hidle)
      split
      · exact Function.update_of_ne htu _ _
      · rfl
    · rfl
  | advance u =>
    by_cases htu : t = u
    · subst htu
      rcases hat with hat | ⟨n, hat⟩
      · refine Or.inl ⟨t, job, hjob, Or.inr ⟨s.nextRevision + 1, ?_⟩⟩
        show (s.advance t).threads t = _
        unfold advance
        rw [hat]
        exact Function.update_self _ _ _
      · refine Or.inr ⟨t, job, n, hat, ?_⟩
        show (s.advance t).partition.changes[n]? = some key
        unfold advance
        rw [hat]
        show (job.note s.partition.changes n)[n]? = some key
        rw [Job.note, hjob]
        exact Std.ExtTreeMap.getElem?_insert_self
    · refine Or.inl (due_of_ne hjob hat ?_)
      show (s.advance u).threads t = s.threads t
      unfold advance
      split
      · rfl
      all_goals exact Function.update_of_ne htu _ _
  | elsewhere => exact Or.inl ⟨t, job, hjob, hat⟩
  | prune throughRevision => exact Or.inl ⟨t, job, hjob, hat⟩

/-- A job leaves the record of a key, removes it, or writes that key. -/
theorem change_cases {records : Map Key Mutation}
    (h : (job.change records)[key]? = some m) :
    records[key]? = some m ∨ job.changedKey = some key := by
  cases job with
  | write k mutation =>
    by_cases hk : k = key
    · exact Or.inr (congrArg some hk)
    · rw [Job.change, RuntimeStore.getElem?_compareInsert hk] at h
      exact Or.inl h
  | expire k nowMs =>
    refine Or.inl ?_
    dsimp only [Job.change] at h
    split at h
    · rw [Std.ExtTreeMap.getElem?_erase] at h
      split at h
      · cases h
      · exact h
    · exact h

/-- **A record there is was there, or is due.** -/
theorem record_step (h : (s.step act).partition.records[key]? = some m) :
    s.partition.records[key]? = some m ∨ (s.step act).Due key := by
  cases act with
  | start t job =>
    refine Or.inl ?_
    change (s.start t job).partition.records[key]? = some m at h
    unfold start at h
    split at h
    · split at h <;> exact h
    · exact h
  | advance t =>
    change (s.advance t).partition.records[key]? = some m at h
    show _ ∨ (s.advance t).Due key
    unfold advance at h ⊢
    split at h
    case h_2 job hat =>
      refine (change_cases h).imp_right fun hjob => ⟨t, job, hjob, Or.inl ?_⟩
      exact Function.update_self _ _ _
    all_goals exact Or.inl h
  | elsewhere => exact Or.inl h
  | prune throughRevision => exact Or.inl h

/-! ## A page and the journal -/

/-- **One of the actions has pruned the entry**: the journal named the key
at the revision until then. -/
def Pruned (s : Shard) (acts : List Act) (revision : ℕ) (key : Key) : Prop :=
  ∃ earlier throughRevision later, acts = earlier ++ .prune throughRevision :: later ∧
    (run step s earlier).partition.changes[revision]? = some key ∧ revision ≤ throughRevision

theorem Pruned.append {acts : List Act} {revision : ℕ} (h : s.Pruned acts revision key)
    (act : Act) : s.Pruned (acts ++ [act]) revision key := by
  obtain ⟨earlier, throughRevision, later, rfl, hnoted, hle⟩ := h
  exact ⟨earlier, throughRevision, later ++ [act], by simp, hnoted, hle⟩

/-- After these actions the key is due, or in the journal above the
revision, or has been pruned from there. -/
def Named (s : Shard) (acts : List Act) (r : ℕ) (key : Key) : Prop :=
  (run step s acts).Due key ∨ ∃ revision, r < revision ∧
    ((run step s acts).partition.changes[revision]? = some key ∨ s.Pruned acts revision key)

theorem Named.step {acts : List Act} {r : ℕ} (h : s.Named acts r key)
    (hfresh : (run step s acts).Fresh)
    (hlater : ∀ t job revision, (run step s acts).threads t = .took job revision → r < revision)
    (act : Act) : s.Named (acts ++ [act]) r key := by
  unfold Named
  rw [run_append, run_cons, run_nil]
  rcases h with hdue | ⟨revision, hr, hentry | hpruned⟩
  · rcases due_step hdue act with hstill | ⟨t, job, revision, hat, hentry⟩
    · exact Or.inl hstill
    · exact Or.inr ⟨revision, hlater t job revision hat, Or.inl hentry⟩
  · rcases entry_step hfresh hentry act with hstill | ⟨through, rfl, hle⟩
    · exact Or.inr ⟨revision, hr, Or.inl hstill⟩
    · exact Or.inr ⟨revision, hr, Or.inr ⟨acts, through, [], rfl, hentry, hle⟩⟩
  · exact Or.inr ⟨revision, hr, Or.inr (hpruned.append act)⟩

/-- From a quiet instant on: a record that is not as it was at some
instant since is named. -/
theorem named_since (hs : s.Kept) (hquiet : s.partition.activeWriters = 0) (first rest : List Act)
    (hkey : (run step (run step s first) rest).partition.records[key]? = some m) :
    (run step s first).partition.records[key]? = some m ∨
      (run step s first).Named rest s.nextRevision key := by
  induction rest using List.reverseRecOn generalizing m with
  | nil => exact Or.inl hkey
  | append_singleton rest act ih =>
    rw [run_append, run_cons, run_nil] at hkey
    have hkept := (hs.run first).run rest
    have hsince := Register.since_steps prunes_refl prunes_trans
      (hs.sound.valid.quiet_iff.1 hquiet) ((steps_run s first).trans (steps_run _ rest))
    have hlater : ∀ t job revision,
        (run step (run step s first) rest).threads t = .took job revision →
          s.nextRevision < revision := by
      intro t job revision hat
      exact hsince.took t revision (by
        show ((run step (run step s first) rest).threads t).stage = _
        rw [hat]
        rfl)
    rcases record_step hkey with hold | hdue
    · exact (ih hold).imp_right fun hnamed => hnamed.step hkept.fresh hlater act
    · refine Or.inr (Or.inl ?_)
      rw [run_append, run_cons, run_nil]
      exact hdue

/-- Nothing is due once nobody is writing. -/
theorem not_due (hs : s.Sound) (hquiet : s.partition.activeWriters = 0) : ¬ s.Due key := by
  rintro ⟨t, job, -, hat⟩
  have hidle : (s.threads t).stage = .idle := hs.valid.quiet_iff.1 hquiet t
  rcases hat with hat | ⟨n, hat⟩
  · rw [hat] at hidle
    cases hidle
  · rw [hat] at hidle
    cases hidle

/-- A stable revision, and all that is journalled after it. -/
theorem missed_since (n : ℕ) {before a b c : List Act} {r : ℕ}
    (h : (run step (new n) before).stableRevision a b c = some r) (first rest : List Act)
    (hquiet : (run step (new n) (before ++ a ++ first ++ rest)).partition.activeWriters = 0)
    (hkey : (run step (new n) (before ++ a ++ first ++ rest)).partition.records[key]? = some m) :
    (run step (new n) (before ++ a ++ first)).partition.records[key]? = some m ∨
      ∃ revision, r < revision ∧
        ((run step (new n) (before ++ a ++ first ++ rest)).partition.changes[revision]? = some key ∨
          (run step (new n) (before ++ a ++ first)).Pruned rest revision key) := by
  have hs := kept_run n (before ++ a)
  obtain ⟨hrevision, hstable⟩ := (sound_run n before).stable h
  rw [← run_append] at hrevision hstable
  have hsound : (run step (new n) (before ++ a ++ first ++ rest)).Sound := sound_run n _
  have hpage : run step (new n) (before ++ a ++ first) =
      run step (run step (new n) (before ++ a)) first := run_append _ _ _
  have hlast : run step (new n) (before ++ a ++ first ++ rest) =
      run step (run step (run step (new n) (before ++ a)) first) rest := by
    rw [← hpage]
    exact run_append _ _ _
  have hstamp := hs.sound.valid.stamp
  change (run step (new n) (before ++ a)).partition.revision ≤
    (run step (new n) (before ++ a)).nextRevision at hstamp
  rw [hlast] at hquiet hkey hsound ⊢
  rw [hpage]
  rcases named_since hs hstable first rest hkey with hsaw | hdue | ⟨revision, hr, hwhere⟩
  · exact Or.inl hsaw
  · exact absurd hdue (not_due hsound hquiet)
  · exact Or.inr ⟨revision, by omega, hwhere⟩

/-- **The journal names what a page has missed.** Once a stable revision
has been read, let pages be read at any instants of a run and let the run
end with nobody writing. Of each record there is at the end, a page read
at any of these instants saw that very record, or the journal names the
key above the stable revision and at most at the partition's, or has named
it there since the page until it was pruned. -/
theorem journal_names_missed (n : ℕ) (before a b c : List Act) (r : ℕ)
    (h : (run step (new n) before).stableRevision a b c = some r) (first rest : List Act)
    (hquiet : (run step (new n) (before ++ a ++ first ++ rest)).partition.activeWriters = 0) :
    let page := run step (new n) (before ++ a ++ first)
    let last := run step (new n) (before ++ a ++ first ++ rest)
    ∀ (key : Key) (m : Mutation), last.partition.records[key]? = some m →
      page.partition.records[key]? = some m ∨
        ∃ revision, r < revision ∧
          ((last.partition.changes[revision]? = some key ∧ revision ≤ last.partition.revision) ∨
            page.Pruned rest revision key) := by
  intro page last key m hkey
  have hsound : last.Sound := sound_run n _
  rcases missed_since n h first rest hquiet hkey with hsaw | ⟨revision, hr, hentry | hpruned⟩
  · exact Or.inl hsaw
  · exact Or.inr ⟨revision, hr, Or.inl ⟨hentry, hsound.below_revision hquiet hentry⟩⟩
  · exact Or.inr ⟨revision, hr, Or.inr hpruned⟩

/-- So when a later reading finds nothing in the journal above the stable
revision, and nothing above it has been pruned meanwhile, a page read
since is what the partition holds. -/
theorem page_is_final (n : ℕ) {before a b c : List Act} {r : ℕ}
    (h : (run step (new n) before).stableRevision a b c = some r) (first rest : List Act)
    (hquiet : (run step (new n) (before ++ a ++ first ++ rest)).partition.activeWriters = 0)
    (hprune : ∀ throughRevision, .prune throughRevision ∈ rest → throughRevision ≤ r)
    (hnone : ∀ revision, r < revision →
      (run step (new n) (before ++ a ++ first ++ rest)).partition.changes[revision]? = none)
    (hkey : (run step (new n) (before ++ a ++ first ++ rest)).partition.records[key]? = some m) :
    (run step (new n) (before ++ a ++ first)).partition.records[key]? = some m := by
  rcases missed_since n h first rest hquiet hkey with
    hsaw | ⟨revision, hr, hentry | ⟨earlier, throughRevision, later, rfl, -, hle⟩⟩
  · exact hsaw
  · rw [hnone revision hr] at hentry
    cases hentry
  · have := hprune throughRevision (List.mem_append_right _ List.mem_cons_self)
    omega

/-- Key 0 is written, and its revision read. -/
def firstWrite : List Act := whole 1 (.write ⟨0⟩ (.put ⟨10, 5, [1]⟩))

/-- A page is read before key 4096 is written. -/
def overtaken : List Act := whole 1 (.write ⟨4096⟩ (.put ⟨10, 5, [1]⟩))

theorem journal_names_missed_overtaken :
    ∃ revision, 1 < revision ∧
      (((run step (new 0) (firstWrite ++ [] ++ [] ++ overtaken)).partition.changes[revision]? =
            some ⟨4096⟩ ∧
          revision ≤
            (run step (new 0) (firstWrite ++ [] ++ [] ++ overtaken)).partition.revision) ∨
        (run step (new 0) (firstWrite ++ [] ++ [])).Pruned overtaken revision ⟨4096⟩) :=
  (journal_names_missed 0 firstWrite [] [] [] 1 (by decide +kernel) [] overtaken
    (by decide +kernel) ⟨4096⟩ (.put ⟨10, 5, [1]⟩) (by decide +kernel)).resolve_left
      (by decide +kernel)

end Shard

end NoSqlStore
