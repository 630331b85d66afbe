import Mathlib.Data.List.Induction
import Mathlib.Order.Lattice
/-!
# Last write wins

A register keeps one of the writes it is given: a write replaces what it
finds unless that is newer. What a whole sequence of writes leaves is its
`Winner`, the last one of the greatest version (`foldl_write_eq_some`), so
the order of the writes matters only among the winners' equals
(`Winner.version_eq`, `Winner.eq_of_same`).
-/

namespace NoSqlStore

namespace LastWrite

variable {μ ν : Type*} [LinearOrder ν] {version : μ → ν} {writes writes' : List μ} {m m' x : μ}

/-- One write to a register. -/
def write (version : μ → ν) (old : Option μ) (new : μ) : Option μ :=
  match old with
  | none => some new
  | some o => if version o ≤ version new then some new else some o

/-- **The last of the writes of the greatest version.** -/
def Winner (version : μ → ν) (writes : List μ) (m : μ) : Prop :=
  ∃ before after, writes = before ++ m :: after ∧ (∀ x ∈ before, version x ≤ version m) ∧
    ∀ x ∈ after, version x < version m

theorem Winner.mem (h : Winner version writes m) : m ∈ writes := by
  obtain ⟨before, after, rfl, -, -⟩ := h
  exact List.mem_append_right _ List.mem_cons_self

theorem Winner.le (h : Winner version writes m) (hx : x ∈ writes) : version x ≤ version m := by
  obtain ⟨before, after, rfl, hbefore, hafter⟩ := h
  rcases List.mem_append.mp hx with hin | hin
  · exact hbefore x hin
  · rcases List.mem_cons.mp hin with rfl | hin
    · exact le_rfl
    · exact (hafter x hin).le

/-- Of writes that are all one, that one wins. -/
theorem winner_of_forall_eq (hm : m ∈ writes) (hall : ∀ x ∈ writes, x = m) :
    Winner version writes m := by
  have hne : writes ≠ [] := List.ne_nil_of_mem hm
  have hlast : writes.getLast hne = m := hall _ (List.getLast_mem hne)
  refine ⟨writes.dropLast, [], ?_, fun x hx => ?_, fun x hx => absurd hx List.not_mem_nil⟩
  · rw [← hlast, List.dropLast_concat_getLast]
  · rw [hall x (List.dropLast_subset _ hx)]

theorem not_winner_nil : ¬ Winner version [] m := fun h => by cases h.mem

/-- One more write wins unless the winner so far is newer. -/
theorem winner_append_singleton :
    Winner version (writes ++ [x]) m ↔
      (m = x ∧ ∀ y ∈ writes, version y ≤ version x) ∨
        (Winner version writes m ∧ version x < version m) := by
  constructor
  · rintro ⟨before, after, heq, hbefore, hafter⟩
    rcases List.eq_nil_or_concat after with rfl | ⟨after, y, rfl⟩
    · obtain ⟨rfl, hx⟩ := List.append_inj' heq rfl
      cases hx
      exact Or.inl ⟨rfl, hbefore⟩
    · rw [List.concat_eq_append, ← List.cons_append, ← List.append_assoc] at heq
      obtain ⟨rfl, hx⟩ := List.append_inj' heq rfl
      cases hx
      rw [List.concat_eq_append] at hafter
      refine Or.inr ⟨⟨before, after, rfl, hbefore, fun z hz => ?_⟩, ?_⟩
      · exact hafter z (List.mem_append_left _ hz)
      · exact hafter x (List.mem_append_right _ (List.mem_singleton_self x))
  · rintro (⟨rfl, hle⟩ | ⟨⟨before, after, rfl, hbefore, hafter⟩, hlt⟩)
    · exact ⟨writes, [], rfl, hle, fun y hy => absurd hy List.not_mem_nil⟩
    · refine ⟨before, after ++ [x], by simp, hbefore, fun y hy => ?_⟩
      rcases List.mem_append.mp hy with hin | hin
      · exact hafter y hin
      · rw [List.mem_singleton.mp hin]
        exact hlt

theorem foldl_write_eq_none (h : writes.foldl (write version) none = none) : writes = [] := by
  rcases List.eq_nil_or_concat writes with rfl | ⟨writes, x, rfl⟩
  · rfl
  · rw [List.concat_eq_append, List.foldl_append, List.foldl_cons, List.foldl_nil] at h
    generalize writes.foldl (write version) none = old at h
    unfold write at h
    split at h
    · cases h
    · split at h <;> cases h

/-- **A register holds the winner of the writes it was given.** -/
theorem foldl_write_eq_some :
    writes.foldl (write version) none = some m ↔ Winner version writes m := by
  -- the last write is taken off, so that the winner so far is known
  induction writes using List.reverseRecOn generalizing m with
  | nil => exact ⟨nofun, fun h => absurd h not_winner_nil⟩
  | append_singleton writes x ih =>
    rw [List.foldl_append, List.foldl_cons, List.foldl_nil, winner_append_singleton]
    cases hold : writes.foldl (write version) none with
    | none =>
      obtain rfl := foldl_write_eq_none hold
      simp [write, not_winner_nil, eq_comm]
    | some old =>
      have hwin : Winner version writes old := ih.mp hold
      simp only [write]
      split
      · rename_i hle
        constructor
        · intro heq
          cases heq
          exact Or.inl ⟨rfl, fun y hy => (hwin.le hy).trans hle⟩
        · rintro (⟨rfl, -⟩ | ⟨hm, hlt⟩)
          · rfl
          · exact absurd ((hwin.le hm.mem).trans hle) (not_le.mpr hlt)
      · rename_i hle
        constructor
        · intro heq
          cases heq
          exact Or.inr ⟨hwin, not_le.mp hle⟩
        · rintro (⟨rfl, hall⟩ | ⟨hm, -⟩)
          · exact absurd (hall old hwin.mem) hle
          · rw [← hold]
            exact ih.mpr hm

/-- What a register held counts as its first write. -/
theorem foldl_write_toList (old : Option μ) (writes : List μ) :
    writes.foldl (write version) old = (old.toList ++ writes).foldl (write version) none := by
  cases old <;> rfl

/-! ## Replays -/

theorem Winner.cons_self {first : List μ} (h : Winner version (first ++ writes) m) :
    Winner version (m :: writes) m := by
  obtain ⟨before, after, heq, hbefore, hafter⟩ := h
  rcases List.append_eq_append_iff.mp heq with ⟨mid, rfl, rfl⟩ | ⟨mid, rfl, hrest⟩
  · refine ⟨m :: mid, after, rfl, fun x hx => ?_, hafter⟩
    rcases List.mem_cons.mp hx with rfl | hin
    · exact le_rfl
    · exact hbefore x (List.mem_append_right _ hin)
  · rcases List.cons_eq_append_iff.mp hrest with ⟨rfl, rfl⟩ | ⟨mid, rfl, rfl⟩
    · exact ⟨[m], after, rfl, fun x hx => by rw [List.mem_singleton.mp hx], hafter⟩
    · exact ⟨[], writes, rfl, fun x hx => absurd hx List.not_mem_nil,
        fun x hx => hafter x (List.mem_append_right _ hx)⟩

/-- **Replaying the writes at once changes nothing.** -/
theorem foldl_write_replay (old : Option μ) (writes : List μ) :
    writes.foldl (write version) (writes.foldl (write version) old) =
      writes.foldl (write version) old := by
  cases h : writes.foldl (write version) old with
  | none =>
    rw [foldl_write_toList] at h
    obtain ⟨-, rfl⟩ := List.append_eq_nil_iff.mp (foldl_write_eq_none h)
    rfl
  | some m =>
    rw [foldl_write_toList, foldl_write_eq_some] at h
    rw [foldl_write_toList, foldl_write_eq_some]
    exact h.cons_self

/-! ## Two orders of one set of writes -/

/-- **The winners of one set of writes have one version**, whatever the
order and the repetitions. -/
theorem Winner.version_eq (h : Winner version writes m) (h' : Winner version writes' m')
    (hsame : ∀ x, x ∈ writes ↔ x ∈ writes') : version m = version m' :=
  le_antisymm (h'.le ((hsame m).mp h.mem)) (h.le ((hsame m').mpr h'.mem))

/-- **And they are one write**, if only one has the greatest version. -/
theorem Winner.eq_of_same (h : Winner version writes m) (h' : Winner version writes' m')
    (hsame : ∀ x, x ∈ writes ↔ x ∈ writes')
    (hone : ∀ a ∈ writes, ∀ b ∈ writes, version a = version b →
      (∀ c ∈ writes, version c ≤ version a) → a = b) : m = m' :=
  hone m h.mem m' ((hsame m').mpr h'.mem) (h.version_eq h' hsame) fun _ hc => h.le hc

end LastWrite

end NoSqlStore
