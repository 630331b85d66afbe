import NoSqlStore.Common.OrderedMap
/-!
# Copying a map that goes on changing

A source holds records and a journal of the keys written, numbered by a
counter that only grows. A copier reads the records in key order, page by
page, and then the journal from the number it had when it began. `Covers`
is what it maintains: every record is at the target, or in a batch on its
way, or not read yet, or named by a journal entry above the base. The
lemmas say what keeps it: changes of the source (`Evolves`), pages, pages
of the journal, pruning; and that a source whose journal is exhausted is
copied.
-/

namespace NoSqlStore

namespace Coverage

variable {κ μ : Type} [LinearOrder κ]

/-- Records, a journal of the keys written, and the counter that numbers
the entries. -/
structure Source (κ μ : Type) [LinearOrder κ] where
  records : Map κ μ
  journal : Map ℕ κ
  next : ℕ

variable {s s' s'' : Source κ μ} {has has' out out' : κ → μ → Prop} {unread : κ → Prop}
  {base n : ℕ}

/-- **Every record is accounted for.** -/
def Covers (s : Source κ μ) (has out : κ → μ → Prop) (unread : κ → Prop) (base : ℕ) : Prop :=
  ∀ k m, s.records[k]? = some m →
    has k m ∨ out k m ∨ unread k ∨ ∃ r, base < r ∧ s.journal[r]? = some k

/-- Nothing on its way. -/
def Nothing (_ : κ) (_ : μ) : Prop := False

/-- Nothing left to read. -/
def AllRead (_ : κ) : Prop := False

/-! ## A source that changes -/

/-- **What a source may do while it is copied**: a record that is there was
there before, with its journal entries, or a later entry names it; and no
entry appears under a number already passed. Records may vanish, with
their entries. -/
structure Evolves (s s' : Source κ μ) : Prop where
  next : s.next ≤ s'.next
  kept : ∀ (k : κ) (m : μ), s'.records[k]? = some m →
    (s.records[k]? = some m ∧ ∀ r : ℕ, s.journal[r]? = some k → s'.journal[r]? = some k) ∨
      ∃ r, s.next < r ∧ s'.journal[r]? = some k
  old : ∀ (r : ℕ) (k : κ), r ≤ s.next → s'.journal[r]? = some k → s.journal[r]? = some k

theorem Evolves.refl (s : Source κ μ) : Evolves s s :=
  ⟨le_rfl, fun _ _ h => Or.inl ⟨h, fun _ h => h⟩, fun _ _ _ h => h⟩

theorem Evolves.trans (h₁ : Evolves s s') (h₂ : Evolves s' s'') : Evolves s s'' := by
  refine ⟨h₁.next.trans h₂.next, fun k m hk => ?_, fun r k hr hk => ?_⟩
  · rcases h₂.kept k m hk with ⟨hk', hj⟩ | ⟨r, hr, hj⟩
    · rcases h₁.kept k m hk' with ⟨hk'', hj'⟩ | ⟨r, hr, hj'⟩
      · exact Or.inl ⟨hk'', fun r h => hj r (hj' r h)⟩
      · exact Or.inr ⟨r, hr, hj r hj'⟩
    · exact Or.inr ⟨r, lt_of_le_of_lt h₁.next hr, hj⟩
  · exact h₁.old r k hr (h₂.old r k (hr.trans h₁.next) hk)

/-- **Coverage survives the changes of the source**, from a base its
counter has reached. -/
theorem Covers.evolve (h : Covers s has out unread base) (hb : base ≤ s.next)
    (hs : Evolves s s') : Covers s' has out unread base := by
  intro k m hk
  rcases hs.kept k m hk with ⟨hk', hj⟩ | ⟨r, hr, hj⟩
  · rcases h k m hk' with h | h | h | ⟨r, hr, h⟩
    · exact Or.inl h
    · exact Or.inr (Or.inl h)
    · exact Or.inr (Or.inr (Or.inl h))
    · exact Or.inr (Or.inr (Or.inr ⟨r, hr, hj r h⟩))
  · exact Or.inr (Or.inr (Or.inr ⟨r, lt_of_le_of_lt hb hr, hj⟩))

/-- **Coverage survives pruning** up to the base. -/
theorem Covers.prune {through : ℕ} (h : Covers s has out unread base) (hb : through ≤ base) :
    Covers { s with journal := s.journal.filter fun r _ => through < r } has out unread base := by
  intro k m hk
  rcases h k m hk with h | h | h | ⟨r, hr, h⟩
  · exact Or.inl h
  · exact Or.inr (Or.inl h)
  · exact Or.inr (Or.inr (Or.inl h))
  · refine Or.inr (Or.inr (Or.inr ⟨r, hr, ?_⟩))
    rw [Std.ExtTreeMap.getElem?_filter', h]
    simp [Option.filter, lt_of_le_of_lt hb hr]

/-- The base may move over numbers the journal does not use. -/
theorem Covers.rebase {base' : ℕ} (h : Covers s has out unread base)
    (hgap : ∀ r, base < r → r ≤ base' → s.journal[r]? = none) : Covers s has out unread base' := by
  intro k m hk
  rcases h k m hk with h | h | h | ⟨r, hr, h⟩
  · exact Or.inl h
  · exact Or.inr (Or.inl h)
  · exact Or.inr (Or.inr (Or.inl h))
  · refine Or.inr (Or.inr (Or.inr ⟨r, ?_, h⟩))
    by_contra hle
    rw [hgap r hr (not_lt.mp hle)] at h
    cases h

/-- The target gains, and what is on its way arrives. -/
theorem Covers.mono (h : Covers s has out unread base) (hhas : ∀ k m, has k m → has' k m)
    (hout : ∀ k m, out k m → has' k m ∨ out' k m) : Covers s has' out' unread base := by
  intro k m hk
  rcases h k m hk with h | h | h
  · exact Or.inl (hhas k m h)
  · rcases hout k m h with h | h
    · exact Or.inl h
    · exact Or.inr (Or.inl h)
  · exact Or.inr (Or.inr h)

/-! ## The snapshot -/

/-- Before anything is read, everything is unread. -/
theorem covers_start : Covers s has Nothing (Map.After none) base :=
  fun k _ _ => Or.inr (Or.inr (Or.inl (Map.after_none k)))

/-- **A page moves the cursor to its last key.** -/
theorem Covers.page {after : Option κ} {l : κ × μ}
    (h : Covers s has Nothing (Map.After after) base)
    (hl : (s.records.pageAfter after n).getLast? = some l) :
    Covers s has (fun k m => (k, m) ∈ s.records.pageAfter after n) (l.1 < ·) base := by
  intro k m hk
  rcases h k m hk with h | h | h | h
  · exact Or.inl h
  · exact h.elim
  · by_cases hle : k ≤ l.1
    · exact Or.inr (Or.inl (Map.mem_pageAfter_of_le_last hl hk h hle))
    · exact Or.inr (Or.inr (Or.inl (not_le.mp hle)))
  · exact Or.inr (Or.inr (Or.inr h))

/-- **An empty page means that everything has been read.** -/
theorem Covers.exhausted {after : Option κ} (h : Covers s has Nothing (Map.After after) base)
    (hn : 0 < n) (hl : s.records.pageAfter after n = []) : Covers s has Nothing AllRead base := by
  intro k m hk
  rcases h k m hk with h | h | h | h
  · exact Or.inl h
  · exact h.elim
  · exact absurd h (Map.not_after_of_pageAfter_nil hn hl hk)
  · exact Or.inr (Or.inr (Or.inr h))

/-! ## The journal -/

/-- **A page of the journal moves the base to its last number.** What it
puts on its way is what is stored under the keys it names. -/
theorem Covers.changes {l : ℕ × κ} (h : Covers s has Nothing AllRead base)
    (hl : (s.journal.pageAfter (some base) n).getLast? = some l) :
    Covers s has (fun k m => (∃ r, (r, k) ∈ s.journal.pageAfter (some base) n) ∧
      s.records[k]? = some m) AllRead l.1 := by
  intro k m hk
  rcases h k m hk with h | h | h | ⟨r, hr, hj⟩
  · exact Or.inl h
  · exact h.elim
  · exact h.elim
  · by_cases hle : r ≤ l.1
    · exact Or.inr (Or.inl ⟨⟨r, Map.mem_pageAfter_of_le_last hl hj (Map.after_some.mpr hr) hle⟩,
        hk⟩)
    · exact Or.inr (Or.inr (Or.inr ⟨r, not_le.mp hle, hj⟩))

/-- **A source whose journal is exhausted is copied.** -/
theorem Covers.done (h : Covers s has Nothing AllRead base) (hn : 0 < n)
    (hl : s.journal.pageAfter (some base) n = []) {k : κ} {m : μ}
    (hk : s.records[k]? = some m) : has k m := by
  rcases h k m hk with h | h | h | ⟨r, hr, hj⟩
  · exact h
  · exact h.elim
  · exact h.elim
  · exact absurd (Map.after_some.mpr hr) (Map.not_after_of_pageAfter_nil hn hl hj)

end Coverage

end NoSqlStore
