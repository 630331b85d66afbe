import NoSqlStore.Common.OrderedMap
/-!
# How many pages are left

A map that is read page by page has so many entries left after a cursor,
and so many pages. Reading a page takes one away (`pagesAfter_last`), and
a map that loses entries, or a cursor that moves up, never adds one
(`pagesAfter_le`).
-/

namespace NoSqlStore

namespace Map

variable {κ α : Type} [LinearOrder κ] {m m' : Map κ α} {a a' : Option κ} {n : ℕ}

/-- The entries after a cursor. -/
def leftAfter (m : Map κ α) (after : Option κ) : ℕ :=
  (m.toList.dropWhile fun e => after.any fun k => e.1 ≤ k).length

/-- The pages after a cursor, each of `n` entries but the last. -/
def pagesAfter (m : Map κ α) (after : Option κ) (n : ℕ) : ℕ := (m.leftAfter after + n - 1) / n

theorem sorted_dropWhile (m : Map κ α) (after : Option κ) :
    (m.toList.dropWhile fun e => after.any fun k => e.1 ≤ k).Pairwise fun a b => a.1 < b.1 :=
  (sorted_toList m).sublist (List.dropWhile_sublist _)

/-- Fewer entries are left of a smaller map, and after a later cursor. -/
theorem leftAfter_le (hsub : ∀ (k : κ) (v : α), m'[k]? = some v → m[k]? = some v)
    (hafter : ∀ k, After a' k → After a k) : m'.leftAfter a' ≤ m.leftAfter a := by
  refine ((nodup_of_sorted (sorted_dropWhile m' a')).subperm fun e he => ?_).length_le
  obtain ⟨hin, hk⟩ := (mem_dropWhile a' (sorted_toList m')).mp he
  refine (mem_dropWhile a (sorted_toList m)).mpr ⟨?_, hafter e.1 hk⟩
  exact mem_toList.mpr (hsub e.1 e.2 (mem_toList.mp hin))

theorem pagesAfter_le (hsub : ∀ (k : κ) (v : α), m'[k]? = some v → m[k]? = some v)
    (hafter : ∀ k, After a' k → After a k) : m'.pagesAfter a' n ≤ m.pagesAfter a n := by
  have hleft := leftAfter_le hsub hafter
  exact Nat.div_le_div_right (by omega)

/-- **A page takes its entries away.** -/
theorem leftAfter_last {l : κ × α} (hl : (m.pageAfter a n).getLast? = some l) :
    0 < m.leftAfter a ∧ m.leftAfter (some l.1) ≤ m.leftAfter a - n := by
  have hin : l ∈ m.pageAfter a n := List.mem_of_getLast? hl
  refine ⟨List.length_pos_of_mem (List.mem_of_mem_take hin), ?_⟩
  rw [leftAfter, leftAfter, ← List.length_drop]
  refine ((nodup_of_sorted (sorted_dropWhile m (some l.1))).subperm fun e he => ?_).length_le
  obtain ⟨hstored, hlt⟩ := (mem_dropWhile (some l.1) (sorted_toList m)).mp he
  rw [after_some] at hlt
  -- the entry lies after the cursor too, and not on the page
  have hleft : e ∈ m.toList.dropWhile fun e => a.any fun k => e.1 ≤ k := by
    refine (mem_dropWhile a (sorted_toList m)).mpr ⟨hstored, fun k hk => ?_⟩
    exact ((mem_pageAfter (show (l.1, l.2) ∈ m.pageAfter a n from hin)).2 k hk).trans hlt
  rw [← List.take_append_drop n (List.dropWhile _ _)] at hleft
  rcases List.mem_append.mp hleft with hpage | hrest
  · exact absurd (le_last_of_mem_pageAfter hl hpage) (not_le.mpr hlt)
  · exact hrest

/-- **A page read is a page less to read.** -/
theorem pagesAfter_last {l : κ × α} (hn : 0 < n) (hl : (m.pageAfter a n).getLast? = some l) :
    m.pagesAfter (some l.1) n + 1 ≤ m.pagesAfter a n := by
  obtain ⟨hpos, hleft⟩ := leftAfter_last hl
  rw [pagesAfter, pagesAfter]
  rcases Nat.lt_or_ge (m.leftAfter a) n with hshort | hfull
  · -- the page was the last one
    have hnone : m.leftAfter (some l.1) = 0 := by omega
    have hone : 1 ≤ (m.leftAfter a + n - 1) / n := Nat.div_pos (by omega) hn
    rw [hnone, Nat.div_eq_of_lt (by omega)]
    omega
  · rw [← Nat.add_div_right _ hn]
    exact Nat.div_le_div_right (by omega)

end Map

end NoSqlStore
