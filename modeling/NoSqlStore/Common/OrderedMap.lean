import Mathlib
/-!
# Ordered maps and their pages

The finite maps of the development are `Std.ExtTreeMap`s over a linear
order. A page is what an iteration that skips the keys up to a cursor and
takes a bounded number of entries returns; `mem_pageAfter`,
`not_after_of_pageAfter_nil` and `mem_pageAfter_of_le_last` are the facts
a cursor argument needs.
-/

namespace NoSqlStore

/-- A finite map over an ordered key type. -/
abbrev Map (κ α : Type) [Ord κ] := Std.ExtTreeMap κ α compare

instance lawfulEqOrd {κ : Type} [LinearOrder κ] : Std.LawfulEqOrd κ where
  eq_of_compare := compare_eq_iff_eq.mp

/-- Named, so that a map operation carries this proof itself and not an
auxiliary lemma of the module it is used in. -/
instance transOrd {κ : Type} [LinearOrder κ] : Std.TransOrd κ := inferInstance

namespace Map

variable {κ α : Type} [LinearOrder κ] {m : Map κ α} {n : ℕ}

/-! ## Pages -/

/-- `k` lies after the cursor; before the first page the cursor is
`none` and every key does. -/
def After (after : Option κ) (k : κ) : Prop := ∀ a, after = some a → a < k

@[simp] theorem after_none (k : κ) : After none k := by simp [After]

@[simp] theorem after_some {a k : κ} : After (some a) k ↔ a < k := by simp [After]

/-- The entries after a cursor, `n` of them at most, in key order. -/
def pageAfter (m : Map κ α) (after : Option κ) (n : ℕ) : List (κ × α) :=
  (m.toList.dropWhile fun e => after.any fun k => e.1 ≤ k).take n

theorem sorted_toList (m : Map κ α) : m.toList.Pairwise fun a b => a.1 < b.1 :=
  Std.ExtTreeMap.ordered_keys_toList.imp fun h => compare_lt_iff_lt.mp h

theorem nodup_keys_toList (m : Map κ α) : (m.toList.map Prod.fst).Nodup :=
  List.pairwise_map.mpr ((sorted_toList m).imp fun hlt => ne_of_lt hlt)

theorem mem_toList {k : κ} {v : α} : (k, v) ∈ m.toList ↔ m[k]? = some v :=
  Std.ExtTreeMap.mem_toList_iff_getElem?_eq_some

/-- Skipping the keys up to a cursor leaves the keys after it. -/
theorem mem_dropWhile (after : Option κ) {l : List (κ × α)}
    (hl : l.Pairwise fun a b => a.1 < b.1) {e : κ × α} :
    e ∈ l.dropWhile (fun e => after.any fun k => e.1 ≤ k) ↔ e ∈ l ∧ After after e.1 := by
  cases after with
  | none => simp [List.dropWhile_eq_self_iff.mpr]
  | some a =>
    induction l with
    | nil => simp
    | cons x l ih =>
      rw [List.pairwise_cons] at hl
      by_cases hx : x.1 ≤ a
      · rw [List.dropWhile_cons_of_pos (by simpa using hx), ih hl.2]
        constructor
        · rintro ⟨h, ha⟩
          exact ⟨List.mem_cons_of_mem _ h, ha⟩
        · rintro ⟨h, ha⟩
          rcases List.mem_cons.mp h with rfl | h
          · exact absurd (after_some.mp ha) (not_lt.mpr hx)
          · exact ⟨h, ha⟩
      · rw [List.dropWhile_cons_of_neg (by simpa using hx)]
        refine ⟨fun h => ⟨h, ?_⟩, fun h => h.1⟩
        rw [after_some]
        rcases List.mem_cons.mp h with rfl | h
        · exact not_le.mp hx
        · exact lt_trans (not_le.mp hx) (hl.1 e h)

theorem sorted_pageAfter (m : Map κ α) (after : Option κ) (n : ℕ) :
    (m.pageAfter after n).Pairwise fun a b => a.1 < b.1 :=
  ((sorted_toList m).sublist (List.dropWhile_sublist _)).sublist (List.take_sublist _ _)

/-- A page holds entries of the map that lie after the cursor. -/
theorem mem_pageAfter {after : Option κ} {k : κ} {v : α} (h : (k, v) ∈ m.pageAfter after n) :
    m[k]? = some v ∧ After after k := by
  have h := (mem_dropWhile after (sorted_toList m)).mp (List.mem_of_mem_take h)
  exact ⟨mem_toList.mp h.1, h.2⟩

/-- **An empty page means that no entry lies after the cursor.** -/
theorem not_after_of_pageAfter_nil {after : Option κ} (hn : 0 < n)
    (h : m.pageAfter after n = []) {k : κ} {v : α} (hk : m[k]? = some v) : ¬ After after k := by
  intro ha
  have hmem := (mem_dropWhile after (sorted_toList m)).mpr ⟨mem_toList.mpr hk, ha⟩
  rcases List.take_eq_nil_iff.mp h with h | h
  · omega
  · rw [h] at hmem; cases hmem

/-- **A page skips nothing up to its last key.** -/
theorem mem_pageAfter_of_le_last {after : Option κ} {l : κ × α}
    (h : (m.pageAfter after n).getLast? = some l) {k : κ} {v : α} (hk : m[k]? = some v)
    (ha : After after k) (hle : k ≤ l.1) : (k, v) ∈ m.pageAfter after n := by
  have hmem := (mem_dropWhile after (sorted_toList m)).mpr ⟨mem_toList.mpr hk, ha⟩
  have hsort := (sorted_toList m).sublist
    (List.dropWhile_sublist fun e => after.any fun k => e.1 ≤ k)
  rw [← List.take_append_drop n (List.dropWhile _ _)] at hmem hsort
  rcases List.mem_append.mp hmem with hin | hout
  · exact hin
  · have hlast : l ∈ m.pageAfter after n := List.mem_of_getLast? h
    exact absurd ((List.pairwise_append.mp hsort).2.2 l hlast _ hout) (not_lt.mpr hle)

/-- The last key of a page is its greatest. -/
theorem le_last_of_mem_pageAfter {after : Option κ} {l e : κ × α}
    (h : (m.pageAfter after n).getLast? = some l) (he : e ∈ m.pageAfter after n) :
    e.1 ≤ l.1 := by
  obtain ⟨pre, hpre⟩ := List.getLast?_eq_some_iff.mp h
  have hsort := sorted_pageAfter m after n
  rw [hpre] at hsort he
  rcases List.mem_append.mp he with hin | hin
  · exact le_of_lt ((List.pairwise_append.mp hsort).2.2 e hin l (List.mem_singleton_self l))
  · rw [List.mem_singleton.mp hin]

/-! ## Ranges -/

/-- The entries after `a`, up to `b`. -/
def between (m : Map κ α) (a b : κ) : List (κ × α) := m.toList.filter fun e => a < e.1 ∧ e.1 ≤ b

theorem mem_between {a b k : κ} {v : α} :
    (k, v) ∈ m.between a b ↔ m[k]? = some v ∧ a < k ∧ k ≤ b := by
  simp [between, List.mem_filter]

theorem nodup_of_sorted {l : List (κ × α)} (hl : l.Pairwise fun a b => a.1 < b.1) : l.Nodup :=
  hl.imp fun hlt heq => absurd hlt (by rw [heq]; exact lt_irrefl _)

/-- A range shrinks with its map and with its bounds. -/
theorem length_between_le {m' : Map κ α} {a a' b : κ} (ha : a ≤ a')
    (hsub : ∀ k v, k ≤ b → m'[k]? = some v → m[k]? = some v) :
    (m'.between a' b).length ≤ (m.between a b).length := by
  refine ((nodup_of_sorted ((sorted_toList m').filter _)).subperm fun e he => ?_).length_le
  obtain ⟨hk, hlt, hle⟩ := mem_between.mp (show (e.1, e.2) ∈ m'.between a' b from he)
  exact mem_between.mpr ⟨hsub e.1 e.2 hle hk, lt_of_le_of_lt ha hlt, hle⟩

/-- **A page reaches the end of a range no longer than it.** -/
theorem eq_none_of_page_reaches {a b : κ} {l : κ × α} (hlen : (m.between a b).length ≤ n)
    (hl : (m.pageAfter (some a) n).getLast? = some l) {r : κ} (hlt : l.1 < r) (hle : r ≤ b) :
    m[r]? = none := by
  by_contra hne
  obtain ⟨v, hv⟩ := Option.ne_none_iff_exists'.mp hne
  have hal : a < l.1 := after_some.mp (mem_pageAfter (List.mem_of_getLast? hl)).2
  have hout : (r, v) ∉ m.pageAfter (some a) n := fun hin =>
    absurd (le_last_of_mem_pageAfter hl hin) (not_le.mpr hlt)
  -- an entry left out means that the page is full
  have hfull : (m.pageAfter (some a) n).length = n := by
    have hmem := (mem_dropWhile (some a) (sorted_toList m)).mpr
      ⟨mem_toList.mpr hv, after_some.mpr (hal.trans hlt)⟩
    rw [pageAfter, List.length_take, min_eq_left]
    by_contra hshort
    refine hout ?_
    rw [pageAfter, List.take_of_length_le (not_le.mp hshort).le]
    exact hmem
  have hsub : ((r, v) :: m.pageAfter (some a) n).Subperm (m.between a b) := by
    refine List.Nodup.subperm ?_ fun e he => ?_
    · exact List.nodup_cons.mpr ⟨hout, nodup_of_sorted (sorted_pageAfter m _ n)⟩
    · rcases List.mem_cons.mp he with rfl | he
      · exact mem_between.mpr ⟨hv, hal.trans hlt, hle⟩
      · obtain ⟨hk, hafter⟩ := mem_pageAfter (show (e.1, e.2) ∈ m.pageAfter (some a) n from he)
        exact mem_between.mpr ⟨hk, after_some.mp hafter,
          (le_last_of_mem_pageAfter hl he).trans (hlt.le.trans hle)⟩
  have hcount := hsub.length_le
  rw [List.length_cons, hfull] at hcount
  omega

/-- How many entries lie after a cursor. -/
def countAfter (m : Map κ α) (a : κ) : ℕ := (m.toList.filter fun e => a < e.1).length

theorem countAfter_le_size (m : Map κ α) (a : κ) : m.countAfter a ≤ m.size := by
  rw [countAfter, ← Std.ExtTreeMap.length_toList]
  exact List.length_filter_le _ _

/-- **A cursor that moves to an entry has fewer before it.** -/
theorem countAfter_lt {a k : κ} {v : α} (hk : m[k]? = some v) (ha : a < k) :
    m.countAfter k < m.countAfter a := by
  have hsub : ((k, v) :: m.toList.filter fun e => k < e.1).Subperm
      (m.toList.filter fun e => a < e.1) := by
    refine List.Nodup.subperm (List.nodup_cons.mpr ⟨?_, ?_⟩) fun e he => ?_
    · simp
    · exact nodup_of_sorted ((sorted_toList m).filter _)
    · rcases List.mem_cons.mp he with rfl | he
      · exact List.mem_filter.mpr ⟨mem_toList.mpr hk, by simpa using ha⟩
      · obtain ⟨hin, hlt⟩ := List.mem_filter.mp he
        exact List.mem_filter.mpr ⟨hin, by simpa using ha.trans (of_decide_eq_true hlt)⟩
  exact hsub.length_le

/-! ## Updates -/

/-- A map all of whose keys are of one kind has no entry of another. -/
theorem eq_none_of_keys {K : κ → Prop} (hm : ∀ k ∈ m.keys, K k) {k : κ} (hk : ¬ K k) :
    m[k]? = none :=
  Std.ExtTreeMap.getElem?_eq_none fun hmem => hk (hm k (Std.ExtTreeMap.mem_keys.mpr hmem))

/-- An entry of a map after an insertion is the one inserted, or was there. -/
theorem getElem?_insert_cases {i j : κ} {a b : α} (h : (m.insert i a)[j]? = some b) :
    (j = i ∧ b = a) ∨ m[j]? = some b := by
  rw [Std.ExtTreeMap.getElem?_insert] at h
  split at h
  · rename_i heq
    exact Or.inl ⟨(compare_eq_iff_eq.mp heq).symm, (Option.some.inj h).symm⟩
  · exact Or.inr h

/-- Nothing is taken from a map that does not have it. -/
theorem erase_of_not_mem {k : κ} (h : k ∉ m) : m.erase k = m := by
  refine Std.ExtTreeMap.ext_getElem? fun i => ?_
  rw [Std.ExtTreeMap.getElem?_erase]
  split
  · rename_i heq
    rw [← compare_eq_iff_eq.mp heq, Std.ExtTreeMap.getElem?_eq_none h]
  · rfl

/-- Only the last entry under a key stays. -/
theorem insert_insert (m : Map κ α) (k : κ) (a b : α) :
    (m.insert k a).insert k b = m.insert k b := by
  refine Std.ExtTreeMap.ext_getElem? fun i => ?_
  simp only [Std.ExtTreeMap.getElem?_insert]
  split <;> rfl

/-- A new entry that is taken out again. -/
theorem erase_insert {k : κ} (a : α) (h : k ∉ m) : (m.insert k a).erase k = m := by
  refine Std.ExtTreeMap.ext_getElem? fun i => ?_
  rw [Std.ExtTreeMap.getElem?_erase]
  split
  · rename_i heq
    rw [← compare_eq_iff_eq.mp heq, Std.ExtTreeMap.getElem?_eq_none h]
  · rename_i hne
    rw [Std.ExtTreeMap.getElem?_insert, if_neg hne]

/-- Rewriting the entry just put in. -/
theorem alter_insert {k : κ} {a b : α} {f : Option α → Option α} (hf : f (some a) = some b) :
    (m.insert k a).alter k f = m.insert k b := by
  refine Std.ExtTreeMap.ext_getElem? fun i => ?_
  simp only [Std.ExtTreeMap.getElem?_alter, Std.ExtTreeMap.getElem?_insert]
  split
  · simpa using hf
  · rfl

/-- An entry put in is one rewritten, whatever was there. -/
theorem insert_eq_alter {k : κ} {a : α} {f : Option α → Option α} (hf : f m[k]? = some a) :
    m.insert k a = m.alter k f := by
  refine Std.ExtTreeMap.ext_getElem? fun i => ?_
  rw [Std.ExtTreeMap.getElem?_insert, Std.ExtTreeMap.getElem?_alter, hf]

/-! ## Loops over a map -/

/-- A loop over a list of entries with distinct keys that rewrites one
entry of another map a round leaves, at each key, the one rewriting. -/
theorem getElem?_foldl_alter_list {β : Type} (f : κ → α → Option β → Option β)
    {l : List (κ × α)} (hl : l.Pairwise fun a b => a.1 < b.1) (init : Map κ β) (k : κ) :
    (l.foldl (fun acc e => acc.alter e.1 (f e.1 e.2)) init)[k]? =
      match l.find? (fun e => e.1 = k) with
      | some e => f k e.2 init[k]?
      | none => init[k]? := by
  induction l generalizing init with
  | nil => rfl
  | cons x l ih =>
    rw [List.pairwise_cons] at hl
    rw [List.foldl_cons, ih hl.2]
    by_cases hx : x.1 = k
    · have hnone : l.find? (fun e => e.1 = k) = none := by
        rw [List.find?_eq_none]
        intro e he
        simpa using ne_of_gt (hx ▸ hl.1 e he)
      simp [hnone, hx]
    · rw [List.find?_cons_of_neg (by simpa using hx)]
      simp [Std.ExtTreeMap.getElem?_alter, hx]

/-- **A loop over a map that rewrites the entry of the same key in
another**, read at one key. -/
theorem getElem?_foldl_alter {β : Type} (f : κ → α → Option β → Option β) (m : Map κ α)
    (init : Map κ β) (k : κ) :
    (m.toList.foldl (fun acc e => acc.alter e.1 (f e.1 e.2)) init)[k]? =
      match m[k]? with
      | some v => f k v init[k]?
      | none => init[k]? := by
  rw [getElem?_foldl_alter_list f (sorted_toList m)]
  cases hm : m[k]? with
  | some v =>
    have hfind : m.toList.find? (fun e => e.1 = k) = some (k, v) := by
      rw [List.find?_eq_some_iff_append]
      refine ⟨by simp, ?_⟩
      obtain ⟨l₁, l₂, h⟩ := List.append_of_mem (mem_toList.mpr hm)
      refine ⟨l₁, l₂, h, fun e he => ?_⟩
      have hs := sorted_toList m
      rw [h] at hs
      simpa using ne_of_lt ((List.pairwise_append.mp hs).2.2 e he (k, v) (by simp))
    rw [hfind]
  | none =>
    have hfind : m.toList.find? (fun e => e.1 = k) = none := by
      rw [List.find?_eq_none]
      intro e he hek
      have hmem : m[e.1]? = some e.2 := mem_toList.mp he
      rw [of_decide_eq_true hek, hm] at hmem
      cases hmem
    rw [hfind]

end Map

end NoSqlStore
