import NoSqlStore.Common.OrderedMap
/-!
# Iterating hash tables and collecting them again

A hash map or a hash set is iterated in an order of its own, and a new one
is collected from what the iteration yields. `rekeyed_read` is the fact a
round trip needs: entries written in one order under other keys, and read
back in another, give the map again where every entry reads back to itself.
-/

namespace NoSqlStore

/-- An order in which a hash map or a hash set is iterated. -/
structure Iteration where
  run : {α : Type} → List α → List α
  perm : ∀ {α : Type} (l : List α), (run l).Perm l

/-- Collecting entries into a hash map: of two with one key the later
stays. -/
def collect {κ α : Type} [LinearOrder κ] (entries : List (κ × α)) : Map κ α :=
  Std.ExtTreeMap.ofList entries compare

/-- Entries that all read are read in their order. -/
theorem mapM_of_isSome {α β : Type} {f : α → Option β} {l : List α}
    (h : ∀ x ∈ l, (f x).isSome) : l.mapM f = some (l.filterMap f) := by
  induction l with
  | nil => rfl
  | cons x l ih =>
    obtain ⟨y, hy⟩ := Option.isSome_iff_exists.mp (h x List.mem_cons_self)
    have hrest := ih fun z hz => h z (List.mem_cons_of_mem _ hz)
    rw [List.mapM_cons, hy, hrest, List.filterMap_cons_some hy]
    rfl

/-- What is read of a list has been read of each of its elements. -/
theorem exists_of_mapM {α β : Type} {f : α → Option β} {l : List α} {l' : List β}
    (h : l.mapM f = some l') {x : α} (hx : x ∈ l) : ∃ y ∈ l', f x = some y := by
  induction l generalizing l' with
  | nil => cases hx
  | cons z l ih =>
    rw [List.mapM_cons] at h
    obtain ⟨y, hy, h⟩ := Option.bind_eq_some_iff.mp h
    obtain ⟨ys, hys, h⟩ := Option.bind_eq_some_iff.mp h
    cases h
    rcases List.mem_cons.mp hx with rfl | hx
    · exact ⟨y, List.mem_cons_self, hy⟩
    · obtain ⟨y', hy', hf⟩ := ih hys hx
      exact ⟨y', List.mem_cons_of_mem _ hy', hf⟩

/-- **What is written in one order and read in another** is read whole. -/
theorem mapM_of_perm {α β : Type} {write : α → β} {read : β → Option α} {l : List α} {l' : List β}
    (hread : ∀ x ∈ l, read (write x) = some x) (hl : l'.Perm (l.map write)) :
    ∃ back, l'.mapM read = some back ∧ back.Perm l := by
  have hsome : ∀ y ∈ l', (read y).isSome := by
    intro y hy
    obtain ⟨x, hx, rfl⟩ := List.mem_map.mp (hl.mem_iff.mp hy)
    rw [hread x hx]
    rfl
  refine ⟨l'.filterMap read, mapM_of_isSome hsome, ?_⟩
  have hback : (l.map write).filterMap read = l := by
    rw [List.filterMap_map]
    exact (List.filterMap_congr hread).trans List.filterMap_some
  exact hback ▸ hl.filterMap read

namespace Map

variable {κ α : Type} [LinearOrder κ] {m : Map κ α}

/-- Entries with distinct keys are those of the map they are collected
into. -/
theorem perm_toList_collect {l : List (κ × α)} (hl : (l.map Prod.fst).Nodup) :
    (collect l).toList.Perm l := by
  have hdistinct : l.Pairwise fun a b => ¬ compare a.1 b.1 = .eq :=
    (List.pairwise_map.mp hl).imp fun hne heq => hne (compare_eq_iff_eq.mp heq)
  have hget : ∀ {k v}, (k, v) ∈ l → (collect l)[k]? = some v := fun hin =>
    Std.ExtTreeMap.getElem?_ofList_of_mem (compare_eq_iff_eq.mpr rfl) hdistinct hin
  refine (List.perm_ext_iff_of_nodup (nodup_of_sorted (sorted_toList _))
    (List.Nodup.of_map _ hl)).mpr fun ⟨k, v⟩ => ?_
  rw [mem_toList]
  refine ⟨fun hv => ?_, hget⟩
  by_cases hk : k ∈ l.map Prod.fst
  · obtain ⟨⟨k, v'⟩, hin, rfl⟩ := List.mem_map.mp hk
    rw [hget hin] at hv
    cases hv
    exact hin
  · have hnone : (collect l)[k]? = none :=
      Std.ExtTreeMap.getElem?_ofList_of_contains_eq_false (by simpa using hk)
    rw [hnone] at hv
    cases hv

theorem getElem?_collect {l : List (κ × α)} (hl : (l.map Prod.fst).Nodup) {k : κ} {v : α} :
    (collect l)[k]? = some v ↔ (k, v) ∈ l := by
  rw [← mem_toList, (perm_toList_collect hl).mem_iff]

/-- Collecting is inserting one entry after the other. -/
theorem collect_eq_foldl (l : List (κ × α)) :
    collect l = l.foldl (fun m e => m.insert e.1 e.2) (∅ : Map κ α) := by
  have hinsert : ∀ (l : List (κ × α)) (m : Map κ α),
      m.insertMany l = l.foldl (fun m e => m.insert e.1 e.2) m := by
    intro l
    induction l with
    | nil => exact fun m => Std.ExtTreeMap.insertMany_nil
    | cons e l ih => exact fun m => Std.ExtTreeMap.insertMany_cons.trans (ih (m.insert e.1 e.2))
  rw [collect, Std.ExtTreeMap.ofList_eq_insertMany_empty, hinsert]

/-- **A map written entry by entry** under other keys, in any order, is
looked up as the map is, where the keys are renamed apart. -/
theorem getElem?_rekeyed {ν β : Type} [LinearOrder ν] {f : κ → ν} (hf : Function.Injective f)
    (g : κ → α → β) (order : Iteration) (m : Map κ α) (k : κ) :
    (collect ((order.run m.toList).map fun e => (f e.1, g e.1 e.2)))[f k]? = m[k]?.map (g k) := by
  have hkeys : (((order.run m.toList).map fun e => (f e.1, g e.1 e.2)).map Prod.fst).Nodup := by
    rw [List.map_map]
    have hrun : ((order.run m.toList).map Prod.fst).Nodup :=
      ((order.perm m.toList).map Prod.fst).nodup_iff.mpr (nodup_keys_toList m)
    rw [show (Prod.fst ∘ fun e : κ × α => (f e.1, g e.1 e.2)) = f ∘ Prod.fst from rfl,
      ← List.map_map]
    exact hrun.map hf
  ext v
  rw [getElem?_collect hkeys, List.mem_map, Option.map_eq_some_iff]
  constructor
  · rintro ⟨⟨k', a⟩, hin, heq⟩
    obtain ⟨hk, rfl⟩ := Prod.mk.inj heq
    obtain rfl := hf hk
    exact ⟨a, mem_toList.mp ((order.perm _).mem_iff.mp hin), rfl⟩
  · rintro ⟨a, ha, rfl⟩
    exact ⟨(k, a), (order.perm _).mem_iff.mpr (mem_toList.mpr ha), rfl⟩

/-- A map is collected from its entries, in whatever order. -/
theorem collect_of_perm {l : List (κ × α)} (h : l.Perm m.toList) : collect l = m := by
  have hkeys : (l.map Prod.fst).Nodup := (h.map Prod.fst).nodup_iff.mpr (nodup_keys_toList m)
  exact Std.ExtTreeMap.ext_toList ((perm_toList_collect hkeys).trans h)

/-- **A map written under other keys is read back**, in whatever orders
the two maps are iterated: the keys are renamed apart, and each entry reads
back to itself. -/
theorem rekeyed_read {ν β : Type} [LinearOrder ν] {write : κ × α → ν × β}
    {read : ν × β → Option (κ × α)} (out back : Iteration)
    (hkeys : ∀ e ∈ m.toList, ∀ e' ∈ m.toList, (write e).1 = (write e').1 → e.1 = e'.1)
    (hread : ∀ e ∈ m.toList, read (write e) = some e) :
    ((back.run (collect ((out.run m.toList).map write)).toList).mapM read).map collect =
      some m := by
  have hout : ((out.run m.toList).map write).Perm (m.toList.map write) :=
    (out.perm m.toList).map write
  have hdistinct : (((out.run m.toList).map write).map Prod.fst).Nodup := by
    refine (hout.map Prod.fst).nodup_iff.mpr ?_
    rw [List.map_map]
    refine List.Nodup.map_on (fun e he e' he' heq => ?_) (nodup_of_sorted (sorted_toList m))
    have hkey := hkeys e he e' he' heq
    have hv : m[e.1]? = some e.2 := mem_toList.mp he
    have hv' : m[e'.1]? = some e'.2 := mem_toList.mp he'
    rw [hkey, hv'] at hv
    exact Prod.ext hkey (Option.some.inj hv).symm
  have hentries := (back.perm _).trans ((perm_toList_collect hdistinct).trans hout)
  obtain ⟨entries, hmapM, hperm⟩ := mapM_of_perm hread hentries
  rw [hmapM, Option.map_some, collect_of_perm hperm]

end Map

end NoSqlStore
