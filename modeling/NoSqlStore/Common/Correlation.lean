import NoSqlStore.Common.OrderedMap
/-!
# Requests and responses matched by a number

A channel to a peer that answers in order. A request travels under a
number, a table says who waits under it, and a response brings the number
back. Each message in transit carries who it belongs to, which the peer
and the table never see. `Matched` says that the table agrees with this;
it is kept as long as no request takes a number somebody waits under, and
then a response reaches the one who asked (`Matched.asker`).
-/

namespace NoSqlStore

namespace Correlation

/-- The two directions of a channel, and who waits under each number. -/
structure Channel (τ Q R : Type) where
  pending : Map ℕ τ
  outbound : List (τ × Q)
  inbound : List (τ × R)

namespace Channel

variable {τ Q R : Type} {a : τ} {q : Q} {r : R} {id : ℕ}

/-- Waiting under a number and sending a request. -/
def send (c : Channel τ Q R) (id : ℕ) (a : τ) (q : Q) : Channel τ Q R :=
  { c with pending := c.pending.insert id a, outbound := c.outbound ++ [(a, q)] }

/-- The peer takes the first request and answers it. -/
def answer (c : Channel τ Q R) (a : τ) (rest : List (τ × Q)) (r : R) : Channel τ Q R :=
  { c with outbound := rest, inbound := c.inbound ++ [(a, r)] }

/-- The first response is taken, and nobody waits under its number any
more. -/
def receive (c : Channel τ Q R) (id : ℕ) (rest : List (τ × R)) : Channel τ Q R :=
  { c with pending := c.pending.erase id, inbound := rest }

variable (numberOf : Q → ℕ) (numberOf' : R → ℕ)

/-- The numbers in transit, in the order in which they will come back, and
whose they are. -/
def inTransit (c : Channel τ Q R) : List (ℕ × τ) :=
  c.inbound.map (fun e => (numberOf' e.2, e.1)) ++ c.outbound.map fun e => (numberOf e.2, e.1)

/-- **The table agrees with what is in transit.** -/
structure Matched (c : Channel τ Q R) : Prop where
  distinct : ((c.inTransit numberOf numberOf').map Prod.fst).Nodup
  awaited : ∀ e ∈ c.inTransit numberOf numberOf', c.pending[e.1]? = some e.2

variable {numberOf numberOf'} {c : Channel τ Q R}

/-- A request that takes a number nobody waits under. -/
theorem Matched.send (h : Matched numberOf numberOf' c) (hfree : id ∉ c.pending)
    (hid : numberOf q = id) : Matched numberOf numberOf' (c.send id a q) := by
  have htransit : (c.send id a q).inTransit numberOf numberOf' =
      c.inTransit numberOf numberOf' ++ [(id, a)] := by
    simp [Channel.send, inTransit, hid]
  have hother : ∀ e ∈ c.inTransit numberOf numberOf', e.1 ≠ id := by
    intro e he heq
    have hsome := h.awaited e he
    rw [heq, Std.ExtTreeMap.getElem?_eq_none hfree] at hsome
    cases hsome
  refine ⟨?_, fun e he => ?_⟩
  · rw [htransit, List.map_append, List.nodup_append]
    refine ⟨h.distinct, by simp, ?_⟩
    rintro n hn m hm rfl
    obtain ⟨e, he, rfl⟩ := List.mem_map.mp hn
    exact hother e he (by simpa using hm)
  · rw [htransit, List.mem_append, List.mem_singleton] at he
    rw [Channel.send, Std.ExtTreeMap.getElem?_insert]
    rcases he with he | rfl
    · rw [if_neg fun heq => hother e he (compare_eq_iff_eq.mp heq).symm]
      exact h.awaited e he
    · rw [if_pos (compare_eq_iff_eq.mpr rfl)]

/-- An answer under the number of the request. -/
theorem Matched.answer {rest : List (τ × Q)} (h : Matched numberOf numberOf' c)
    (hout : c.outbound = (a, q) :: rest) (hid : numberOf' r = numberOf q) :
    Matched numberOf numberOf' (c.answer a rest r) := by
  have htransit : (c.answer a rest r).inTransit numberOf numberOf' =
      c.inTransit numberOf numberOf' := by
    simp [Channel.answer, inTransit, hout, hid]
  refine ⟨?_, fun e he => ?_⟩
  · rw [htransit]
    exact h.distinct
  · rw [htransit] at he
    exact h.awaited e he

/-- **A response finds the one who asked.** -/
theorem Matched.asker {rest : List (τ × R)} (h : Matched numberOf numberOf' c)
    (hin : c.inbound = (a, r) :: rest) : c.pending[numberOf' r]? = some a :=
  h.awaited (numberOf' r, a) (by simp [inTransit, hin])

theorem Matched.receive {rest : List (τ × R)} (h : Matched numberOf numberOf' c)
    (hin : c.inbound = (a, r) :: rest) :
    Matched numberOf numberOf' (c.receive (numberOf' r) rest) := by
  have htransit : c.inTransit numberOf numberOf' =
      (numberOf' r, a) :: (c.receive (numberOf' r) rest).inTransit numberOf numberOf' := by
    simp [Channel.receive, inTransit, hin]
  have hdistinct := h.distinct
  rw [htransit, List.map_cons, List.nodup_cons] at hdistinct
  refine ⟨hdistinct.2, fun e he => ?_⟩
  have hne : e.1 ≠ numberOf' r := fun heq => hdistinct.1 (List.mem_map.mpr ⟨e, he, heq⟩)
  rw [Channel.receive, Std.ExtTreeMap.getElem?_erase,
    if_neg fun heq => hne (compare_eq_iff_eq.mp heq).symm]
  exact h.awaited e (htransit ▸ List.mem_cons_of_mem _ he)

end Channel

end Correlation

end NoSqlStore
