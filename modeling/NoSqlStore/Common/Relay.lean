import Mathlib.Data.List.Basic
import Mathlib.Data.Set.Defs
import Mathlib.Logic.Function.Basic
import Mathlib.Order.Basic
/-!
# Values relayed along links

A value that its origin alone renews is handed from node to node over
links that keep the order in which values are sent, and may lose some.
Where a node takes the value from one node only, its source, what is on
the way to it lies between what it holds and what its source holds
(`Ordered`). A set of nodes that holds the sources of its nodes stays in
order whatever the nodes outside it do, so none of them goes back
(`InOrder.le_head`).
-/

namespace NoSqlStore

namespace Relay

/-- What each node holds, and what is on the way between any two, oldest
first. -/
structure Net (ν α : Type*) where
  held : ν → α
  links : ν → ν → List α

variable {ν α : Type*}

/-- The set holds the sources of its nodes. -/
def Closed (source : ν → ν) (origin : ν) (within : Set ν) : Prop :=
  ∀ n ∈ within, n ≠ origin → source n ∈ within

section Order

variable [Preorder α]

/-- **What is on the way to a node is in order**, between what the node
holds and what its source holds. -/
structure Ordered (source : ν → ν) (net : Net ν α) (n : ν) : Prop where
  ends : net.held n ≤ net.held (source n)
  link : (net.links (source n) n).Pairwise (· ≤ ·)
  between : ∀ a ∈ net.links (source n) n, net.held n ≤ a ∧ a ≤ net.held (source n)

/-- The nodes of a set are in order, the origin apart. -/
def InOrder (source : ν → ν) (origin : ν) (within : Set ν) (net : Net ν α) : Prop :=
  ∀ n ∈ within, n ≠ origin → Ordered source net n

variable {net : Net ν α} {source : ν → ν} {origin : ν} {within : Set ν}

/-- A source that holds more keeps the order. -/
theorem Ordered.of_le {net' : Net ν α} {n : ν} (h : Ordered source net n)
    (hheld : net'.held n = net.held n) (hsource : net.held (source n) ≤ net'.held (source n))
    (hlinks : net'.links (source n) n = net.links (source n) n) : Ordered source net' n := by
  refine ⟨?_, ?_, fun a ha => ?_⟩
  · rw [hheld]
    exact h.ends.trans hsource
  · rw [hlinks]
    exact h.link
  · rw [hlinks] at ha
    rw [hheld]
    exact ⟨(h.between a ha).1, (h.between a ha).2.trans hsource⟩

/-- **What a node takes is not older than what it holds.** -/
theorem InOrder.le_head (h : InOrder source origin within net) {n : ν} (hn : n ∈ within)
    (horigin : n ≠ origin) {a : α} (ha : (net.links (source n) n).head? = some a) :
    net.held n ≤ a :=
  ((h n hn horigin).between a (List.mem_of_head? ha)).1

end Order

variable [DecidableEq ν]

namespace Net

/-- A node holds another value. -/
def hold (net : Net ν α) (n : ν) (a : α) : Net ν α :=
  { net with held := Function.update net.held n a }

/-- A node sends what it holds, as often as `copies` says, to each. -/
def send (net : Net ν α) (m : ν) (copies : ν → ℕ) : Net ν α :=
  { net with
    links := Function.update net.links m fun n =>
      net.links m n ++ List.replicate (copies n) (net.held m) }

/-- The oldest value of a link leaves it. -/
def pop (net : Net ν α) (m n : ν) : Net ν α :=
  { net with
    links := Function.update net.links m (Function.update (net.links m) n (net.links m n).tail) }

variable {net : Net ν α} {m n k : ν} {a : α}

theorem held_hold_self : (net.hold n a).held n = a := Function.update_self _ _ _

theorem held_hold_of_ne (h : k ≠ n) : (net.hold n a).held k = net.held k :=
  Function.update_of_ne h _ _

theorem links_send_self (copies : ν → ℕ) : (net.send m copies).links m n =
    net.links m n ++ List.replicate (copies n) (net.held m) := by
  simp [send]

theorem links_send_of_ne (h : k ≠ m) (copies : ν → ℕ) :
    (net.send m copies).links k n = net.links k n := by
  simp [send, Function.update_of_ne h]

theorem links_pop_self : (net.pop m n).links m n = (net.links m n).tail := by
  simp [pop]

/-- A link loses nothing, or its oldest value. -/
theorem links_pop (j : ν) :
    (net.pop m n).links j k = net.links j k ∨ (net.pop m n).links j k = (net.links j k).tail := by
  by_cases hj : j = m
  · subst hj
    by_cases hk : k = n
    · subst hk
      exact Or.inr links_pop_self
    · exact Or.inl (by simp [pop, Function.update_of_ne hk])
  · exact Or.inl (by simp [pop, Function.update_of_ne hj])

end Net

variable [Preorder α] {net : Net ν α} {source : ν → ν} {origin : ν} {within : Set ν}

/-- **A node holds a later value.** The nodes it is the source of stay in
order; whether it does itself depends on what is on the way to it. -/
theorem InOrder.raise (h : InOrder source origin within net) {n : ν} {a : α} (ha : net.held n ≤ a)
    (hn : n ∈ within → n ≠ origin → Ordered source (net.hold n a) n) :
    InOrder source origin within (net.hold n a) := by
  intro k hk horigin
  by_cases heq : k = n
  · subst heq
    exact hn hk horigin
  · refine (h k hk horigin).of_le (Net.held_hold_of_ne heq) ?_ rfl
    by_cases hs : source k = n
    · rw [hs, Net.held_hold_self]
      exact ha
    · rw [Net.held_hold_of_ne hs]

/-- **The origin renews its value.** -/
theorem InOrder.renew (h : InOrder source origin within net) {a : α} (ha : net.held origin ≤ a) :
    InOrder source origin within (net.hold origin a) :=
  h.raise ha fun _ hne => absurd rfl hne

/-- **A node outside the set takes any value.** -/
theorem InOrder.outside (h : InOrder source origin within net)
    (hclosed : Closed source origin within) {n : ν} (hn : n ∉ within) (a : α) :
    InOrder source origin within (net.hold n a) := by
  intro k hk horigin
  have hkn : k ≠ n := fun heq => hn (heq ▸ hk)
  have hsn : source k ≠ n := fun heq => hn (heq ▸ hclosed k hk horigin)
  exact (h k hk horigin).of_le (Net.held_hold_of_ne hkn) (Net.held_hold_of_ne hsn).ge rfl

/-- **A node sends what it holds.** -/
theorem InOrder.send (h : InOrder source origin within net) (m : ν) (copies : ν → ℕ) :
    InOrder source origin within (net.send m copies) := by
  intro n hn horigin
  have hord := h n hn horigin
  by_cases hs : source n = m
  · subst hs
    refine ⟨hord.ends, ?_, fun b hb => ?_⟩
    · rw [Net.links_send_self]
      refine List.pairwise_append.mpr
        ⟨hord.link, List.pairwise_replicate.mpr (Or.inr le_rfl), fun b hb c hc => ?_⟩
      rw [List.eq_of_mem_replicate hc]
      exact (hord.between b hb).2
    · rw [Net.links_send_self] at hb
      rcases List.mem_append.mp hb with hb | hb
      · exact hord.between b hb
      · rw [List.eq_of_mem_replicate hb]
        exact ⟨hord.ends, le_rfl⟩
  · exact hord.of_le rfl le_rfl (Net.links_send_of_ne hs copies)

/-- **The oldest value of a link is lost.** -/
theorem InOrder.lose (h : InOrder source origin within net) (m n : ν) :
    InOrder source origin within (net.pop m n) := by
  intro k hk horigin
  have hord := h k hk horigin
  have hpop : (net.pop m n).links (source k) k = net.links (source k) k ∨
      (net.pop m n).links (source k) k = (net.links (source k) k).tail := Net.links_pop (source k)
  rcases hpop with heq | heq
  · exact hord.of_le rfl le_rfl heq
  · refine ⟨hord.ends, ?_, fun b hb => ?_⟩
    · rw [heq]
      exact hord.link.tail
    · rw [heq] at hb
      exact hord.between b (List.mem_of_mem_tail hb)

/-- **A node takes the oldest value on the way from its source.** -/
theorem InOrder.take (h : InOrder source origin within net) {n : ν} (hn : n ∈ within)
    (horigin : n ≠ origin) {a : α} (ha : (net.links (source n) n).head? = some a) :
    InOrder source origin within ((net.pop (source n) n).hold n a) := by
  have hle := h.le_head hn horigin ha
  refine (h.lose (source n) n).raise hle fun _ _ => ?_
  have hord := h n hn horigin
  obtain ⟨rest, hrest⟩ : ∃ rest, net.links (source n) n = a :: rest := by
    rw [List.head?_eq_some_iff] at ha
    exact ha
  have htail : ((net.pop (source n) n).hold n a).links (source n) n = rest := by
    have hpop : ((net.pop (source n) n).hold n a).links (source n) n =
        (net.links (source n) n).tail := Net.links_pop_self
    rw [hpop, hrest]
    rfl
  -- where a node is its own source, what it takes is above what it held
  have habove : ∀ b ∈ net.links (source n) n,
      b ≤ ((net.pop (source n) n).hold n a).held (source n) := by
    intro b hb
    by_cases hs : source n = n
    · rw [hs, Net.held_hold_self]
      have hbelow := (hord.between b hb).2
      rw [hs] at hbelow
      exact hbelow.trans hle
    · rw [Net.held_hold_of_ne hs]
      exact (hord.between b hb).2
  have hlink := hord.link
  rw [hrest] at hlink habove
  refine ⟨?_, ?_, fun b hb => ?_⟩
  · rw [Net.held_hold_self]
    exact habove a List.mem_cons_self
  · rw [htail]
    exact hlink.of_cons
  · rw [htail] at hb
    rw [Net.held_hold_self]
    exact ⟨List.rel_of_pairwise_cons hlink hb, habove b (List.mem_cons_of_mem _ hb)⟩

end Relay

end NoSqlStore
