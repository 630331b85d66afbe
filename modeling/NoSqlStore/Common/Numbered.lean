import Mathlib.Order.Basic
/-!
# Values with a number

A value that changes in place, and a number that rises whenever it does. A
copy that keeps the number it was taken with is `Dated` however often the
value has changed since: if the number is the present one, the copy is
equal to the value. Equality alone would not tell that the value has not
been another in between.
-/

namespace NoSqlStore

namespace Numbered

variable {V : Type*} [DecidableEq V] {now n : ℕ} {value before copy : V}

/-- The number of a value that has become another. -/
def renumber (n : ℕ) (before after : V) : ℕ := if before = after then n else n + 1

/-- **A copy with its number**: no later than the value's, and of the value
if it is the same. -/
structure Dated (now : ℕ) (value : V) (n : ℕ) (copy : V) : Prop where
  le : n ≤ now
  eq : n = now → copy = value

omit [DecidableEq V] in
theorem dated_refl (now : ℕ) (value : V) : Dated now value now value :=
  ⟨Nat.le_refl now, fun _ => rfl⟩

omit [DecidableEq V] in
theorem dated_of_lt (h : n < now) : Dated now value n copy :=
  ⟨Nat.le_of_lt h, fun heq => absurd heq (Nat.ne_of_lt h)⟩

/-- **A copy stays dated** when the value becomes another. -/
theorem Dated.renumber (h : Dated now before n copy) (after : V) :
    Dated (renumber now before after) after n copy := by
  unfold Numbered.renumber
  split
  · rename_i hsame
    exact hsame ▸ h
  · exact dated_of_lt (Nat.lt_succ_of_le h.le)

end Numbered

end NoSqlStore
