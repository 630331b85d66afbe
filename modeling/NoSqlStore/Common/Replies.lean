import Mathlib.Data.List.Basic
/-!
# Machines that answer calls

A machine reads one call at a time, replies to it and goes on in the state
it leaves. What a user of it sees is the list of its replies. A machine
refines another when a relation of their states is kept by every call and
makes the replies equal; then no sequence of calls tells the two apart.
-/

namespace NoSqlStore

namespace Replies

variable {σ τ ι ο : Type*} {call : σ → ι → ο × σ} {spec : τ → ι → ο × τ} {R : σ → τ → Prop}

/-- What a machine replies to some calls, in their order. -/
def replies (call : σ → ι → ο × σ) : σ → List ι → List ο
  | _, [] => []
  | s, i :: is => (call s i).1 :: replies call (call s i).2 is

@[simp] theorem replies_nil (s : σ) : replies call s [] = [] := rfl

@[simp] theorem replies_cons (s : σ) (i : ι) (is : List ι) :
    replies call s (i :: is) = (call s i).1 :: replies call (call s i).2 is := rfl

/-- **One machine refines another** along `R`. -/
structure Refines (call : σ → ι → ο × σ) (spec : τ → ι → ο × τ) (R : σ → τ → Prop) : Prop where
  reply : ∀ s t i, R s t → (call s i).1 = (spec t i).1
  next : ∀ s t i, R s t → R (call s i).2 (spec t i).2

/-- **No sequence of calls tells the two apart.** -/
theorem Refines.replies_eq (h : Refines call spec R) {s : σ} {t : τ} (hst : R s t)
    (calls : List ι) : replies call s calls = replies spec t calls := by
  induction calls generalizing s t with
  | nil => rfl
  | cons i calls ih => rw [replies_cons, replies_cons, h.reply s t i hst, ih (h.next s t i hst)]

end Replies

end NoSqlStore
