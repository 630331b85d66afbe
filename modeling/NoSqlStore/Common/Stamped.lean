import Mathlib.Data.Finset.Card
import Mathlib.Logic.Function.Basic
import Mathlib.Logic.Relation
/-!
# Registers with a stamp

A register that writers change in place, for readers that take no lock. A
writer enters, changes the contents, takes the next stamp of a counter,
stores it in the register and leaves; a count says how many are inside.
Writers may overlap in any way, and may store their stamps in another
order than they took them in. What a reader can rely on is that a stamp
is taken once: from an instant at which nobody is inside, every stamp
stored later is newer than all there have been (`Since`). So a reader that
sees a stamp, then nobody inside, then the same stamp, has seen the stamp
of the instant between (`settled_stamp`), and two readers that see one
stamp have seen the same contents (`settled_contents`). Whatever else may
happen to the contents, outside any writer, is a preorder's.
-/

namespace NoSqlStore

namespace Stamped

open Relation

variable {W α : Type*} [DecidableEq W] {R : α → α → Prop}

/-- Where a writer stands. -/
inductive Stage
  | idle
  | entered
  | took (stamp : ℕ)
  | stored

/-- A register, the counter its stamps are taken from, and its writers. -/
structure Register (W α : Type*) where
  next : ℕ
  stamp : ℕ
  active : ℕ
  stage : W → Stage
  contents : α

namespace Register

variable {s s₀ s₁ s₂ s₃ s₄ : Register W α}

/-- **One atomic action.** -/
inductive Step (R : α → α → Prop) (s : Register W α) : Register W α → Prop
  | enter (w : W) (idle : s.stage w = .idle) :
      Step R s { s with active := s.active + 1, stage := Function.update s.stage w .entered }
  /-- A writer that has not stored its stamp changes the contents. -/
  | change (w : W) (contents : α) (inside : s.stage w ≠ .idle) (early : s.stage w ≠ .stored) :
      Step R s { s with contents }
  | take (w : W) (entered : s.stage w = .entered) :
      Step R s { s with
        next := s.next + 1, stage := Function.update s.stage w (.took (s.next + 1)) }
  | store (w : W) (n : ℕ) (took : s.stage w = .took n) :
      Step R s { s with stamp := n, stage := Function.update s.stage w .stored }
  | leave (w : W) (stored : s.stage w = .stored) :
      Step R s { s with active := s.active - 1, stage := Function.update s.stage w .idle }
  /-- Another register takes a stamp, or the contents change otherwise. -/
  | outside (n : ℕ) (contents : α) (onward : s.next ≤ n) (related : R s.contents contents) :
      Step R s { s with next := n, contents }

/-- Nobody is inside. -/
def Quiet (s : Register W α) : Prop := ∀ w, s.stage w = .idle

/-- **What holds of a register in use**: the count counts the writers
inside, and no stamp is above the counter. -/
structure Valid (s : Register W α) : Prop where
  active : ∃ inside : Finset W, (∀ w, w ∈ inside ↔ s.stage w ≠ .idle) ∧ s.active = inside.card
  stamp : s.stamp ≤ s.next
  took : ∀ w n, s.stage w = .took n → n ≤ s.next

omit [DecidableEq W] in
theorem Valid.quiet_iff (h : s.Valid) : s.active = 0 ↔ s.Quiet := by
  obtain ⟨inside, hinside, hcard⟩ := h.active
  rw [hcard, Finset.card_eq_zero, Finset.eq_empty_iff_forall_notMem]
  refine forall_congr' fun w => ?_
  rw [hinside, not_not]

/-- The stage of a writer after one has moved. -/
theorem update_cases {g : W → Stage} {w v : W} {new stage : Stage}
    (h : Function.update g w new v = stage) : (v = w ∧ new = stage) ∨ (v ≠ w ∧ g v = stage) := by
  by_cases hv : v = w
  · subst hv
    rw [Function.update_self] at h
    exact Or.inl ⟨rfl, h⟩
  · rw [Function.update_of_ne hv] at h
    exact Or.inr ⟨hv, h⟩

/-- Moving one writer between two stages inside changes no count. -/
theorem active_update {inside : Finset W} (hinside : ∀ w, w ∈ inside ↔ s.stage w ≠ .idle) {w : W}
    {stage : Stage} (hw : s.stage w ≠ .idle) (hstage : stage ≠ .idle) (v : W) :
    v ∈ inside ↔ Function.update s.stage w stage v ≠ .idle := by
  by_cases hv : v = w
  · subst hv
    rw [Function.update_self]
    exact iff_of_true ((hinside v).2 hw) hstage
  · rw [Function.update_of_ne hv]
    exact hinside v

theorem Valid.step (h : s₀.Valid) (hstep : Step R s₀ s₁) : s₁.Valid := by
  obtain ⟨inside, hinside, hcard⟩ := h.active
  cases hstep with
  | enter w hidle =>
    refine ⟨⟨insert w inside, fun v => ?_, ?_⟩, h.stamp, fun v n hv => ?_⟩
    · show v ∈ insert w inside ↔ Function.update s₀.stage w .entered v ≠ .idle
      by_cases hvw : v = w
      · subst hvw
        simp
      · rw [Finset.mem_insert, Function.update_of_ne hvw, hinside]
        simp [hvw]
    · have hnot : w ∉ inside := fun hw => (hinside w).1 hw hidle
      rw [Finset.card_insert_of_notMem hnot, hcard]
    · rcases update_cases hv with ⟨-, hnew⟩ | ⟨-, hold⟩
      · cases hnew
      · exact h.took v n hold
  | change w contents hin hearly => exact ⟨⟨inside, hinside, hcard⟩, h.stamp, h.took⟩
  | take w hentered =>
    have hw : s₀.stage w ≠ .idle := by simp [hentered]
    have hstamp := h.stamp
    refine ⟨⟨inside, active_update hinside hw nofun, hcard⟩, ?_, fun v n hv => ?_⟩
    · show s₀.stamp ≤ s₀.next + 1
      omega
    · show n ≤ s₀.next + 1
      rcases update_cases hv with ⟨-, hnew⟩ | ⟨-, hold⟩
      · cases hnew
        exact le_rfl
      · have := h.took v n hold
        omega
  | store w n htook =>
    have hw : s₀.stage w ≠ .idle := by simp [htook]
    refine ⟨⟨inside, active_update hinside hw nofun, hcard⟩, h.took w n htook, fun v n hv => ?_⟩
    rcases update_cases hv with ⟨-, hnew⟩ | ⟨-, hold⟩
    · cases hnew
    · exact h.took v n hold
  | leave w hstored =>
    refine ⟨⟨inside.erase w, fun v => ?_, ?_⟩, h.stamp, fun v n hv => ?_⟩
    · show v ∈ inside.erase w ↔ Function.update s₀.stage w .idle v ≠ .idle
      by_cases hvw : v = w
      · subst hvw
        simp
      · rw [Finset.mem_erase, Function.update_of_ne hvw, hinside]
        simp [hvw]
    · have hmem : w ∈ inside := (hinside w).2 (by simp [hstored])
      show s₀.active - 1 = _
      rw [Finset.card_erase_of_mem hmem, hcard]
    · rcases update_cases hv with ⟨-, hnew⟩ | ⟨-, hold⟩
      · cases hnew
      · exact h.took v n hold
  | outside n contents honward hrelated =>
    have hstamp := h.stamp
    refine ⟨⟨inside, hinside, hcard⟩, ?_, fun w k hw => ?_⟩
    · show s₀.stamp ≤ n
      omega
    · have := h.took w k hw
      show k ≤ n
      omega

theorem Valid.steps (h : s₀.Valid) (hsteps : ReflTransGen (Step R) s₀ s₁) : s₁.Valid := by
  induction hsteps with
  | refl => exact h
  | tail _ hstep ih => exact ih.step hstep

theorem next_step (hstep : Step R s₀ s₁) : s₀.next ≤ s₁.next := by
  cases hstep with
  | take w => exact Nat.le_succ _
  | outside n contents honward => exact honward
  | _ => exact le_rfl

theorem next_steps (hsteps : ReflTransGen (Step R) s₀ s₁) : s₀.next ≤ s₁.next := by
  induction hsteps with
  | refl => exact le_rfl
  | tail _ hstep ih => exact ih.trans (next_step hstep)

/-! ## Since a quiet instant -/

/-- **What has happened since nobody was inside.** Every stamp taken since
is newer than the counter was then; so is the register's, unless nobody
has stored one; and if nobody has, either somebody is inside or no writer
has changed the contents. -/
structure Since (R : α → α → Prop) (s₀ s : Register W α) : Prop where
  took : ∀ w n, s.stage w = .took n → s₀.next < n
  stored : ∀ w, s.stage w = .stored → s₀.next < s.stamp
  stamp : s.stamp = s₀.stamp ∨ s₀.next < s.stamp
  contents : s₀.next < s.stamp ∨ (∃ w, s.stage w ≠ .idle) ∨ R s₀.contents s.contents

omit [DecidableEq W] in
theorem since_refl (hR : ∀ a, R a a) (hquiet : s₀.Quiet) : Since R s₀ s₀ := by
  refine ⟨fun w n hw => ?_, fun w hw => ?_, Or.inl rfl, Or.inr (Or.inr (hR _))⟩
  · rw [hquiet w] at hw
    cases hw
  · rw [hquiet w] at hw
    cases hw

theorem Since.step (htrans : ∀ a b c, R a b → R b c → R a c) (hnext : s₀.next ≤ s₁.next)
    (h : Since R s₀ s₁) (hstep : Step R s₁ s₂) : Since R s₀ s₂ := by
  cases hstep with
  | enter w hidle =>
    refine ⟨fun v n hv => ?_, fun v hv => ?_, h.stamp, Or.inr (Or.inl ⟨w, by simp⟩)⟩
    · rcases update_cases hv with ⟨-, hnew⟩ | ⟨-, hold⟩
      · cases hnew
      · exact h.took v n hold
    · rcases update_cases hv with ⟨-, hnew⟩ | ⟨-, hold⟩
      · cases hnew
      · exact h.stored v hold
  | change w contents hin hearly =>
    exact ⟨h.took, h.stored, h.stamp, Or.inr (Or.inl ⟨w, hin⟩)⟩
  | take w hentered =>
    refine ⟨fun v n hv => ?_, fun v hv => ?_, h.stamp, Or.inr (Or.inl ⟨w, by simp⟩)⟩
    · rcases update_cases hv with ⟨-, hnew⟩ | ⟨-, hold⟩
      · cases hnew
        omega
      · exact h.took v n hold
    · rcases update_cases hv with ⟨-, hnew⟩ | ⟨-, hold⟩
      · cases hnew
      · exact h.stored v hold
  | store w n htook =>
    have hnew : s₀.next < n := h.took w n htook
    refine ⟨fun v k hv => ?_, fun v hv => hnew, Or.inr hnew, Or.inl hnew⟩
    rcases update_cases hv with ⟨-, hstored⟩ | ⟨-, hold⟩
    · cases hstored
    · exact h.took v k hold
  | leave w hstored =>
    refine ⟨fun v n hv => ?_, fun v hv => ?_, h.stamp, Or.inl (h.stored w hstored)⟩
    · rcases update_cases hv with ⟨-, hnew⟩ | ⟨-, hold⟩
      · cases hnew
      · exact h.took v n hold
    · rcases update_cases hv with ⟨-, hnew⟩ | ⟨-, hold⟩
      · cases hnew
      · exact h.stored v hold
  | outside n contents honward hrelated =>
    refine ⟨h.took, h.stored, h.stamp, ?_⟩
    exact h.contents.imp_right (Or.imp_right fun hcontents => htrans _ _ _ hcontents hrelated)

theorem since_steps (hR : ∀ a, R a a) (htrans : ∀ a b c, R a b → R b c → R a c)
    (hquiet : s₀.Quiet) (hsteps : ReflTransGen (Step R) s₀ s₁) : Since R s₀ s₁ := by
  induction hsteps with
  | refl => exact since_refl hR hquiet
  | tail hbefore hstep ih => exact ih.step htrans (next_steps hbefore) hstep

/-! ## What a reader has seen -/

/-- **A stamp seen on both sides of a quiet instant** is the stamp of that
instant. -/
theorem settled_stamp (hR : ∀ a, R a a) (htrans : ∀ a b c, R a b → R b c → R a c)
    (hvalid : s₁.Valid) (h₁₂ : ReflTransGen (Step R) s₁ s₂) (hquiet : s₂.active = 0)
    (h₂₃ : ReflTransGen (Step R) s₂ s₃) (hsame : s₁.stamp = s₃.stamp) : s₂.stamp = s₃.stamp := by
  have hvalid₂ := hvalid.steps h₁₂
  have hsince := since_steps hR htrans (hvalid₂.quiet_iff.1 hquiet) h₂₃
  have hstamp := hvalid.stamp
  have hnext := next_steps h₁₂
  rcases hsince.stamp with heq | hnew
  · exact heq.symm
  · omega

/-- **One stamp, one state.** Two quiet instants with the same stamp: no
writer has changed the contents between them. -/
theorem settled_contents (hR : ∀ a, R a a) (htrans : ∀ a b c, R a b → R b c → R a c)
    (hvalid : s₁.Valid) (hquiet₁ : s₁.active = 0) (h₁₂ : ReflTransGen (Step R) s₁ s₂)
    (hquiet₂ : s₂.active = 0) (hsame : s₁.stamp = s₂.stamp) : R s₁.contents s₂.contents := by
  have hsince := since_steps hR htrans (hvalid.quiet_iff.1 hquiet₁) h₁₂
  have hidle := (hvalid.steps h₁₂).quiet_iff.1 hquiet₂
  have hstamp := hvalid.stamp
  rcases hsince.contents with hnew | ⟨w, hw⟩ | hcontents
  · omega
  · exact absurd (hidle w) hw
  · exact hcontents

end Register

end Stamped

end NoSqlStore
