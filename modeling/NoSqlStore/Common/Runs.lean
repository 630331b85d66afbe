import Mathlib.Data.List.Basic
import Mathlib.Data.List.Induction
/-!
# Runs of a step function

A component is a step function reading one input at a time, and a run is
the list of inputs it has read. `Along` says that every step of a run
meets a condition on the state before it and the input it reads; the two
rules carry an invariant, and a preorder, from one step to a whole run.
-/

namespace NoSqlStore

namespace Runs

variable {σ ι : Type*} {step : σ → ι → σ} {ok : σ → ι → Prop}

/-- The state a list of inputs leads to. -/
def run (step : σ → ι → σ) (s : σ) (inputs : List ι) : σ := inputs.foldl step s

/-- **Every step of the run meets `ok`**, read at the state before it. -/
def Along (step : σ → ι → σ) (ok : σ → ι → Prop) : σ → List ι → Prop
  | _, [] => True
  | s, i :: is => ok s i ∧ Along step ok (step s i) is

instance decidableAlong [∀ s i, Decidable (ok s i)] : ∀ s is, Decidable (Along step ok s is)
  | _, [] => inferInstanceAs (Decidable True)
  | s, i :: is =>
    have := decidableAlong (step s i) is
    inferInstanceAs (Decidable (ok s i ∧ Along step ok (step s i) is))

@[simp] theorem run_nil (s : σ) : run step s [] = s := rfl

@[simp] theorem run_cons (s : σ) (i : ι) (is : List ι) :
    run step s (i :: is) = run step (step s i) is := rfl

theorem run_append (s : σ) (is js : List ι) :
    run step s (is ++ js) = run step (run step s is) js := by
  simp [run, List.foldl_append]

@[simp] theorem along_nil (s : σ) : Along step ok s [] := trivial

@[simp] theorem along_cons {s : σ} {i : ι} {is : List ι} :
    Along step ok s (i :: is) ↔ ok s i ∧ Along step ok (step s i) is := Iff.rfl

/-- A condition on the input alone is met along a run when every input
meets it. -/
theorem along_of_forall {ok : ι → Prop} {s : σ} {is : List ι} (h : ∀ i ∈ is, ok i) :
    Along step (fun _ i => ok i) s is := by
  induction is generalizing s with
  | nil => exact along_nil s
  | cons i is ih =>
    exact ⟨h i List.mem_cons_self, ih fun j hj => h j (List.mem_cons_of_mem _ hj)⟩

theorem along_append {s : σ} {is js : List ι} :
    Along step ok s (is ++ js) ↔ Along step ok s is ∧ Along step ok (run step s is) js := by
  induction is generalizing s with
  | nil => simp
  | cons i is ih => simp [ih, and_assoc]

theorem along_and {ok' : σ → ι → Prop} {s : σ} {is : List ι} :
    Along step (fun s i => ok s i ∧ ok' s i) s is ↔ Along step ok s is ∧ Along step ok' s is := by
  induction is generalizing s with
  | nil => simp
  | cons i is ih =>
    simp only [along_cons, ih]
    exact and_and_and_comm

/-- **The invariant rule.** What every admissible step keeps, an
admissible run keeps. -/
theorem run_inv {I : σ → Prop} (hstep : ∀ s i, I s → ok s i → I (step s i)) {s : σ}
    {is : List ι} (hs : I s) (hok : Along step ok s is) : I (run step s is) := by
  induction is generalizing s with
  | nil => exact hs
  | cons i is ih => exact ih (hstep s i hs hok.1) hok.2

/-- **The consequence rule.** Where an admissible step from a state of the
invariant meets `ok'`, every step of an admissible run does. -/
theorem along_of_inv {I : σ → Prop} {ok' : σ → ι → Prop}
    (hinv : ∀ s i, I s → ok s i → I (step s i)) (himp : ∀ s i, I s → ok s i → ok' s i) {s : σ}
    {is : List ι} (hs : I s) (hok : Along step ok s is) : Along step ok' s is := by
  induction is generalizing s with
  | nil => exact along_nil s
  | cons i is ih => exact ⟨himp s i hs hok.1, ih (hinv s i hs hok.1) hok.2⟩

/-- The invariant rule where every step is admissible. -/
theorem run_keeps {I : σ → Prop} (hstep : ∀ s i, I s → I (step s i)) {s : σ} (hs : I s)
    (is : List ι) : I (run step s is) := by
  induction is generalizing s with
  | nil => exact hs
  | cons i is ih => exact ih (hstep s i hs)

/-- A step that may fail, under an invariant under which it does not. -/
theorem foldlM_eq_run {ε : Type*} {step' : σ → ι → Except ε σ} {I : σ → Prop}
    (hok : ∀ s i, I s → step' s i = .ok (step s i)) (hstep : ∀ s i, I s → I (step s i)) {s : σ}
    (hs : I s) (is : List ι) : is.foldlM step' s = .ok (run step s is) := by
  induction is generalizing s with
  | nil => rfl
  | cons i is ih =>
    rw [List.foldlM_cons, hok s i hs]
    exact ih (hstep s i hs)

/-- The consequence rule where every step is admissible. -/
theorem along_of_keeps {I : σ → Prop} (hstep : ∀ s i, I s → I (step s i))
    (himp : ∀ s i, I s → ok s i) {s : σ} (hs : I s) (is : List ι) : Along step ok s is := by
  induction is generalizing s with
  | nil => exact along_nil s
  | cons i is ih => exact ⟨himp s i hs, ih (hstep s i hs)⟩

/-- **The preorder rule.** A reflexive and transitive relation that every
admissible step from a state of the invariant obeys, an admissible run
obeys. -/
theorem run_rel {I : σ → Prop} {R : σ → σ → Prop} (hrefl : ∀ s, R s s)
    (htrans : ∀ a b c, R a b → R b c → R a c)
    (hinv : ∀ s i, I s → ok s i → I (step s i)) (hstep : ∀ s i, I s → ok s i → R s (step s i))
    {s : σ} {is : List ι} (hs : I s) (hok : Along step ok s is) : R s (run step s is) := by
  induction is generalizing s with
  | nil => exact hrefl s
  | cons i is ih =>
    exact htrans _ _ _ (hstep s i hs hok.1) (ih (hinv s i hs hok.1) hok.2)

/-- The preorder rule where every step obeys the relation. -/
theorem run_rel_of_step {R : σ → σ → Prop} (hrefl : ∀ s, R s s)
    (htrans : ∀ a b c, R a b → R b c → R a c) (hstep : ∀ s i, R s (step s i)) (s : σ)
    (is : List ι) : R s (run step s is) := by
  induction is generalizing s with
  | nil => exact hrefl s
  | cons i is ih => exact htrans _ _ _ (hstep s i) (ih (step s i))

/-- The invariant rule of a run that does not read an input. -/
theorem run_avoids {I : σ → Prop} {a : ι} (hstep : ∀ s i, i ≠ a → I s → I (step s i)) {s : σ}
    {is : List ι} (ha : a ∉ is) (hs : I s) : I (run step s is) := by
  induction is generalizing s with
  | nil => exact hs
  | cons i is ih =>
    rw [List.mem_cons, not_or] at ha
    exact ih ha.2 (hstep s i (Ne.symm ha.1) hs)

/-- **The once rule.** A run that reads an input once has what the step
for that input brings about, where the other steps keep what it needs
before it and what it brings about after it. -/
theorem run_once {I J : σ → Prop} {a : ι} (hbefore : ∀ s i, i ≠ a → I s → I (step s i))
    (hat : ∀ s, I s → J (step s a)) (hafter : ∀ s i, i ≠ a → J s → J (step s i)) {s : σ}
    {is : List ι} (hnodup : is.Nodup) (ha : a ∈ is) (hs : I s) : J (run step s is) := by
  induction is generalizing s with
  | nil => cases ha
  | cons i is ih =>
    obtain ⟨hi, hnodup⟩ := List.nodup_cons.mp hnodup
    by_cases heq : i = a
    · subst heq
      rw [run_cons]
      exact run_avoids hafter hi (hat s hs)
    · have hin : a ∈ is := (List.mem_cons.mp ha).resolve_left fun h => heq h.symm
      exact ih hnodup hin (hbefore s i heq hs)

/-! ## What has happened since -/

/-- **The run has set something and not reset it since.** -/
def Since (step : σ → ι → σ) (sets resets : σ → ι → Prop) (s : σ) (is : List ι) : Prop :=
  ∃ before i after, is = before ++ i :: after ∧ sets (run step s before) i ∧
    Along step (fun s i => ¬ resets s i) (step (run step s before) i) after

variable {sets resets : σ → ι → Prop}

theorem not_since_nil (s : σ) : ¬ Since step sets resets s [] := by
  rintro ⟨before, i, after, heq, -⟩
  simp at heq

/-- One more step: it sets, or what was set it does not reset. -/
theorem since_concat {s : σ} {is : List ι} {i : ι} :
    Since step sets resets s (is ++ [i]) ↔
      sets (run step s is) i ∨ (Since step sets resets s is ∧ ¬ resets (run step s is) i) := by
  constructor
  · rintro ⟨before, j, after, heq, hsets, hafter⟩
    rcases List.eq_nil_or_concat' after with rfl | ⟨after, k, rfl⟩
    · obtain ⟨rfl, hlast⟩ := List.append_inj' heq rfl
      rw [List.singleton_inj.mp hlast]
      exact Or.inl hsets
    · rw [← List.cons_append, ← List.append_assoc] at heq
      obtain ⟨rfl, hlast⟩ := List.append_inj' heq rfl
      rw [List.singleton_inj.mp hlast, run_append, run_cons]
      obtain ⟨hkept, hlast⟩ := along_append.mp hafter
      exact Or.inr ⟨⟨before, j, after, rfl, hsets, hkept⟩, hlast.1⟩
  · rintro (hsets | ⟨⟨before, j, after, rfl, hsets, hkept⟩, hnot⟩)
    · exact ⟨is, i, [], rfl, hsets, along_nil _⟩
    · refine ⟨before, j, after ++ [i], by simp, hsets, along_append.mpr ⟨hkept, ?_⟩⟩
      rw [run_append, run_cons] at hnot
      exact ⟨hnot, along_nil _⟩

/-- **The rule of what has happened since.** A property that a step brings
about where it sets, and otherwise keeps where it does not reset, holds
after a run exactly if the run has set it and not reset it since. -/
theorem run_iff_since {I P : σ → Prop} (hinv : ∀ s i, I s → ok s i → I (step s i))
    (hstep : ∀ s i, I s → ok s i → (P (step s i) ↔ sets s i ∨ (P s ∧ ¬ resets s i))) {s : σ}
    {is : List ι} (hs : I s) (hP : ¬ P s) (hok : Along step ok s is) :
    P (run step s is) ↔ Since step sets resets s is := by
  induction is using List.reverseRecOn with
  | nil => exact iff_of_false hP (not_since_nil s)
  | append_singleton is i ih =>
    obtain ⟨hbefore, hlast, -⟩ := along_append.mp hok
    have hreached := run_inv hinv hs hbefore
    rw [run_append, run_cons, run_nil, hstep _ _ hreached hlast, ih hbefore, since_concat]

/-- **The origin rule.** What holds after a run and not before it, a step
of the run has brought about. -/
theorem run_origin {I P : σ → Prop} {brings : σ → ι → Prop}
    (hinv : ∀ s i, I s → ok s i → I (step s i))
    (hstep : ∀ s i, I s → ok s i → P (step s i) → P s ∨ brings s i) {s : σ} {is : List ι}
    (hs : I s) (hP : ¬ P s) (hok : Along step ok s is) (h : P (run step s is)) :
    ∃ before i after, is = before ++ i :: after ∧ brings (run step s before) i := by
  induction is using List.reverseRecOn with
  | nil => exact absurd h hP
  | append_singleton before i ih =>
    obtain ⟨hbefore, hlast, -⟩ := along_append.mp hok
    rw [run_append, run_cons, run_nil] at h
    rcases hstep _ _ (run_inv hinv hs hbefore) hlast h with hold | hnow
    · obtain ⟨before', i', after, rfl, hbrings⟩ := ih hbefore hold
      exact ⟨before', i', after ++ [i], by simp, hbrings⟩
    · exact ⟨before, i, [], rfl, hnow⟩

/-! ## The states along a run -/

/-- The state a run has reached after `n` inputs. -/
def upTo (step : σ → ι → σ) (s : σ) (inputs : List ι) (n : ℕ) : σ := run step s (inputs.take n)

theorem upTo_length (s : σ) (is : List ι) : upTo step s is is.length = run step s is := by
  rw [upTo, List.take_length]

theorem upTo_succ {s : σ} {is : List ι} {n : ℕ} {i : ι} (h : is[n]? = some i) :
    upTo step s is (n + 1) = step (upTo step s is n) i := by
  rw [upTo, upTo, List.take_add_one, h, run_append]
  rfl

/-- A condition met at every step is met at the step after a prefix. -/
theorem ok_upTo {s : σ} {is : List ι} {n : ℕ} {i : ι} (hok : Along step ok s is)
    (h : is[n]? = some i) : ok (upTo step s is n) i := by
  rw [← List.take_append_drop n is, along_append, List.drop_eq_getElem?_toList_append, h] at hok
  exact hok.2.1

/-! ## Counting steps -/

/-- How many steps of a run meet a condition. -/
def count (step : σ → ι → σ) (counted : σ → ι → Prop) [∀ s i, Decidable (counted s i)] :
    σ → List ι → ℕ
  | _, [] => 0
  | s, i :: is => (if counted s i then 1 else 0) + count step counted (step s i) is

variable {counted : σ → ι → Prop} [∀ s i, Decidable (counted s i)]

theorem count_concat (s : σ) (is : List ι) (i : ι) :
    count step counted s (is ++ [i]) =
      count step counted s is + if counted (run step s is) i then 1 else 0 := by
  induction is generalizing s with
  | nil => exact Nat.add_comm _ _
  | cons j is ih =>
    rw [List.cons_append, count, count, ih, run_cons]
    omega

/-- Two step functions that agree along a run count the same. -/
theorem count_congr {step' : σ → ι → σ} {s : σ} {is : List ι}
    (heq : Along step (fun s i => step' s i = step s i) s is) :
    count step' counted s is = count step counted s is := by
  induction is generalizing s with
  | nil => rfl
  | cons i is ih => rw [count, count, heq.1, ih heq.2]

/-- **The rule of the countdown.** Where every admissible step reaches an
end or keeps what is left, one less if it is counted, a run that counts as
many steps as are left reaches an end. -/
theorem exists_of_count {I : ℕ → σ → Prop} {ends : σ → ι → Prop} (hpos : ∀ s, ¬ I 0 s)
    (hstep : ∀ n s i, I n s → ok s i → ends s i ∨ I (if counted s i then n - 1 else n) (step s i))
    {n : ℕ} {s : σ} {is : List ι} (hs : I n s) (hok : Along step ok s is)
    (hcount : n ≤ count step counted s is) :
    ∃ before i after, is = before ++ i :: after ∧ ends (run step s before) i := by
  induction is generalizing s n with
  | nil =>
    obtain rfl : n = 0 := Nat.le_zero.mp hcount
    exact absurd hs (hpos s)
  | cons i is ih =>
    rcases hstep n s i hs hok.1 with hend | hnext
    · exact ⟨[], i, is, rfl, hend⟩
    · have hmore : (if counted s i then n - 1 else n) ≤ count step counted (step s i) is := by
        rw [count] at hcount
        split at hcount
        · rename_i hcounted
          rw [if_pos hcounted]
          omega
        · rename_i hnot
          rw [if_neg hnot]
          omega
      obtain ⟨before, j, after, rfl, hend⟩ := ih hnext hok.2 hmore
      exact ⟨i :: before, j, after, rfl, hend⟩

end Runs

end NoSqlStore
