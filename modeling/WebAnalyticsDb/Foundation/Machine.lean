import Mathlib.Data.Nat.Notation
import Mathlib.Tactic.TypeStar

/-!
# Machines

A machine has initial states and labelled steps; a state is reached if steps lead to it from an initial
one. Threads that share memory are a machine whose steps are their critical sections: the label says
which thread does what, and every order of the labels is a run.

* **One induction.** What holds initially and is kept by every step holds in every state that is
  reached (`Machine.Reach.invariant`). The step may use that the state before it is reached, so that
  invariants can be proved one after the other.
* **Runs under a condition.** `M.during C` has only those steps of `M` that meet `C`; its reached states
  are the ones of runs whose every step does.
* **Histories** are lists to which steps add at the end, so what stands at a place of one was there
  before the step or is what the step has added (`getElem?_concat_cases`).
-/

variable {σ α : Type*}

/-- **A machine**: its initial states, and its steps with their labels. -/
structure Machine (σ α : Type*) where
  init : σ → Prop
  step : σ → α → σ → Prop

namespace Machine

/-- **The states that runs reach.** -/
inductive Reach (M : Machine σ α) : σ → Prop
  | init {s : σ} (h : M.init s) : Reach M s
  | step {s s' : σ} (h : Reach M s) (a : α) (hs : M.step s a s') : Reach M s'

/-- The steps that meet a condition. -/
def during (M : Machine σ α) (C : σ → α → σ → Prop) : Machine σ α where
  init := M.init
  step s a s' := M.step s a s' ∧ C s a s'

variable {M : Machine σ α} {C : σ → α → σ → Prop} {s : σ}

/-- **What holds initially and is kept by every step holds in every state that is reached.** -/
theorem Reach.invariant {p : σ → Prop} (h : M.Reach s) (hinit : ∀ s, M.init s → p s)
    (hstep : ∀ s a s', M.Reach s → p s → M.step s a s' → p s') : p s := by
  induction h with
  | init h => exact hinit _ h
  | step h a hs ih => exact hstep _ a _ h ih hs

/-- A list of labels that are always possible. -/
theorem Reach.foldl {next : σ → α → σ} (hnext : ∀ s a, M.step s a (next s a)) (h : M.Reach s)
    (l : List α) : M.Reach (l.foldl next s) := by
  induction l generalizing s with
  | nil => exact h
  | cons a l ih => exact ih (h.step a (hnext s a))

end Machine

/-- What stands at a place of a history with one more element. -/
theorem getElem?_concat_cases {xs : List α} {x y : α} {k : ℕ} (h : (xs ++ [x])[k]? = some y) :
    xs[k]? = some y ∨ k = xs.length ∧ y = x := by
  rcases Nat.lt_or_ge k xs.length with hk | hk
  · rw [List.getElem?_append_left hk] at h
    exact .inl h
  · rw [List.getElem?_append_right hk] at h
    have hzero : k - xs.length = 0 := by simpa using (List.getElem?_eq_some_iff.1 h).1
    rw [hzero] at h
    exact .inr ⟨by omega, (Option.some.inj h).symm⟩
