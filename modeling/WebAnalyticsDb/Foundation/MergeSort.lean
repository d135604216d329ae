import Mathlib.Data.List.GetD
import Mathlib.Data.List.Sort
import Mathlib.Tactic.Ring

/-!
# Bottom-up merge sort

The sort that works in passes over an array: a pass merges neighbouring runs of `width` elements into
runs of `2 * width`, the last of which may be shorter, and the next pass has twice the width. The array a
pass writes is the concatenation of the runs it has merged, so a pass is a function on lists; within
it, elements are read by position, as from the array.

* `Runs R w xs` says that every run of `w` elements is sorted. One pass turns `Runs R w` into
  `Runs R (2 * w)` (`runs_mergePass`), for every length.
* A sorted permutation is unique for an antisymmetric order (`List.Perm.eq_of_pairwise`), so nothing
  about the order of the comparisons has to be known; stability is sortedness for an order that compares
  positions last.
-/

namespace MergeSort

/-! ### Runs -/

/-- Every run of `w` elements is sorted. -/
def Runs {α : Type*} (R : α → α → Prop) (w : ℕ) (xs : List α) : Prop :=
  ∀ i, ((xs.drop (i * w)).take w).Pairwise R

theorem runs_one {α : Type*} (R : α → α → Prop) (xs : List α) : Runs R 1 xs := by
  intro i
  cases xs.drop (i * 1) with
  | nil => exact List.Pairwise.nil
  | cons x l => simp

/-- A run that holds everything. -/
theorem Runs.pairwise {α : Type*} {R : α → α → Prop} {w : ℕ} {xs : List α} (h : Runs R w xs) (hw : xs.length ≤ w) :
    xs.Pairwise R := by
  have := h 0
  rwa [Nat.zero_mul, List.drop_zero, List.take_of_length_le hw] at this

/-! ### Passes -/

section Passes

variable {α : Type*} {le : α → α → Bool} {xs : List α}

/-- The merged pair of runs at `start`. -/
def mergedAt (le : α → α → Bool) (xs : List α) (width start : ℕ) : List α :=
  ((xs.drop start).take width).merge ((xs.drop (start + width)).take width) le

theorem mergedAt_perm (width start : ℕ) :
    (mergedAt le xs width start).Perm ((xs.drop start).take (2 * width)) := by
  have hsplit : (xs.drop start).take (2 * width) =
      (xs.drop start).take width ++ (xs.drop (start + width)).take width := by
    rw [two_mul, List.take_add, List.drop_drop]
  rw [hsplit]
  exact List.merge_perm_append le

theorem length_mergedAt (width start : ℕ) :
    (mergedAt le xs width start).length = min (2 * width) (xs.length - start) := by
  rw [(mergedAt_perm width start).length_eq, List.length_take, List.length_drop]

variable [Inhabited α]

/-- The loop that merges the run from `a` to `mid` with the run from `b` to `stop`: the next `k`
elements. -/
def mergeLoop (le : α → α → Bool) (xs : List α) (mid stop : ℕ) : ℕ → ℕ → ℕ → List α
  | 0, _, _ => []
  | k + 1, a, b =>
    if a < mid && (b == stop || le (xs.getD a default) (xs.getD b default)) then
      xs.getD a default :: mergeLoop le xs mid stop k (a + 1) b
    else xs.getD b default :: mergeLoop le xs mid stop k a (b + 1)

/-- The loop over the pairs of runs of a pass, from position `start` on. A pass over `n` elements ends
within `n` rounds. -/
def mergePass (le : α → α → Bool) (xs : List α) (width : ℕ) : ℕ → ℕ → List α
  | 0, _ => []
  | fuel + 1, start =>
    if start < xs.length then
      let mid := if start + width < xs.length then start + width else xs.length
      let stop := if start + 2 * width < xs.length then start + 2 * width else xs.length
      mergeLoop le xs mid stop (stop - start) start mid ++ mergePass le xs width fuel (start + 2 * width)
    else []

/-- The elements from position `a` up to position `b`. -/
def between {α : Type*} (xs : List α) (a b : ℕ) : List α := (xs.drop a).take (b - a)

theorem between_self {α : Type*} (xs : List α) (a : ℕ) : between xs a a = [] := by
  rw [between, Nat.sub_self, List.take_zero]

theorem between_cons {a b : ℕ} (hab : a < b) (hb : b ≤ xs.length) :
    between xs a b = xs.getD a default :: between xs (a + 1) b := by
  have ha : a < xs.length := by omega
  rw [between, between, List.drop_eq_getElem_cons ha, List.getD_eq_getElem _ _ ha,
    show b - a = b - (a + 1) + 1 by omega, List.take_succ_cons]

/-- **The loop merges two runs.** -/
theorem mergeLoop_eq {mid stop k a b : ℕ} (ha : a ≤ mid) (hmid : mid ≤ xs.length) (hb : b ≤ stop)
    (hstop : stop ≤ xs.length) (hk : k = (mid - a) + (stop - b)) :
    mergeLoop le xs mid stop k a b = (between xs a mid).merge (between xs b stop) le := by
  induction k generalizing a b with
  | zero =>
    rw [show a = mid by omega, show b = stop by omega, between_self, between_self, mergeLoop,
      List.nil_merge]
  | succ k ih =>
    rw [mergeLoop]
    by_cases hleft : a < mid
    · have hl := between_cons hleft hmid
      by_cases hright : b < stop
      · have hr := between_cons hright hstop
        have hne : (b == stop) = false := by simp; omega
        rw [hl, hr, List.cons_merge_cons, hne]
        simp only [hleft, decide_true, Bool.true_and, Bool.false_or]
        split
        · rw [ih (by omega) (by omega) (by omega), hr]
        · rw [ih (by omega) (by omega) (by omega), hl]
      · -- the right run is used up
        have heq : b = stop := by omega
        rw [if_pos (by simp [hleft, heq]), ih (by omega) (by omega) (by omega), heq, between_self,
          List.merge_right, List.merge_right, hl]
    · -- the left run is used up
      have heq : a = mid := by omega
      rw [if_neg (by simp [hleft]), ih (by omega) (by omega) (by omega), heq, between_self,
        List.nil_merge, List.nil_merge, between_cons (show b < stop by omega) hstop]

theorem mergePass_succ {width : ℕ} (fuel : ℕ) {start : ℕ} (h : start < xs.length) :
    mergePass le xs width (fuel + 1) start =
      mergedAt le xs width start ++ mergePass le xs width fuel (start + 2 * width) := by
  rw [mergePass, if_pos h]
  dsimp only
  congr 1
  rw [mergeLoop_eq (by split <;> omega) (by split <;> omega) (by split <;> split <;> omega)
    (by split <;> omega) (by split <;> split <;> omega), mergedAt]
  have htake (l : List α) (a b : ℕ) (hab : a = b ∨ l.length ≤ a ∧ l.length ≤ b) :
      l.take a = l.take b := by
    rcases hab with rfl | ⟨ha, hb⟩
    · rfl
    · rw [List.take_of_length_le ha, List.take_of_length_le hb]
  congr 1
  · refine htake _ _ _ ?_
    rw [List.length_drop]
    split <;> omega
  · unfold between
    by_cases hmid : start + width < xs.length
    · rw [if_pos hmid]
      refine htake _ _ _ ?_
      rw [List.length_drop]
      split <;> omega
    · rw [if_neg hmid, List.drop_eq_nil_of_le (le_refl _), List.drop_eq_nil_of_le (by omega)]
      simp

theorem mergePass_of_le {width fuel start : ℕ} (h : xs.length ≤ start) :
    mergePass le xs width fuel start = [] := by
  cases fuel with
  | zero => rfl
  | succ fuel => rw [mergePass, if_neg (by omega)]

/-- **A pass loses and duplicates nothing.** -/
theorem mergePass_perm {width fuel start : ℕ} (hwidth : 0 < width) (hfuel : xs.length ≤ start + fuel) :
    (mergePass le xs width fuel start).Perm (xs.drop start) := by
  induction fuel generalizing start with
  | zero => rw [mergePass, List.drop_eq_nil_of_le (by omega)]
  | succ fuel ih =>
    rcases Nat.lt_or_ge start xs.length with hlt | hge
    · rw [mergePass_succ fuel hlt]
      have hrest : xs.drop start = (xs.drop start).take (2 * width) ++ xs.drop (start + 2 * width) := by
        rw [← List.drop_drop, List.take_append_drop]
      rw [hrest]
      exact (mergedAt_perm width start).append (ih (by omega))
    · rw [mergePass_of_le hge, List.drop_eq_nil_of_le hge]

/-- **One pass doubles the length of the sorted runs.** -/
theorem runs_mergePass {width : ℕ} (hwidth : 0 < width)
    (htrans : ∀ a b c, le a b = true → le b c = true → le a c = true)
    (htotal : ∀ a b, (le a b || le b a) = true) (h : Runs (le · ·) width xs) :
    Runs (le · ·) (2 * width) (mergePass le xs width xs.length 0) := by
  -- from a position that is a multiple of the width, all further runs are sorted
  have hfrom : ∀ fuel start, xs.length ≤ start + fuel →
      (∀ i, ((xs.drop (start + i * width)).take width).Pairwise (le · ·)) →
      Runs (le · ·) (2 * width) (mergePass le xs width fuel start) := by
    intro fuel
    induction fuel with
    | zero =>
      intro start _ _ i
      simp [mergePass]
    | succ fuel ih =>
      intro start hfuel hruns
      rcases Nat.lt_or_ge start xs.length with hlt | hge
      swap
      · intro i
        simp [mergePass_of_le hge]
      have hlen := @length_mergedAt _ le xs width start
      have hsorted : (mergedAt le xs width start).Pairwise (le · ·) := by
        have h0 := hruns 0
        have h1 := hruns 1
        rw [Nat.zero_mul, Nat.add_zero] at h0
        rw [Nat.one_mul] at h1
        exact List.pairwise_merge htrans htotal _ _ h0 h1
      have hrest := ih (start + 2 * width) (by omega) fun i ↦ by
        have := hruns (i + 2)
        rwa [show start + (i + 2) * width = start + 2 * width + i * width by ring] at this
      rw [mergePass_succ fuel hlt]
      intro i
      rcases Nat.lt_or_ge (xs.length - start) (2 * width) with hshort | hlong
      · -- the last pair of runs, with nothing behind it
        rw [mergePass_of_le (by omega), List.append_nil]
        exact (hsorted.sublist (List.drop_sublist _ _)).sublist (List.take_sublist _ _)
      · have hfull : (mergedAt le xs width start).length = 2 * width := by omega
        cases i with
        | zero =>
          rw [Nat.zero_mul, List.drop_zero, List.take_left' hfull]
          exact hsorted
        | succ i =>
          have hnext : (i + 1) * (2 * width) = i * (2 * width) + 2 * width := Nat.succ_mul i _
          rw [List.drop_append, hfull, hnext, Nat.add_sub_cancel,
            List.drop_eq_nil_of_le (by rw [hfull]; omega), List.nil_append]
          exact hrest i
  refine hfrom xs.length 0 (by omega) fun i ↦ ?_
  rw [Nat.zero_add]
  exact h i

end Passes

end MergeSort
