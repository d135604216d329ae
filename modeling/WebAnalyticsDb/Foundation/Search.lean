import Mathlib.Data.Nat.Notation

/-!
# Binary search

The end of the initial segment of an interval on which a predicate holds, found by bisection. The
function is the loop as it is written in an imperative program, with fuel for its rounds; it computes
something for every predicate, also when it does not hold of an initial segment.
-/

/-- The search loop between `lo` and `hi`. -/
def bisect (p : ℕ → Bool) : ℕ → ℕ → ℕ → ℕ
  | 0, lo, _ => lo
  | fuel + 1, lo, hi =>
    if lo < hi then
      let mid := lo + (hi - lo) / 2
      if p mid then bisect p fuel (mid + 1) hi else bisect p fuel lo mid
    else lo
