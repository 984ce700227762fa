import Mathlib.Tactic.Common

/-! The indices that a binary search adds up. A search that keeps `lo ≤ target ≤ hi`
and halves at `(lo + hi) / 2` forms one sum in each round; whether all of them are
in range depends on the two ends and on where the target is. -/

set_option autoImplicit false

namespace Imperative

/-- All sums of two indices that a search for `target` forms between `lo` and `hi`
are below `limit`. -/
def sumsBelow (limit target : Nat) : (fuel lo hi : Nat) → Bool
  | 0, _, _ => true
  | fuel + 1, lo, hi =>
      if lo < hi then
        decide (lo + hi < limit) &&
          if target ≤ (lo + hi) / 2 then sumsBelow limit target fuel lo ((lo + hi) / 2)
          else sumsBelow limit target fuel ((lo + hi) / 2 + 1) hi
      else true

variable {limit target fuel lo hi : Nat}

theorem sumsBelow_of_le (small : 2 * hi ≤ limit) : sumsBelow limit target fuel lo hi = true := by
  induction fuel generalizing lo hi with
  | zero => rfl
  | succ fuel ih =>
      rw [sumsBelow]
      split
      · simp only [Bool.and_eq_true, decide_eq_true_eq]
        refine ⟨by omega, ?_⟩
        split
        · exact ih (by omega)
        · exact ih small
      · rfl

/-- On the way to the first index no sum exceeds the upper end. -/
theorem sumsBelow_first (small : hi < limit) : sumsBelow limit 0 fuel 0 hi = true := by
  induction fuel generalizing hi with
  | zero => rfl
  | succ fuel ih =>
      rw [sumsBelow]
      split
      · simp only [Nat.zero_add, Nat.zero_le, ↓reduceIte, Bool.and_eq_true, decide_eq_true_eq]
        exact ⟨small, ih (by omega)⟩
      · rfl

/-- On the way to the end the last sum is at least twice the last index. -/
theorem sumsBelow_last (apart : lo < hi) (large : limit + 2 ≤ 2 * hi) (enough : hi - lo ≤ fuel) :
    sumsBelow limit hi fuel lo hi = false := by
  induction fuel generalizing lo with
  | zero => omega
  | succ fuel ih =>
      rw [sumsBelow, if_pos apart]
      by_cases inRange : lo + hi < limit
      · rw [if_neg (by omega), ih (by omega) (by omega), Bool.and_false]
      · rw [decide_eq_false inRange, Bool.false_and]

end Imperative
