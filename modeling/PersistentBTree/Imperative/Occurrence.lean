import Mathlib.Data.List.Infix
import Mathlib.Tactic.Common

/-! The last occurrence of one list in another that begins at or before a position, and
what it says about the part of the list up to a position. -/

set_option autoImplicit false

namespace Imperative

variable {α : Type} [DecidableEq α]

/-- The greatest position up to `pos` in which `part` begins. -/
def lastOccurrence (items part : List α) : (pos : Nat) → Option Nat
  | 0 => if part <+: items then some 0 else none
  | pos + 1 =>
      if part <+: items.drop (pos + 1) then some (pos + 1) else lastOccurrence items part pos

theorem lastOccurrence_isSome_iff (items part : List α) (pos : Nat) :
    (lastOccurrence items part pos).isSome = true ↔ ∃ i ≤ pos, part <+: items.drop i := by
  induction pos with
  | zero =>
      rw [lastOccurrence]
      split
      · next begins => exact iff_of_true rfl ⟨0, Nat.le_refl _, begins⟩
      · next absent =>
          refine iff_of_false nofun ?_
          intro ⟨i, le, begins⟩
          rw [Nat.le_zero.mp le] at begins
          exact absent begins
  | succ pos ih =>
      rw [lastOccurrence]
      split
      · next begins => exact iff_of_true rfl ⟨pos + 1, Nat.le_refl _, begins⟩
      · next absent =>
          rw [ih]
          constructor
          · intro ⟨i, le, begins⟩
            exact ⟨i, Nat.le_succ_of_le le, begins⟩
          · intro ⟨i, le, begins⟩
            have differs : i ≠ pos + 1 := fun same => absent (same ▸ begins)
            exact ⟨i, Nat.le_of_lt_succ (Nat.lt_of_le_of_ne le differs), begins⟩

omit [DecidableEq α] in
/-- A list occurs before `stop` when it begins early enough to end there. -/
theorem infix_take_iff {items part : List α} {stop : Nat} (inside : stop ≤ items.length) :
    part <:+: items.take stop ↔
      part.length ≤ stop ∧ ∃ i ≤ stop - part.length, part <+: items.drop i := by
  constructor
  · intro ⟨before, after, whole⟩
    have length := congrArg List.length whole
    simp only [List.length_append, List.length_take, Nat.min_eq_left inside] at length
    refine ⟨by omega, before.length, by omega, ?_⟩
    have cut := List.take_append_drop stop items
    rw [← whole, List.append_assoc, List.append_assoc] at cut
    rw [← cut, List.drop_left]
    exact List.prefix_append ..
  · intro ⟨fits, i, le, begins⟩
    have early : part <+: (items.drop i).take (stop - i) :=
      List.prefix_take_iff.mpr ⟨begins, by omega⟩
    rw [← List.drop_take] at early
    exact early.isInfix.trans (List.drop_suffix _ _).isInfix

end Imperative
