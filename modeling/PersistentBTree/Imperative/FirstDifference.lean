import Mathlib.Data.List.Lex
import Mathlib.Tactic.Common

/-! Where two lists first differ when both are followed by a terminator, and when this
decides their lexicographic order. -/

set_option autoImplicit false

namespace Imperative

variable {α : Type}

/-- Behind what the lists have in common, `x` follows in the first one and `y` in the
second one. At the end of a list this is the terminator `last`. -/
inductive FirstDifference (last : α) : (first second common : List α) → (x y : α) → Prop where
  | items {first second : List α} {x y : α} (differ : x ≠ y) :
      FirstDifference last (x :: first) (y :: second) [] x y
  | ends {second : List α} {y : α} : FirstDifference last [] (y :: second) [] last y
  | continues {first : List α} {x : α} : FirstDifference last (x :: first) [] [] x last
  | cons (item : α) {first second common : List α} {x y : α}
      (rest : FirstDifference last first second common x y) :
      FirstDifference last (item :: first) (item :: second) (item :: common) x y

namespace FirstDifference

variable {last : α} {first second common : List α} {x y : α}

theorem exists_of_ne (last : α) {first second : List α} (differ : first ≠ second) :
    ∃ common x y, FirstDifference last first second common x y := by
  induction first generalizing second with
  | nil =>
      cases second with
      | nil => exact absurd rfl differ
      | cons y second => exact ⟨[], last, y, .ends⟩
  | cons x first ih =>
      cases second with
      | nil => exact ⟨[], x, last, .continues⟩
      | cons y second =>
          by_cases same : x = y
          · subst same
            have rest : first ≠ second := fun equal => differ (congrArg _ equal)
            obtain ⟨common, left, right, differs⟩ := ih rest
            exact ⟨x :: common, left, right, .cons x differs⟩
          · exact ⟨[], x, y, .items same⟩

theorem swap (differs : FirstDifference last first second common x y) :
    FirstDifference last second first common y x := by
  induction differs with
  | items differ => exact .items differ.symm
  | ends => exact .continues
  | continues => exact .ends
  | cons item _ ih => exact .cons item ih

/-- What stands in the first list, with its terminator, behind the common part. -/
theorem left_prefix (differs : FirstDifference last first second common x y) :
    common ++ [x] <+: first ++ [last] := by
  induction differs with
  | @items first second x y => exact ⟨first ++ [last], rfl⟩
  | ends => exact List.prefix_rfl
  | @continues first x => exact ⟨first ++ [last], rfl⟩
  | cons item _ ih => exact List.cons_prefix_cons.mpr ⟨rfl, ih⟩

theorem right_prefix (differs : FirstDifference last first second common x y) :
    common ++ [y] <+: second ++ [last] := differs.swap.left_prefix

theorem ne (differs : FirstDifference last first second common x y) (notFirst : last ∉ first)
    (notSecond : last ∉ second) : x ≠ y := by
  induction differs with
  | items differ => exact differ
  | ends => exact fun same => notSecond (same ▸ List.mem_cons_self)
  | continues => exact fun same => notFirst (same ▸ List.mem_cons_self)
  | cons item _ ih =>
      exact ih (fun inside => notFirst (List.mem_cons_of_mem _ inside))
        fun inside => notSecond (List.mem_cons_of_mem _ inside)

section Order

variable [LT α] [LE α] [Std.IsLinearOrder α] [Std.LawfulOrderLT α]

/-- The two items decide the order exactly when no list is continued, where the other one
ends, with an item that is smaller than the terminator. -/
theorem lt_iff (differs : FirstDifference last first second common x y)
    (notFirst : last ∉ first) (notSecond : last ∉ second) :
    (x < y ↔ first < second) ↔
      ∀ item, first ++ [item] <+: second ∨ second ++ [item] <+: first → last < item := by
  induction differs with
  | @items first second x y differ =>
      refine iff_of_true ?_ fun item either => ?_
      · rw [List.cons_lt_cons_iff]
        exact ⟨.inl, fun either => either.resolve_right fun both => differ both.1⟩
      · cases either with
        | inl begins => exact absurd (List.cons_prefix_cons.mp begins).1 differ
        | inr begins => exact absurd (List.cons_prefix_cons.mp begins).1.symm differ
  | @ends second y =>
      rw [iff_true_right (List.nil_lt_cons y second)]
      constructor
      · intro less item either
        cases either with
        | inl begins => exact (List.cons_prefix_cons.mp begins).1 ▸ less
        | inr begins => exact absurd begins.length_le (Nat.not_succ_le_zero _)
      · intro all
        exact all y (.inl (List.cons_prefix_cons.mpr ⟨rfl, List.nil_prefix⟩))
  | @continues first x =>
      rw [iff_false_right (List.not_lt_nil _)]
      constructor
      · intro notLess item either
        cases either with
        | inl begins => exact absurd begins.length_le (Nat.not_succ_le_zero _)
        | inr begins =>
            have same := (List.cons_prefix_cons.mp begins).1
            cases Std.lt_trichotomy x last with
            | inl less => exact absurd less notLess
            | inr either =>
                cases either with
                | inl equal => exact absurd (equal ▸ List.mem_cons_self) notFirst
                | inr greater => exact same ▸ greater
      · intro all less
        have greater := all x (.inr (List.cons_prefix_cons.mpr ⟨rfl, List.nil_prefix⟩))
        exact Std.Asymm.asymm _ _ less greater
  | cons item _ ih =>
      have rest := ih (fun inside => notFirst (List.mem_cons_of_mem _ inside))
        fun inside => notSecond (List.mem_cons_of_mem _ inside)
      rw [List.cons_lt_cons_self, rest]
      simp only [List.cons_append, List.cons_prefix_cons, true_and]

end Order

end FirstDifference

end Imperative
