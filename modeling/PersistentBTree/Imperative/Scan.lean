import Mathlib.Data.List.TakeWhile
import Mathlib.Tactic.Common

/-! Loops that move an index over a list until an item stops them. What such a
loop passes over and what it leaves are the parts into which `takeWhile` and
`dropWhile` cut the list. -/

set_option autoImplicit false

namespace Imperative

variable {α : Type}

/-- `while (index < bound && goesOn(items[index])) index++`, looking at `steps`
items. -/
def scan (goesOn : α → Bool) (items : List α) : (steps index : Nat) → Nat
  | 0, index => index
  | steps + 1, index =>
      if (items[index]?).any goesOn then scan goesOn items steps (index + 1) else index

theorem scan_eq (goesOn : α → Bool) (items : List α) (steps index : Nat) :
    scan goesOn items steps index =
      index + (((items.drop index).take steps).takeWhile goesOn).length := by
  induction steps generalizing index with
  | zero => simp [scan]
  | succ steps ih =>
      cases found : items[index]? with
      | none =>
          have beyond : items.drop index = [] :=
            List.drop_eq_nil_of_le (List.getElem?_eq_none_iff.mp found)
          simp [scan, found, beyond]
      | some item =>
          obtain ⟨inside, rfl⟩ := List.getElem?_eq_some_iff.mp found
          rw [List.drop_eq_getElem_cons inside, List.take_succ_cons]
          by_cases goes : goesOn items[index] = true
          · rw [List.takeWhile_cons_of_pos goes, scan, found, Option.any_some, if_pos goes, ih,
              List.length_cons]
            omega
          · rw [List.takeWhile_cons_of_neg goes, scan, found, Option.any_some, if_neg goes]
            simp

section Bounded

variable {goesOn : α → Bool} {items : List α} {bound index : Nat}

theorem scan_bounded (goesOn : α → Bool) (items : List α) (bound index : Nat) :
    scan goesOn items (bound - index) index =
      index + (((items.take bound).drop index).takeWhile goesOn).length := by
  rw [scan_eq, List.drop_take]

theorem scan_le (inside : index ≤ bound) : scan goesOn items (bound - index) index ≤ bound := by
  have passed : (((items.take bound).drop index).takeWhile goesOn).length ≤
      ((items.take bound).drop index).length := (List.takeWhile_prefix goesOn).length_le
  have cut : ((items.take bound).drop index).length ≤ bound - index := by
    simp only [List.length_drop, List.length_take]
    omega
  rw [scan_bounded]
  omega

/-- A loop that starts beyond the bound does nothing. -/
theorem scan_le_max : scan goesOn items (bound - index) index ≤ max index bound := by
  rcases Nat.le_total index bound with inside | beyond
  · exact Nat.le_trans (scan_le inside) (Nat.le_max_right ..)
  · rw [Nat.sub_eq_zero_of_le beyond, scan]
    exact Nat.le_max_left ..

theorem drop_length_takeWhile (goesOn : α → Bool) (items : List α) :
    items.drop (items.takeWhile goesOn).length = items.dropWhile goesOn := by
  have cut : (items.takeWhile goesOn ++ items.dropWhile goesOn).drop
      (items.takeWhile goesOn).length = items.dropWhile goesOn := List.drop_left
  rwa [List.takeWhile_append_dropWhile] at cut

theorem length_takeWhile_lt_iff (goesOn : α → Bool) (items : List α) :
    (items.takeWhile goesOn).length < items.length ↔ ∃ item ∈ items, goesOn item = false := by
  have all : (items.takeWhile goesOn).length = items.length ↔ ∀ item ∈ items, goesOn item = true := by
    rw [← List.takeWhile_eq_self_iff]
    exact ⟨(List.takeWhile_prefix goesOn).eq_of_length, congrArg _⟩
  have atMost := (@List.takeWhile_prefix _ items goesOn).length_le
  rw [Nat.lt_iff_le_and_ne, and_iff_right atMost, ne_eq, all]
  simp

/-- The loop stops before the bound exactly when an item stops it. -/
theorem scan_lt_iff (inside : index ≤ bound) (within : bound ≤ items.length) :
    scan goesOn items (bound - index) index < bound ↔
      ∃ item ∈ (items.take bound).drop index, goesOn item = false := by
  have length : ((items.take bound).drop index).length = bound - index := by
    rw [List.length_drop, List.length_take, Nat.min_eq_left within]
  rw [← length_takeWhile_lt_iff, length, scan_bounded]
  omega

theorem drop_scan : (items.take bound).drop (scan goesOn items (bound - index) index) =
    ((items.take bound).drop index).dropWhile goesOn := by
  rw [scan_bounded, ← List.drop_drop, drop_length_takeWhile]

theorem take_scan (inside : index ≤ bound) :
    (items.drop index).take (scan goesOn items (bound - index) index - index) =
      ((items.take bound).drop index).takeWhile goesOn := by
  have before := @scan_le _ goesOn items _ _ inside
  have same : (items.drop index).take (scan goesOn items (bound - index) index - index) =
      ((items.take bound).drop index).take (scan goesOn items (bound - index) index - index) := by
    rw [List.drop_take, List.take_take]
    congr 1
    omega
  rw [same, scan_bounded, Nat.add_sub_cancel_left]
  exact (List.prefix_iff_eq_take.mp (List.takeWhile_prefix goesOn)).symm

end Bounded

/-- When every item before one that passes the test passes it, too, the items that pass
are in front. -/
theorem test_getElem_iff {test : α → Bool} {items : List α}
    (closed : items.Pairwise fun first second => test second = true → test first = true)
    {index : Nat} (inside : index < items.length) :
    test items[index] = true ↔ index < items.countP test := by
  induction items generalizing index with
  | nil => cases inside
  | cons item items ih =>
      obtain ⟨first, rest⟩ := List.pairwise_cons.mp closed
      cases passes : test item with
      | true =>
          rw [List.countP_cons_of_pos passes]
          cases index with
          | zero => simp [passes]
          | succ index =>
              rw [List.getElem_cons_succ, ih rest]
              exact Nat.succ_lt_succ_iff.symm
      | false =>
          have none_ : ∀ other ∈ item :: items, ¬ test other = true := by
            intro other among holds
            rcases List.mem_cons.mp among with rfl | later
            · rw [passes] at holds
              cases holds
            · rw [first other later holds] at passes
              cases passes
          rw [List.countP_eq_zero.mpr none_]
          simpa using none_ _ (List.getElem_mem inside)

end Imperative
