import Mathlib.Data.List.Sort
import PersistentBTree.Abstract.Multimap

/-! An ordered multimap as a family of stacks, one for each key: a new pair goes on
top of those with its key, and the first one to be removed is the top. The stacks
and the order of the keys determine the multimap. -/

set_option autoImplicit false

namespace Multimap

variable {K D : Type} [LinearOrder K]

/-- The values of the pairs with the key, the first one on top. -/
def stack (pairs : List (K × D)) (key : K) : List D :=
  (pairs.filter fun pair => pair.1 = key).map Prod.snd

@[simp] theorem stack_nil (key : K) : stack ([] : List (K × D)) key = [] := rfl

theorem stack_cons (pair : K × D) (pairs : List (K × D)) (key : K) :
    stack (pair :: pairs) key =
      if pair.1 = key then pair.2 :: stack pairs key else stack pairs key := by
  by_cases isKey : pair.1 = key <;> simp [stack, isKey]

@[simp] theorem stack_append (front back : List (K × D)) (key : K) :
    stack (front ++ back) key = stack front key ++ stack back key := by
  simp [stack]

theorem stack_eq_nil_iff {pairs : List (K × D)} {key : K} :
    stack pairs key = [] ↔ ∀ pair ∈ pairs, pair.1 ≠ key := by
  simp [stack]

/-- A choice of keys keeps a stack or removes it. -/
theorem stack_filter (keep : K → Bool) (pairs : List (K × D)) (key : K) :
    stack (pairs.filter fun pair => keep pair.1) key =
      if keep key = true then stack pairs key else [] := by
  induction pairs with
  | nil => simp
  | cons pair pairs ih =>
      rw [List.filter_cons, stack_cons]
      by_cases isKey : pair.1 = key
      · subst isKey
        split
        · rename_i kept
          rw [if_pos kept] at ih
          rw [stack_cons, ih, if_pos rfl]
        · rename_i dropped
          rwa [if_neg dropped] at ih
      · rw [if_neg isKey, ← ih]
        split
        · rw [stack_cons, if_neg isKey]
        · rfl

/-! ## Changes -/

theorem stack_put (pairs : List (K × D)) (key other : K) (value : D) :
    stack (put pairs key value) other =
      if key = other then value :: stack pairs other else stack pairs other := by
  have less := stack_filter (fun other => decide (other < key)) pairs other
  have notLess := stack_filter (fun other => decide (¬ other < key)) pairs other
  simp only [decide_eq_true_eq] at less notLess
  rw [put, stack_append, stack_cons, less, notLess]
  by_cases isKey : key = other
  · subst isKey
    simp
  · by_cases isLess : other < key <;> simp [isKey, isLess]

theorem stack_removeFirst (pairs : List (K × D)) (key other : K) :
    stack (removeFirst pairs key) other =
      if key = other then (stack pairs other).tail else stack pairs other := by
  induction pairs with
  | nil => simp [removeFirst]
  | cons pair pairs ih =>
      rw [removeFirst] at ih ⊢
      by_cases isKey : pair.1 = key
      · rw [List.eraseP_cons_of_pos (by simpa using isKey), stack_cons, isKey]
        split <;> rfl
      · rw [List.eraseP_cons_of_neg (by simpa using isKey), stack_cons, stack_cons, ih]
        by_cases isOther : key = other
        · subst isOther
          simp [isKey]
        · simp [isOther]

theorem stack_removeAll (pairs : List (K × D)) (key other : K) :
    stack (removeAll pairs key) other = if key = other then [] else stack pairs other := by
  rw [removeAll, stack_filter (fun other => decide (other ≠ key))]
  by_cases isKey : key = other
  · subst isKey
    simp
  · simp [isKey, Ne.symm isKey]

/-! ## Order -/

private theorem Sorted.head_le {pair other : K × D} {pairs : List (K × D)}
    (sorted : Sorted (pair :: pairs)) (some_ : stack (pair :: pairs) other.1 ≠ []) :
    pair.1 ≤ other.1 := by
  rw [Ne, stack_eq_nil_iff] at some_
  push Not at some_
  obtain ⟨found, member, isKey⟩ := some_
  rw [← isKey]
  cases member with
  | head => exact le_refl _
  | tail _ member => exact (List.pairwise_cons.mp sorted).1 found member

/-- The first pair of a multimap is the top of the stack of the least key. -/
theorem eq_of_stacks {pairs others : List (K × D)} (sorted : Sorted pairs)
    (sortedOthers : Sorted others) (same : ∀ key, stack pairs key = stack others key) :
    pairs = others := by
  induction pairs generalizing others with
  | nil =>
      cases others with
      | nil => rfl
      | cons other others =>
          have top := same other.1
          simp [stack_cons] at top
  | cons pair pairs ih =>
      cases others with
      | nil =>
          have top := same pair.1
          simp [stack_cons] at top
      | cons other others =>
          have atPair := same pair.1
          have atOther := same other.1
          have lower : pair.1 ≤ other.1 := by
            apply sorted.head_le
            rw [atOther, stack_cons, if_pos rfl]
            exact List.cons_ne_nil _ _
          have upper : other.1 ≤ pair.1 := by
            apply sortedOthers.head_le
            rw [← atPair, stack_cons, if_pos rfl]
            exact List.cons_ne_nil _ _
          have isKey : pair.1 = other.1 := le_antisymm lower upper
          rw [stack_cons, stack_cons, if_pos rfl, if_pos isKey.symm] at atPair
          have first : pair = other := Prod.ext isKey (List.cons_eq_cons.mp atPair).1
          subst first
          have rest : ∀ key, stack pairs key = stack others key := by
            intro key
            have tops := same key
            rw [stack_cons, stack_cons] at tops
            split at tops
            · exact (List.cons_eq_cons.mp tops).2
            · exact tops
          have behind := (List.pairwise_cons.mp sorted).2
          rw [ih behind (List.pairwise_cons.mp sortedOthers).2 rest]

private theorem Cut.orderedInsert {front back : List (K × D)} {key : K}
    (cut : Cut (· < key) front back) (value : D) :
    (front ++ back).orderedInsert (fun first second => first.1 ≤ second.1) (key, value) =
      front ++ (key, value) :: back := by
  induction front with
  | nil =>
      cases back with
      | nil => rfl
      | cons pair back => exact if_pos (not_lt.mp (cut.2 pair List.mem_cons_self))
  | cons pair front ih =>
      have isLess : pair.1 < key := cut.1 pair List.mem_cons_self
      have rest := ih ⟨fun other member => cut.1 other (List.mem_cons_of_mem _ member), cut.2⟩
      rw [List.cons_append, List.orderedInsert_cons, if_neg (not_le.mpr isLess), rest,
        List.cons_append]

/-- A new pair goes where insertion into a sorted list puts it. -/
theorem Sorted.put_eq_orderedInsert {pairs : List (K × D)} (sorted : Sorted pairs) (key : K)
    (value : D) :
    put pairs key value =
      pairs.orderedInsert (fun first second => first.1 ≤ second.1) (key, value) := by
  obtain ⟨front, back, rfl, cut⟩ := sorted.cut key
  rw [cut.put, cut.orderedInsert]

end Multimap
