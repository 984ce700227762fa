import Mathlib.Data.List.Basic
import Mathlib.Data.List.Induction
import Mathlib.Order.Lattice
import Mathlib.Tactic.Common

/-! Ordered multimaps as lists of pairs whose keys do not decrease. Pairs with
one key keep the order that their insertion gave them: a new pair goes before
those that are there. -/

set_option autoImplicit false

namespace Multimap

variable {K D : Type}

/-! ## Last keys -/

/-- The key of the last of these pairs. -/
def lastKeyOf (pairs : List (K × D)) : Option K := pairs.getLast?.map Prod.fst

@[simp] theorem lastKeyOf_concat (pairs : List (K × D)) (pair : K × D) :
    lastKeyOf (pairs ++ [pair]) = some pair.1 := by
  simp [lastKeyOf]

theorem lastKeyOf_append {front back : List (K × D)} (nonempty : back ≠ []) :
    lastKeyOf (front ++ back) = lastKeyOf back := by
  rw [lastKeyOf, lastKeyOf, List.getLast?_append_of_ne_nil _ nonempty]

theorem lastKeyOf_eq_some {pairs : List (K × D)} {key : K} (last : lastKeyOf pairs = some key) :
    ∃ front pair, pairs = front ++ [pair] ∧ pair.1 = key := by
  induction pairs using List.reverseRecOn with
  | nil => simp [lastKeyOf] at last
  | append_singleton front pair => exact ⟨front, pair, rfl, by simpa using last⟩

theorem exists_lastKeyOf {pairs : List (K × D)} (nonempty : pairs ≠ []) :
    ∃ key, lastKeyOf pairs = some key := by
  induction pairs using List.reverseRecOn with
  | nil => exact absurd rfl nonempty
  | append_singleton front pair => exact ⟨pair.1, by simp⟩

/-! ## Cuts -/

/-- A cut of the key order: keys before it and keys that are not. -/
def Cut (before : K → Prop) (front back : List (K × D)) : Prop :=
  (∀ pair ∈ front, before pair.1) ∧ ∀ pair ∈ back, ¬ before pair.1

/-- When the last key is not before the cut, something is behind the cut. -/
theorem Cut.back_ne_nil {before : K → Prop} {front back : List (K × D)} {key : K}
    (cut : Cut before front back) (last : lastKeyOf (front ++ back) = some key)
    (notBefore : ¬ before key) : back ≠ [] := by
  rintro rfl
  obtain ⟨lower, pair, split, rfl⟩ := lastKeyOf_eq_some last
  exact notBefore (cut.1 pair (by rw [← List.append_nil front, split]; simp))

theorem cut_pairs {pairs : List (K × D)} {frontKeys backKeys : List K} {before : K → Prop}
    (split : pairs.map Prod.fst = frontKeys ++ backKeys)
    (frontBefore : ∀ key ∈ frontKeys, before key) (backNot : ∀ key ∈ backKeys, ¬ before key) :
    ∃ front back, pairs = front ++ back ∧ frontKeys = front.map Prod.fst ∧
      backKeys = back.map Prod.fst ∧ Cut before front back := by
  obtain ⟨front, back, rfl, rfl, rfl⟩ := List.map_eq_append_iff.mp split
  exact ⟨front, back, rfl, rfl, rfl,
    fun pair member => frontBefore pair.1 (List.mem_map_of_mem member),
    fun pair member => backNot pair.1 (List.mem_map_of_mem member)⟩

/-! ## Order -/

section Order

variable [LinearOrder K]

/-- The keys do not decrease. -/
def Sorted (pairs : List (K × D)) : Prop := pairs.Pairwise fun first second => first.1 ≤ second.1

theorem sorted_append {front back : List (K × D)} :
    Sorted (front ++ back) ↔
      Sorted front ∧ Sorted back ∧ ∀ first ∈ front, ∀ second ∈ back, first.1 ≤ second.1 :=
  List.pairwise_append

theorem Sorted.insert {front back : List (K × D)} (sorted : Sorted (front ++ back)) {key : K}
    (cut : Cut (· < key) front back) (value : D) : Sorted (front ++ (key, value) :: back) := by
  obtain ⟨sortedFront, sortedBack, across⟩ := sorted_append.mp sorted
  refine sorted_append.mpr ⟨sortedFront, List.pairwise_cons.mpr ⟨fun pair member => ?_,
    sortedBack⟩, fun first inFront second inBack => ?_⟩
  · exact not_lt.mp (cut.2 pair member)
  · rcases List.mem_cons.mp inBack with rfl | inBack
    · exact (cut.1 first inFront).le
    · exact across first inFront second inBack

theorem Sorted.erase {front back : List (K × D)} {pair : K × D}
    (sorted : Sorted (front ++ pair :: back)) : Sorted (front ++ back) :=
  List.Pairwise.sublist ((List.Sublist.refl front).append (List.sublist_cons_self pair back)) sorted

theorem Sorted.le_lastKeyOf {pairs : List (K × D)} (sorted : Sorted pairs) {key : K}
    (last : lastKeyOf pairs = some key) : ∀ pair ∈ pairs, pair.1 ≤ key := by
  obtain ⟨front, final, rfl, rfl⟩ := lastKeyOf_eq_some last
  intro pair member
  rcases List.mem_append.mp member with earlier | same
  · exact (sorted_append.mp sorted).2.2 pair earlier final (List.mem_singleton_self _)
  · rw [List.mem_singleton.mp same]

/-- A sorted multimap is cut in two by every cut of the key order. -/
theorem Sorted.exists_cut {before : K → Prop} {pairs : List (K × D)}
    (closed : ∀ first second, first ≤ second → before second → before first)
    (sorted : Sorted pairs) : ∃ front back, pairs = front ++ back ∧ Cut before front back := by
  induction pairs with
  | nil => exact ⟨[], [], rfl, by simp [Cut]⟩
  | cons pair pairs ih =>
      obtain ⟨behind, rest⟩ := List.pairwise_cons.mp sorted
      by_cases isBefore : before pair.1
      · obtain ⟨front, back, rfl, cut⟩ := ih rest
        exact ⟨pair :: front, back, rfl, List.forall_mem_cons.mpr ⟨isBefore, cut.1⟩, cut.2⟩
      · refine ⟨[], pair :: pairs, rfl, by simp, List.forall_mem_cons.mpr ⟨isBefore, ?_⟩⟩
        intro other member otherBefore
        exact isBefore (closed _ _ (behind other member) otherBefore)

theorem Sorted.cut {pairs : List (K × D)} (sorted : Sorted pairs) (key : K) :
    ∃ front back, pairs = front ++ back ∧ Cut (· < key) front back :=
  sorted.exists_cut fun _ _ order less => order.trans_lt less

/-! ## Operations -/

/-- The new pair goes before the first one whose key is not less. -/
def put (pairs : List (K × D)) (key : K) (value : D) : List (K × D) :=
  pairs.filter (fun pair => pair.1 < key) ++ (key, value) ::
    pairs.filter (fun pair => ¬ pair.1 < key)

theorem length_put (pairs : List (K × D)) (key : K) (value : D) :
    (put pairs key value).length = pairs.length + 1 := by
  have parts := pairs.length_eq_length_filter_add fun pair => decide (pair.1 < key)
  simp only [put, List.length_append, List.length_cons, decide_not] at parts ⊢
  omega

/-- The first pair with the key is removed, if there is one. -/
def removeFirst (pairs : List (K × D)) (key : K) : List (K × D) :=
  pairs.eraseP fun pair => pair.1 = key

/-- Every pair with the key is removed. -/
def removeAll (pairs : List (K × D)) (key : K) : List (K × D) :=
  pairs.filter fun pair => pair.1 ≠ key

/-- The number of pairs with the key. -/
def count (pairs : List (K × D)) (key : K) : Nat :=
  pairs.countP fun pair => pair.1 = key

section Cuts

variable {front back : List (K × D)} {pair : K × D} {key : K}

theorem Cut.filter_before (cut : Cut (· < key) front back) :
    (front ++ back).filter (fun pair => pair.1 < key) = front := by
  rw [List.filter_append, List.filter_eq_self.mpr (by simpa using cut.1),
    List.filter_eq_nil_iff.mpr (by simpa using cut.2), List.append_nil]

theorem Cut.filter_behind (cut : Cut (· < key) front back) :
    (front ++ back).filter (fun pair => ¬ pair.1 < key) = back := by
  rw [List.filter_append, List.filter_eq_nil_iff.mpr (by simpa using cut.1),
    List.filter_eq_self.mpr (by simpa using cut.2), List.nil_append]

theorem Cut.put (cut : Cut (· < key) front back) (value : D) :
    put (front ++ back) key value = front ++ (key, value) :: back := by
  rw [Multimap.put, cut.filter_before, cut.filter_behind]

theorem Cut.removeFirst (cut : Cut (· < key) front (pair :: back)) (isKey : pair.1 = key) :
    removeFirst (front ++ pair :: back) key = front ++ back := by
  have notFront : ∀ other ∈ front, ¬ decide (other.1 = key) = true := fun other member => by
    simpa using (cut.1 other member).ne
  rw [Multimap.removeFirst, List.eraseP_append_right _ notFront,
    List.eraseP_cons_of_pos (by simpa using isKey)]

end Cuts

section Keys

variable {pairs front back : List (K × D)} {pair : K × D} {key : K}

theorem count_of_absent (absent : ∀ pair ∈ pairs, pair.1 ≠ key) : count pairs key = 0 :=
  List.countP_eq_zero.mpr (by simpa using absent)

theorem removeAll_of_absent (absent : ∀ pair ∈ pairs, pair.1 ≠ key) :
    removeAll pairs key = pairs :=
  List.filter_eq_self.mpr (by simpa using absent)

theorem removeFirst_of_absent (absent : ∀ pair ∈ pairs, pair.1 ≠ key) :
    removeFirst pairs key = pairs :=
  List.eraseP_of_forall_not (by simpa using absent)

theorem count_of_present (isKey : pair.1 = key) :
    count (front ++ pair :: back) key = count (front ++ back) key + 1 := by
  simp only [count, List.countP_append, List.countP_cons, isKey, decide_true, ↓reduceIte]
  omega

theorem removeAll_of_present (isKey : pair.1 = key) :
    removeAll (front ++ pair :: back) key = removeAll (front ++ back) key := by
  simp [removeAll, isKey]

end Keys

/-! ## Positions of a key -/

omit [LinearOrder K] in
/-- A cut is where the first pair is that is not before it. -/
theorem Cut.findIdx {before : K → Prop} {front back : List (K × D)} {behind : K × D → Bool}
    (cut : Cut before front back) (isBehind : ∀ pair, behind pair = true ↔ ¬ before pair.1) :
    (front ++ back).findIdx behind = front.length := by
  have notFront : ∀ pair ∈ front, behind pair = false := fun pair member =>
    Bool.eq_false_iff.mpr fun holds => (isBehind pair).mp holds (cut.1 pair member)
  rw [List.findIdx_append, List.findIdx_eq_length_of_false notFront, if_neg (Nat.lt_irrefl _)]
  cases back with
  | nil => rw [List.findIdx_nil, Nat.zero_add]
  | cons pair back =>
      have holds : behind pair = true := (isBehind pair).mpr (cut.2 pair List.mem_cons_self)
      rw [List.findIdx_cons, holds, cond_true, Nat.zero_add]

/-- The pairs with a key are those between its two cuts. -/
structure Surrounds (key : K) (less same more : List (K × D)) : Prop where
  less : ∀ pair ∈ less, pair.1 < key
  same : ∀ pair ∈ same, pair.1 = key
  more : ∀ pair ∈ more, key < pair.1

theorem Cut.surrounds {less back : List (K × D)} {key : K} (sorted : Sorted back)
    (cut : Cut (· < key) less back) :
    ∃ same more, back = same ++ more ∧ Surrounds key less same more := by
  obtain ⟨same, more, rfl, upper⟩ :=
    sorted.exists_cut fun _ _ order (atMost : _ ≤ key) => order.trans atMost
  refine ⟨same, more, rfl, cut.1, fun pair member => ?_, fun pair member => ?_⟩
  · exact le_antisymm (upper.1 pair member) (not_lt.mp (cut.2 pair (List.mem_append_left _ member)))
  · exact not_le.mp (upper.2 pair member)

namespace Surrounds

variable {key : K} {less same more : List (K × D)}

theorem lower (around : Surrounds key less same more) : Cut (· < key) less (same ++ more) := by
  refine ⟨around.less, List.forall_mem_append.mpr ⟨fun pair member => ?_, fun pair member => ?_⟩⟩
  · exact (around.same pair member).not_lt
  · exact (around.more pair member).not_gt

theorem upper (around : Surrounds key less same more) : Cut (· ≤ key) (less ++ same) more := by
  refine ⟨List.forall_mem_append.mpr ⟨fun pair member => ?_, fun pair member => ?_⟩, ?_⟩
  · exact (around.less pair member).le
  · exact (around.same pair member).le
  · exact fun pair member => (around.more pair member).not_ge

theorem count (around : Surrounds key less same more) :
    count (less ++ (same ++ more)) key = same.length := by
  have before : List.countP (fun pair => decide (pair.1 = key)) less = 0 :=
    List.countP_eq_zero.mpr (by simpa using fun a b member => (around.less (a, b) member).ne)
  have behind : List.countP (fun pair => decide (pair.1 = key)) more = 0 :=
    List.countP_eq_zero.mpr (by simpa using fun a b member => (around.more (a, b) member).ne')
  have between : List.countP (fun pair => decide (pair.1 = key)) same = same.length :=
    List.countP_eq_length.mpr (by simpa using fun a b member => around.same (a, b) member)
  rw [Multimap.count, List.countP_append, List.countP_append, before, behind, between]
  omega

/-- The first pair with the key, if there is one, is at the lower cut. -/
theorem findIdx (around : Surrounds key less same more) :
    (less ++ (same ++ more)).findIdx (fun pair => pair.1 = key) =
      if same = [] then (less ++ (same ++ more)).length else less.length := by
  have before : ∀ pair ∈ less, decide (pair.1 = key) = false := fun pair member =>
    decide_eq_false (around.less pair member).ne
  have behind : ∀ pair ∈ more, decide (pair.1 = key) = false := fun pair member =>
    decide_eq_false (around.more pair member).ne'
  cases same with
  | nil =>
      rw [if_pos rfl]
      exact List.findIdx_eq_length_of_false
        (List.forall_mem_append.mpr ⟨before, by simpa using behind⟩)
  | cons pair same =>
      have isKey := decide_eq_true (around.same pair List.mem_cons_self)
      rw [if_neg (List.cons_ne_nil pair same), List.findIdx_append,
        List.findIdx_eq_length_of_false before, if_neg (Nat.lt_irrefl _), List.cons_append,
        List.findIdx_cons, isKey, cond_true, Nat.zero_add]

theorem exists_iff (around : Surrounds key less same more) :
    (∃ pair ∈ less ++ (same ++ more), pair.1 = key) ↔ same ≠ [] := by
  constructor
  · rintro ⟨pair, member, isKey⟩ none_
    rw [none_, List.nil_append] at member
    rcases List.mem_append.mp member with isLess | isMore
    · exact (around.less pair isLess).ne isKey
    · exact (around.more pair isMore).ne' isKey
  · intro some_
    obtain ⟨pair, rest, isCons⟩ := List.exists_cons_of_ne_nil some_
    exact ⟨pair, by simp [isCons], around.same pair (by simp [isCons])⟩

end Surrounds

/-! ## Changes -/

/-- One change of a multimap. -/
inductive Next : List (K × D) → List (K × D) → Prop
  | put (pairs : List (K × D)) (key : K) (value : D) : Next pairs (put pairs key value)
  | removeFirst (pairs : List (K × D)) (key : K) : Next pairs (removeFirst pairs key)
  | removeAll (pairs : List (K × D)) (key : K) : Next pairs (removeAll pairs key)
  | removeAt (front : List (K × D)) (pair : K × D) (back : List (K × D)) :
      Next (front ++ pair :: back) (front ++ back)
  | clear (pairs : List (K × D)) : Next pairs []

theorem Next.sorted {before after : List (K × D)} (next : Next before after)
    (sorted : Sorted before) : Sorted after := by
  cases next with
  | put _ key value =>
      obtain ⟨front, back, rfl, cut⟩ := sorted.cut key
      rw [cut.put]
      exact sorted.insert cut value
  | removeFirst => exact sorted.sublist List.eraseP_sublist
  | removeAll => exact sorted.sublist List.filter_sublist
  | removeAt => exact sorted.erase
  | clear => exact List.Pairwise.nil

end Order

end Multimap
