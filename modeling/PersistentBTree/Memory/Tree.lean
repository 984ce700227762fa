import PersistentBTree.Abstract.Multimap
import PersistentBTree.Memory.Node
import Mathlib.Algebra.BigOperators.Group.Multiset.Basic
import Mathlib.Tactic.Abel

/-! The shape of a B+ tree without the memory it is stored in. A subtree keeps
the addresses of its nodes, so that it can be compared with a heap, but no
arrays, counters or links. Its leaves, from left to right, are its blocks. -/

set_option autoImplicit false

namespace PersistentBTree.Memory

open Multimap

variable {K D : Type}

inductive Tree (K D : Type) where
  | leaf (ptr : Ptr) (pairs : List (K × D))
  | inner (ptr : Ptr) (keys : List K) (kids : List (Tree K D))

/-- A leaf and the pairs in it. -/
abbrev Block (K D : Type) := Ptr × List (K × D)

/-- The pairs of consecutive leaves. -/
def pairsIn (blocks : List (Block K D)) : List (K × D) := blocks.flatMap Prod.snd

@[simp] theorem pairsIn_nil : pairsIn ([] : List (Block K D)) = [] := rfl

@[simp] theorem pairsIn_cons (block : Block K D) (blocks : List (Block K D)) :
    pairsIn (block :: blocks) = block.2 ++ pairsIn blocks := by
  simp [pairsIn]

@[simp] theorem pairsIn_append (front back : List (Block K D)) :
    pairsIn (front ++ back) = pairsIn front ++ pairsIn back := by
  simp [pairsIn]

namespace Tree

def ptr : Tree K D → Ptr
  | .leaf ptr _ => ptr
  | .inner ptr _ _ => ptr

/-- The used slots of the topmost node. -/
def used : Tree K D → Nat
  | .leaf _ pairs => pairs.length
  | .inner _ keys _ => keys.length

def blocks : Tree K D → List (Block K D)
  | .leaf ptr pairs => [(ptr, pairs)]
  | .inner _ _ kids => kids.flatMap blocks

/-- The addresses of all nodes. -/
def foot : Tree K D → Multiset Ptr
  | .leaf ptr _ => {ptr}
  | .inner ptr _ kids => ptr ::ₘ (kids.map foot).sum

def innerCount : Tree K D → Nat
  | .leaf _ _ => 0
  | .inner _ _ kids => 1 + (kids.map innerCount).sum

def pairs (tree : Tree K D) : List (K × D) := pairsIn tree.blocks

/-- The addresses of the leaves, from left to right. -/
def leaves (tree : Tree K D) : List Ptr := tree.blocks.map Prod.fst

/-- The key of the last pair. -/
def lastKey? (tree : Tree K D) : Option K := tree.pairs.getLast?.map Prod.fst

end Tree

/-! ## Forests -/

abbrev Forest (K D : Type) := List (Tree K D)

namespace Forest

def blocks (forest : Forest K D) : List (Block K D) := forest.flatMap Tree.blocks

def foot (forest : Forest K D) : Multiset Ptr := (forest.map Tree.foot).sum

def innerCount (forest : Forest K D) : Nat := (forest.map Tree.innerCount).sum

def pairs (forest : Forest K D) : List (K × D) := pairsIn (blocks forest)

def leaves (forest : Forest K D) : List Ptr := (blocks forest).map Prod.fst

variable (tree : Tree K D) (front back forest : Forest K D)

@[simp] theorem blocks_nil : blocks ([] : Forest K D) = [] := rfl
@[simp] theorem blocks_cons : blocks (tree :: forest) = tree.blocks ++ blocks forest := by
  simp [blocks]
@[simp] theorem blocks_append : blocks (front ++ back) = blocks front ++ blocks back := by
  simp [blocks]

@[simp] theorem foot_nil : foot ([] : Forest K D) = 0 := rfl
@[simp] theorem foot_cons : foot (tree :: forest) = tree.foot + foot forest := by simp [foot]
@[simp] theorem foot_append : foot (front ++ back) = foot front + foot back := by simp [foot]

@[simp] theorem innerCount_nil : innerCount ([] : Forest K D) = 0 := rfl
@[simp] theorem innerCount_cons :
    innerCount (tree :: forest) = tree.innerCount + innerCount forest := by
  simp [innerCount]
@[simp] theorem innerCount_append :
    innerCount (front ++ back) = innerCount front + innerCount back := by
  simp [innerCount]

@[simp] theorem pairs_nil : pairs ([] : Forest K D) = [] := rfl
@[simp] theorem pairs_cons : pairs (tree :: forest) = tree.pairs ++ pairs forest := by
  simp [pairs, Tree.pairs]
@[simp] theorem pairs_append : pairs (front ++ back) = pairs front ++ pairs back := by
  simp [pairs]

@[simp] theorem leaves_nil : leaves ([] : Forest K D) = [] := rfl
@[simp] theorem leaves_cons : leaves (tree :: forest) = tree.leaves ++ leaves forest := by
  simp [leaves, Tree.leaves]
@[simp] theorem leaves_append : leaves (front ++ back) = leaves front ++ leaves back := by
  simp [leaves]

theorem mem_foot {ptr : Ptr} {forest : Forest K D} :
    ptr ∈ foot forest ↔ ∃ tree ∈ forest, ptr ∈ tree.foot := by
  induction forest with
  | nil => simp
  | cons tree forest ih => simp [ih]

theorem foot_le_of_mem {tree : Tree K D} {forest : Forest K D} (member : tree ∈ forest) :
    tree.foot ≤ foot forest := by
  obtain ⟨front, back, rfl⟩ := List.append_of_mem member
  rw [foot_append, foot_cons]
  exact (Multiset.le_add_right _ _).trans (Multiset.le_add_left _ _)

end Forest

namespace Tree

variable (address : Ptr) (stored : List (K × D)) (keys : List K) (kids : Forest K D)

@[simp] theorem ptr_leaf : (leaf address stored).ptr = address := rfl
@[simp] theorem ptr_inner : (inner address keys kids).ptr = address := rfl
@[simp] theorem used_leaf : (leaf address stored).used = stored.length := rfl
@[simp] theorem used_inner : (inner address keys kids).used = keys.length := rfl

@[simp] theorem blocks_leaf : (leaf address stored).blocks = [(address, stored)] := by
  rw [blocks]
@[simp] theorem blocks_inner : (inner address keys kids).blocks = Forest.blocks kids := by
  rw [blocks, Forest.blocks]

@[simp] theorem foot_leaf : (leaf address stored).foot = {address} := by rw [foot]
@[simp] theorem foot_inner : (inner address keys kids).foot = address ::ₘ Forest.foot kids := by
  rw [foot, Forest.foot]

@[simp] theorem innerCount_leaf : (leaf address stored).innerCount = 0 := by rw [innerCount]
@[simp] theorem innerCount_inner :
    (inner address keys kids).innerCount = 1 + Forest.innerCount kids := by
  rw [innerCount, Forest.innerCount]

@[simp] theorem pairs_leaf : (leaf address stored).pairs = stored := by simp [pairs]
@[simp] theorem pairs_inner : (inner address keys kids).pairs = Forest.pairs kids := by
  simp [pairs, Forest.pairs]

@[simp] theorem leaves_leaf : (leaf address stored).leaves = [address] := by simp [leaves]
@[simp] theorem leaves_inner : (inner address keys kids).leaves = Forest.leaves kids := by
  simp [leaves, Forest.leaves]

theorem ptr_mem_foot (tree : Tree K D) : tree.ptr ∈ tree.foot := by
  cases tree <;> simp

end Tree

theorem Tree.lastKey?_eq (tree : Tree K D) : tree.lastKey? = lastKeyOf tree.pairs := rfl

theorem exists_split_at {α : Type} (list : List α) {index : Nat} (bound : index < list.length) :
    ∃ front middle back, list = front ++ middle :: back ∧ front.length = index := by
  refine ⟨list.take index, list[index], list.drop (index + 1), ?_, by simp; omega⟩
  rw [List.getElem_cons_drop, List.take_append_drop]

/-- Two ways to cut a list: the shorter front part is a front part of the
longer one. -/
theorem append_cut {α : Type} {front back left right : List α}
    (same : front ++ back = left ++ right) (shorter : front.length ≤ left.length) :
    ∃ between, left = front ++ between ∧ back = between ++ right := by
  rcases List.append_eq_append_iff.mp same with ⟨between, isLeft, isBack⟩ | ⟨excess, isFront, isRight⟩
  · exact ⟨between, isLeft, isBack⟩
  · have empty : excess = [] := by
      have lengths := congrArg List.length isFront
      rw [List.length_append] at lengths
      exact List.eq_nil_of_length_eq_zero (by omega)
    subst empty
    exact ⟨[], by simpa using isFront.symm, by simpa using isRight.symm⟩

/-! ## Separators -/

/-- The separators that belong to these children: the last keys of all but the
last of them. -/
def separators (kids : Forest K D) : List (Option K) := kids.dropLast.map Tree.lastKey?

@[simp] theorem separators_singleton (kid : Tree K D) : separators [kid] = [] := rfl

@[simp] theorem separators_cons_cons (kid next : Tree K D) (rest : Forest K D) :
    separators (kid :: next :: rest) = kid.lastKey? :: separators (next :: rest) := by
  simp [separators]

theorem separators_append (front : Forest K D) (kid : Tree K D) (back : Forest K D) :
    separators (front ++ kid :: back) = front.map Tree.lastKey? ++ separators (kid :: back) := by
  simp [separators, List.dropLast_append_of_ne_nil]

theorem length_separators (kids : Forest K D) : (separators kids).length = kids.length - 1 := by
  simp [separators]

/-- Only the last keys of the children matter, and not that of the last child. -/
theorem separators_congr {kid other : Tree K D} {back : Forest K D}
    (same : back ≠ [] → kid.lastKey? = other.lastKey?) :
    separators (kid :: back) = separators (other :: back) := by
  cases back with
  | nil => rfl
  | cons next back => rw [separators_cons_cons, separators_cons_cons, same (by simp)]

/-- The keys of a node, cut at one of its children. -/
theorem split_separators {keys : List K} {front : Forest K D} {kid : Tree K D} {back : Forest K D}
    (matching : keys.map some = separators (front ++ kid :: back)) :
    ∃ frontKeys backKeys, keys = frontKeys ++ backKeys ∧
      frontKeys.map some = front.map Tree.lastKey? ∧
      backKeys.map some = separators (kid :: back) := by
  rw [separators_append] at matching
  obtain ⟨frontKeys, backKeys, split, left, right⟩ := List.map_eq_append_iff.mp matching
  exact ⟨frontKeys, backKeys, split, left, right⟩

theorem length_of_map_some {keys : List K} {front : Forest K D}
    (matching : keys.map some = front.map Tree.lastKey?) : keys.length = front.length := by
  simpa using congrArg List.length matching

theorem exists_pair_of_separator {keys : List K} {kids : Forest K D}
    (matching : keys.map some = separators kids) {key : K} (member : key ∈ keys) :
    ∃ pair ∈ Forest.pairs kids, pair.1 = key := by
  have among : some key ∈ separators kids := matching ▸ List.mem_map_of_mem member
  obtain ⟨kid, kidMember, isLast⟩ := List.mem_map.mp among
  obtain ⟨front, back, rfl⟩ := List.append_of_mem (List.dropLast_subset _ kidMember)
  obtain ⟨lower, pair, kidPairs, rfl⟩ := lastKeyOf_eq_some isLast
  exact ⟨pair, by simp [kidPairs], rfl⟩

theorem separators_between {frontKeys backKeys : List K} {key : K} {front back : Forest K D}
    {left right : Tree K D}
    (matching : (frontKeys ++ key :: backKeys).map some =
      separators (front ++ left :: right :: back))
    (aligned : front.length = frontKeys.length) :
    frontKeys.map some = front.map Tree.lastKey? ∧ left.lastKey? = some key ∧
      backKeys.map some = separators (right :: back) := by
  rw [separators_append, separators_cons_cons, List.map_append, List.map_cons] at matching
  obtain ⟨frontSame, rest⟩ := List.append_inj matching (by simp [aligned])
  obtain ⟨isLast, backSame⟩ := List.cons_eq_cons.mp rest
  exact ⟨frontSame, isLast.symm, backSame⟩

/-- Separators cut behind a child: that child's last key is the separator
between the two parts. -/
theorem separators_halves {left right : List K} {key : K} {lower upper : Forest K D}
    (matching : (left ++ key :: right).map some = separators (lower ++ upper))
    (count : lower.length = left.length + 1) (nonempty : upper ≠ []) :
    ∃ before last, lower = before ++ [last] ∧ last.lastKey? = some key ∧
      left.map some = separators lower ∧ right.map some = separators upper := by
  obtain ⟨first, rest, rfl⟩ := List.exists_cons_of_ne_nil nonempty
  obtain ⟨before, last, rfl⟩ : ∃ before last, lower = before ++ [last] :=
    (List.eq_nil_or_concat' lower).resolve_left (by rintro rfl; simp at count)
  rw [separators_append, List.map_append, List.map_append] at matching
  have size : (left.map some).length = (before.map Tree.lastKey?).length := by
    simpa using count.symm
  simp only [List.map_cons, List.map_nil, List.append_assoc, List.cons_append,
    List.nil_append] at matching
  obtain ⟨leftSame, rest⟩ := List.append_inj matching size
  obtain ⟨isLast, rightSame⟩ := List.cons_eq_cons.mp rest
  refine ⟨before, last, rfl, isLast.symm, ?_, rightSame⟩
  rw [leftSame]
  simp [separators]

theorem separators_join {left right : List K} {key : K} {before upper : Forest K D}
    {last : Tree K D} (leftMatch : left.map some = separators (before ++ [last]))
    (isLast : last.lastKey? = some key) (rightMatch : right.map some = separators upper)
    (nonempty : upper ≠ []) :
    (left ++ key :: right).map some = separators (before ++ [last] ++ upper) := by
  obtain ⟨first, rest, rfl⟩ := List.exists_cons_of_ne_nil nonempty
  rw [separators_append, List.map_append, List.map_cons, leftMatch, rightMatch]
  simp [separators, isLast]

/-! ## Positions -/

/-- The iterator is at `pair`, which has these pairs before and behind it. -/
def Denotes (blocks : List (Block K D)) (iter : Iterator) (front : List (K × D)) (pair : K × D)
    (back : List (K × D)) : Prop :=
  ∃ earlier leaf lower upper later, blocks = earlier ++ (leaf, lower ++ pair :: upper) :: later ∧
    iter = ⟨some leaf, lower.length⟩ ∧ front = pairsIn earlier ++ lower ∧
    back = upper ++ pairsIn later

namespace Denotes

variable {blocks : List (Block K D)} {iter : Iterator} {front back : List (K × D)} {pair : K × D}

theorem pairsIn_eq (denotes : Denotes blocks iter front pair back) :
    pairsIn blocks = front ++ pair :: back := by
  obtain ⟨earlier, leaf, lower, upper, later, rfl, -, rfl, rfl⟩ := denotes
  simp

theorem extend (denotes : Denotes blocks iter front pair back)
    (before behind : List (Block K D)) :
    Denotes (before ++ blocks ++ behind) iter (pairsIn before ++ front) pair
      (back ++ pairsIn behind) := by
  obtain ⟨earlier, leaf, lower, upper, later, rfl, rfl, rfl, rfl⟩ := denotes
  exact ⟨before ++ earlier, leaf, lower, upper, later ++ behind, by simp, rfl, by simp, by simp⟩

end Denotes

/-! ## Well-formed subtrees -/

/-- How full nodes are: the least and greatest numbers of used slots. -/
structure Bounds where
  leafMin : Nat
  leafMax : Nat
  innerMin : Nat
  innerMax : Nat

/-- The least number of used slots of a node that is not the root. -/
def Bounds.least (bounds : Bounds) : Nat → Nat
  | 0 => bounds.leafMin
  | _ + 1 => bounds.innerMin

/-- The greatest number of used slots of a node. -/
def Bounds.greatest (bounds : Bounds) : Nat → Nat
  | 0 => bounds.leafMax
  | _ + 1 => bounds.innerMax

/-- No node has more slots than a search can add up the indices of. -/
structure Bounds.Searchable (bounds : Bounds) : Prop where
  leaf : bounds.leafMax ≤ 2 ^ 30
  inner : bounds.innerMax ≤ 2 ^ 30

/-- All leaves are `height` levels down, every separator is the last key below
its child, the topmost node uses at least `least` slots and every node below it
is filled within the bounds. -/
def WellFormed (bounds : Bounds) : (least height : Nat) → Tree K D → Prop
  | least, 0, .leaf _ pairs => least ≤ pairs.length ∧ pairs.length ≤ bounds.leafMax
  | least, height + 1, .inner _ keys kids =>
      least ≤ keys.length ∧ keys.length ≤ bounds.innerMax ∧ kids.length = keys.length + 1 ∧
        keys.map some = separators kids ∧
        ∀ kid ∈ kids, WellFormed bounds (bounds.least height) height kid
  | _, _, _ => False

namespace WellFormed

variable {bounds : Bounds} {least height : Nat} {tree : Tree K D}

theorem used_ge (wellFormed : WellFormed bounds least height tree) : least ≤ tree.used := by
  cases height <;> cases tree <;> simp_all [WellFormed]

theorem used_le (wellFormed : WellFormed bounds least height tree) :
    tree.used ≤ bounds.greatest height := by
  cases height <;> cases tree <;> simp_all [WellFormed, Bounds.greatest]

theorem weaken (wellFormed : WellFormed bounds least height tree) {fewer : Nat}
    (le : fewer ≤ tree.used) : WellFormed bounds fewer height tree := by
  cases height <;> cases tree <;> simp_all [WellFormed]

theorem exists_leaf (wellFormed : WellFormed bounds least 0 tree) :
    ∃ ptr pairs, tree = .leaf ptr pairs := by
  cases tree with
  | leaf ptr pairs => exact ⟨ptr, pairs, rfl⟩
  | inner => simp [WellFormed] at wellFormed

theorem exists_inner (wellFormed : WellFormed bounds least (height + 1) tree) :
    ∃ ptr keys kids, tree = .inner ptr keys kids := by
  cases tree with
  | leaf => simp [WellFormed] at wellFormed
  | inner ptr keys kids => exact ⟨ptr, keys, kids, rfl⟩

theorem pairs_ne_nil (positive : 1 ≤ bounds.leafMin)
    (wellFormed : WellFormed bounds (bounds.least height) height tree) : tree.pairs ≠ [] := by
  induction height generalizing tree with
  | zero =>
      obtain ⟨ptr, pairs, rfl⟩ := wellFormed.exists_leaf
      have enough : bounds.leafMin ≤ pairs.length := wellFormed.1
      rw [Tree.pairs_leaf, ← List.length_pos_iff]
      omega
  | succ height ih =>
      obtain ⟨ptr, keys, kids, rfl⟩ := wellFormed.exists_inner
      obtain ⟨-, -, count, -, below⟩ := wellFormed
      cases kids with
      | nil => simp at count
      | cons kid kids => simp [ih (below kid List.mem_cons_self)]

theorem pairs_ne_nil_of_used (positive : 1 ≤ bounds.leafMin)
    (wellFormed : WellFormed bounds least height tree) (used : 1 ≤ tree.used) :
    tree.pairs ≠ [] := by
  cases height with
  | zero =>
      obtain ⟨ptr, pairs, rfl⟩ := wellFormed.exists_leaf
      rwa [Tree.pairs_leaf, ← List.length_pos_iff]
  | succ height =>
      obtain ⟨ptr, keys, kids, rfl⟩ := wellFormed.exists_inner
      obtain ⟨-, -, count, -, below⟩ := wellFormed
      cases kids with
      | nil => simp at count
      | cons kid kids => simp [(below kid List.mem_cons_self).pairs_ne_nil positive]

end WellFormed

/-- The last key below a node is the last key below its last child. -/
theorem lastKey?_inner {ptr : Ptr} {keys : List K} {front : Forest K D} {kid : Tree K D}
    (nonempty : kid.pairs ≠ []) :
    (Tree.inner ptr keys (front ++ [kid])).lastKey? = kid.lastKey? := by
  rw [Tree.lastKey?_eq, Tree.lastKey?_eq, Tree.pairs_inner, Forest.pairs_append]
  simp only [Forest.pairs_cons, Forest.pairs_nil, List.append_nil]
  exact lastKeyOf_append nonempty

/-! ## Order -/

section Order

variable [LinearOrder K]

theorem separators_sorted {keys : List K} {kids : Forest K D}
    (matching : keys.map some = separators kids) (sorted : Sorted (Forest.pairs kids)) :
    keys.Pairwise (· ≤ ·) := by
  induction kids generalizing keys with
  | nil =>
      have empty : keys = [] := by simpa [separators] using matching
      simp [empty]
  | cons kid kids ih =>
      cases kids with
      | nil =>
          have empty : keys = [] := by simpa using matching
          simp [empty]
      | cons next rest =>
          rw [separators_cons_cons] at matching
          obtain ⟨key, later, rfl, isLast, laterExact⟩ := List.map_eq_cons_iff.mp matching
          rw [Forest.pairs_cons] at sorted
          obtain ⟨-, sortedRest, across⟩ := sorted_append.mp sorted
          obtain ⟨lower, last, kidPairs, rfl⟩ := lastKeyOf_eq_some isLast.symm
          refine List.pairwise_cons.mpr ⟨fun other member => ?_, ih laterExact sortedRest⟩
          obtain ⟨pair, inRest, rfl⟩ := exists_pair_of_separator laterExact member
          exact across last (by simp [kidPairs]) pair inRest

/-- Cutting the separators of a node cuts its children: everything below the
children left of the cut is before it and everything right of the next child
is not. -/
theorem cut_kids {bounds : Bounds} {height least : Nat} {ptr : Ptr}
    {frontKeys backKeys : List K} {kids : Forest K D} {before : K → Prop}
    (closed : ∀ first second, first ≤ second → before second → before first)
    (wellFormed : WellFormed bounds least (height + 1) (.inner ptr (frontKeys ++ backKeys) kids))
    (sorted : Sorted (Forest.pairs kids))
    (frontBefore : ∀ key ∈ frontKeys, before key) (backNot : ∀ key ∈ backKeys, ¬ before key) :
    ∃ front kid back, kids = front ++ kid :: back ∧ front.length = frontKeys.length ∧
      frontKeys.map some = front.map Tree.lastKey? ∧
      backKeys.map some = separators (kid :: back) ∧
      Cut before (Forest.pairs front) (Forest.pairs back) ∧
      (back ≠ [] → ∃ key, kid.lastKey? = some key ∧ ¬ before key) := by
  obtain ⟨-, -, count, matching, below⟩ := wellFormed
  rw [List.length_append] at count
  obtain ⟨front, kid, back, rfl, size⟩ : ∃ front kid back, kids = front ++ kid :: back ∧
      front.length = frontKeys.length := exists_split_at kids (by omega)
  obtain ⟨left, right, split, leftExact, rightExact⟩ := split_separators matching
  obtain ⟨rfl, rfl⟩ := List.append_inj split
    (by rw [← size, length_of_map_some leftExact])
  simp only [Forest.pairs_append, Forest.pairs_cons] at sorted
  obtain ⟨sortedFront, sortedRest, -⟩ := sorted_append.mp sorted
  have frontCut : ∀ pair ∈ Forest.pairs front, before pair.1 := by
    intro pair member
    obtain ⟨block, blockMember, inBlock⟩ := List.mem_flatMap.mp member
    obtain ⟨tree, treeMember, inTree⟩ := List.mem_flatMap.mp blockMember
    obtain ⟨earlier, later, rfl⟩ := List.append_of_mem treeMember
    have inPairs : pair ∈ tree.pairs := List.mem_flatMap.mpr ⟨block, inTree, inBlock⟩
    have keyMember : tree.lastKey? ∈ frontKeys.map some := by
      rw [leftExact]
      exact List.mem_map_of_mem treeMember
    obtain ⟨key, keyIn, isLast⟩ := List.mem_map.mp keyMember
    have treeSorted : Sorted tree.pairs := by
      simp only [Forest.pairs_append, Forest.pairs_cons] at sortedFront
      exact (sorted_append.mp (sorted_append.mp sortedFront).2.1).1
    exact closed _ _ (treeSorted.le_lastKeyOf isLast.symm pair inPairs) (frontBefore key keyIn)
  refine ⟨front, kid, back, rfl, size, leftExact, rightExact, ⟨frontCut, ?_⟩, ?_⟩
  · intro pair member
    cases back with
    | nil => simp at member
    | cons next back =>
        rw [separators_cons_cons] at rightExact
        obtain ⟨key, rest, rfl, isLast, -⟩ := List.map_eq_cons_iff.mp rightExact
        obtain ⟨lower, last, kidPairs, rfl⟩ := lastKeyOf_eq_some isLast.symm
        intro isBefore
        refine backNot last.1 List.mem_cons_self (closed _ _ ?_ isBefore)
        refine (sorted_append.mp sortedRest).2.2 last ?_ pair member
        rw [kidPairs]
        simp
  · intro nonempty
    cases back with
    | nil => exact absurd rfl nonempty
    | cons next back =>
        rw [separators_cons_cons] at rightExact
        obtain ⟨key, rest, rfl, isLast, -⟩ := List.map_eq_cons_iff.mp rightExact
        exact ⟨key, isLast.symm, backNot key List.mem_cons_self⟩

end Order

end PersistentBTree.Memory
