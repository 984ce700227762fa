import PersistentBTree.Memory.Tree
import PersistentBTree.Tables.Arrays
import PersistentBTree.Tables.IteratorProperties

/-! Well-formed trees in the pages of a table. The shape of such a tree is that of a
tree in memory, with page ids for addresses. -/

set_option autoImplicit false

namespace PersistentBTree.Tables

open Imperative Pages Multimap
open Memory (Tree Forest Bounds WellFormed)

variable {K D : Type}

/-- The node in a page and those below it are those of the tree. -/
def Table.Represents (table : Table (Slots K D)) : (height : Nat) → Tree K D → Prop
  | 0, .leaf ptr pairs =>
      table.store.Allocated ptr ∧ (table.nodeAt ptr).level = 0 ∧ table.pairs ptr = pairs
  | height + 1, .inner ptr keys kids =>
      table.store.Allocated ptr ∧ (table.nodeAt ptr).level = height + 1 ∧ table.keys ptr = keys ∧
        table.childs ptr = kids.map (fun kid : Tree K D => (kid.ptr : PageId)) ∧
        ∀ kid ∈ kids, table.Represents height kid
  | _, _ => False

/-- The ids of the leaves, from left to right. -/
def leafPages (sub : Tree K D) : List PageId := sub.leaves.map fun leaf : Memory.Ptr => (leaf : PageId)

/-- A table that stores the tree: its pairs are sorted, every separator is the last key
below its child, no page is used twice and no leaf is empty. -/
structure Stores [LinearOrder K] (table : Table (Slots K D)) (bounds : Bounds)
    (least height : Nat) (sub : Tree K D) : Prop where
  root : table.mRootId = sub.ptr
  represents : table.Represents height sub
  formed : WellFormed bounds least height sub
  sorted : Sorted sub.pairs
  nodup : sub.foot.Nodup
  ids : ∀ ptr ∈ sub.foot, (table.store.file ptr).id = ptr
  chain : LeafChain table (leafPages sub)

namespace Table.Represents

variable {table : Table (Slots K D)} {height : Nat} {sub : Tree K D}

theorem exists_leaf (represents : table.Represents 0 sub) :
    ∃ ptr pairs, sub = .leaf ptr pairs ∧ table.store.Allocated ptr ∧
      (table.nodeAt ptr).level = 0 ∧ table.pairs ptr = pairs := by
  cases sub with
  | leaf ptr pairs => exact ⟨ptr, pairs, rfl, represents⟩
  | inner => exact represents.elim

theorem exists_inner (represents : table.Represents (height + 1) sub) :
    ∃ ptr keys kids, sub = .inner ptr keys kids ∧ table.store.Allocated ptr ∧
      (table.nodeAt ptr).level = height + 1 ∧ table.keys ptr = keys ∧
      table.childs ptr = kids.map (fun kid : Tree K D => (kid.ptr : PageId)) ∧
      ∀ kid ∈ kids, table.Represents height kid := by
  cases sub with
  | leaf => exact represents.elim
  | inner ptr keys kids => exact ⟨ptr, keys, kids, rfl, represents⟩

theorem allocated (represents : table.Represents height sub) :
    table.store.Allocated sub.ptr := by
  cases height with
  | zero =>
      obtain ⟨ptr, pairs, rfl, inUse, -⟩ := represents.exists_leaf
      exact inUse
  | succ height =>
      obtain ⟨ptr, keys, kids, rfl, inUse, -⟩ := represents.exists_inner
      exact inUse

theorem level_eq (represents : table.Represents height sub) :
    (table.nodeAt sub.ptr).level = height := by
  cases height with
  | zero =>
      obtain ⟨ptr, pairs, rfl, -, level, -⟩ := represents.exists_leaf
      exact level
  | succ height =>
      obtain ⟨ptr, keys, kids, rfl, -, level, -⟩ := represents.exists_inner
      exact level

/-- The blocks of the tree are the contents of its leaves. -/
theorem pairs_eq (represents : table.Represents height sub) {leaf : Memory.Ptr}
    {pairs : List (K × D)} (member : (leaf, pairs) ∈ sub.blocks) : table.pairs leaf = pairs := by
  induction height generalizing sub with
  | zero =>
      obtain ⟨ptr, stored, rfl, -, -, same⟩ := represents.exists_leaf
      rw [Tree.blocks_leaf, List.mem_singleton] at member
      cases member
      exact same
  | succ height ih =>
      obtain ⟨ptr, keys, kids, rfl, -, -, -, -, below⟩ := represents.exists_inner
      rw [Tree.blocks_inner, Forest.blocks, List.mem_flatMap] at member
      obtain ⟨kid, among, inKid⟩ := member
      exact ih (below kid among) inKid

end Table.Represents

theorem pairs_ne_nil {table : Table (Slots K D)} {n : PageId}
    (filled : 0 < (table.nodeAt n).slotuse) : table.pairs n ≠ [] := by
  intro none_
  have used := congrArg List.length none_
  rw [Table.pairs, length_firstCells] at used
  exact Nat.ne_of_gt filled used

namespace Stores

variable [LinearOrder K] {table : Table (Slots K D)} {bounds : Bounds} {least height : Nat}
  {sub : Tree K D}

/-- The last key of the tree is that of the tail leaf. -/
theorem lastKey?_eq (stores : Stores table bounds least height sub) :
    sub.lastKey? = lastKeyOf (table.pairs table.mTailleafId) := by
  have tail := stores.chain.tail
  rw [leafPages, Tree.leaves, List.map_map, List.getLast?_map, Option.map_eq_some_iff] at tail
  obtain ⟨⟨leaf, pairs⟩, isLast, same⟩ := tail
  have inBlocks := List.mem_of_getLast? isLast
  have held := stores.represents.pairs_eq inBlocks
  have some_ : pairs ≠ [] :=
    held ▸ pairs_ne_nil (stores.chain.filled leaf (List.mem_map_of_mem (List.mem_map_of_mem inBlocks)))
  obtain ⟨front, split⟩ := List.getLast?_eq_some_iff.mp isLast
  rw [← same, Tree.lastKey?_eq, Tree.pairs, split, Memory.pairsIn_append]
  simp only [Memory.pairsIn_cons, Memory.pairsIn_nil, List.append_nil, Function.comp_apply, held]
  exact lastKeyOf_append some_

end Stores

/-! ## A table with two leaves -/

/-- The keys 1, 2 and 3 in page 0, the keys 4 and 5 in page 1, and the root in page 2. -/
def twoLeaves : Table (Slots Nat Nat) :=
  let keysFrom (first : Nat) : Slots Nat Nat :=
    ⟨fun slot => first + slot.toNat, fun slot => 10 * (first + slot.toNat), fun _ => 0⟩
  let separators : Slots Nat Nat := ⟨fun _ => 3, fun _ => 0, id⟩
  let empty : Table (Slots Nat Nat) :=
    { store := (Store.created (Node.zero (keysFrom 0))).append.append.append
      nSlots := 4
      nodeslotmax := 4
      minnodeslots := 2
      mRootId := 2
      mHeadleafId := 0
      mTailleafId := 1
      mStats := { itemcount := 5, leaves := 2, innernodes := 1 } }
  ((empty.setNode 0 ⟨0, 0, 3, -1, 1, keysFrom 1⟩).setNode 1 ⟨0, 0, 2, 0, -1, keysFrom 4⟩).setNode 2
    ⟨1, 0, 1, 0, 0, separators⟩

def twoLeavesTree : Tree Nat Nat :=
  .inner 2 [3] [.leaf 0 [(1, 10), (2, 20), (3, 30)], .leaf 1 [(4, 40), (5, 50)]]

theorem twoLeaves_chain : LeafChain twoLeaves [0, 1] where
  nodup := by decide
  allocated := by decide
  isLeaf := by decide
  filled := by decide
  linked := ⟨rfl, rfl, trivial⟩
  head := rfl
  tail := rfl

theorem twoLeaves_stores : Stores twoLeaves ⟨2, 4, 1, 4⟩ 1 1 twoLeavesTree where
  root := rfl
  represents := by
    constructor
    · decide
    · refine ⟨rfl, rfl, rfl, ?_⟩
      intro kid among
      simp only [List.mem_cons, List.not_mem_nil, or_false] at among
      rcases among with rfl | rfl
      · exact ⟨by decide, rfl, rfl⟩
      · exact ⟨by decide, rfl, rfl⟩
  formed := by
    simp [WellFormed, twoLeavesTree, Memory.separators, Tree.lastKey?, Tree.pairs, Bounds.least]
  sorted := by
    simp [Sorted, twoLeavesTree]
  nodup := by
    simp [twoLeavesTree]
  ids := by
    simp only [twoLeavesTree, Tree.foot_inner, Tree.foot_leaf, Memory.Forest.foot_cons,
      Memory.Forest.foot_nil, Multiset.mem_cons, Multiset.mem_add, Multiset.mem_singleton,
      Multiset.notMem_zero, or_false, forall_eq_or_imp, forall_eq]
    exact ⟨rfl, rfl, rfl⟩
  chain := by
    have same : leafPages twoLeavesTree = [0, 1] := by simp [leafPages, twoLeavesTree]
    rw [same]
    exact twoLeaves_chain

end PersistentBTree.Tables
