import PersistentBTree.Imperative.Shows
import PersistentBTree.Memory.HelperOutcomes
import PersistentBTree.Tables.RebalanceProperties

/-! Trees in memory and tables with the same content. The nodes of the tree are kept in
pages of the table; where the tree has no node, the table has the page id -1. -/

set_option autoImplicit false

namespace PersistentBTree.Tables

open Imperative Pages Memory

variable {K D : Type} {page : Ptr → PageId}

/-- The page of a node that is linked. -/
def linked (page : Ptr → PageId) : Option Ptr → PageId
  | none => -1
  | some ptr => page ptr

/-- A leaf and a page with the same links and pairs. -/
structure LeafAgrees (page : Ptr → PageId) (leaf : LeafNode K D) (node : Node (Slots K D)) :
    Prop where
  level : node.level = 0
  slotuse : node.slotuse = leaf.slotuse
  prevleaf : node.prevleaf = linked page leaf.prevleaf
  nextleaf : node.nextleaf = linked page leaf.nextleaf
  keys : ∀ i < leaf.slotuse, Shows id leaf.slotkey node.slots.key i
  data : ∀ i < leaf.slotuse, Shows id leaf.slotdata node.slots.data i

/-- An inner node and a page with the same separators and children. -/
structure InnerAgrees (page : Ptr → PageId) (inner : InnerNode K) (node : Node (Slots K D)) :
    Prop where
  level : node.level = inner.level
  slotuse : node.slotuse = inner.slotuse
  keys : ∀ i < inner.slotuse, Shows id inner.slotkey node.slots.key i
  childs : ∀ i ≤ inner.slotuse, Shows page inner.childid node.slots.child i

def NodeAgrees (page : Ptr → PageId) (node : Memory.Node K D) (stored : Node (Slots K D)) : Prop :=
  match node with
  | .leaf leaf => LeafAgrees page leaf stored
  | .inner inner => InnerAgrees page inner stored

section Refill

variable {leaf : LeafNode K D} {inner : InnerNode K} {node : Node (Slots K D)}
  {slotuse used : Nat} {slotkey : Buffer K} {slots : Slots K D}

theorem LeafAgrees.refill (agrees : LeafAgrees page leaf node) {slotdata : Buffer D}
    (same : used = slotuse) (keys : ∀ i < slotuse, Shows id slotkey slots.key i)
    (data : ∀ i < slotuse, Shows id slotdata slots.data i) :
    LeafAgrees page { leaf with slotuse, slotkey, slotdata } (node.refilled used slots) :=
  ⟨agrees.level, same, agrees.prevleaf, agrees.nextleaf, keys, data⟩

theorem InnerAgrees.refill (agrees : InnerAgrees page inner node) {childid : Buffer Ptr}
    (same : used = slotuse) (keys : ∀ i < slotuse, Shows id slotkey slots.key i)
    (childs : ∀ i ≤ slotuse, Shows page childid slots.child i) :
    InnerAgrees page { inner with slotuse, slotkey, childid } (node.refilled used slots) :=
  ⟨agrees.level, same, keys, childs⟩

theorem LeafAgrees.take (agrees : LeafAgrees page leaf node) (same : used = slotuse)
    (below : slotuse ≤ leaf.slotuse) :
    LeafAgrees page { leaf with slotuse } (node.refilled used node.slots) :=
  agrees.refill same (fun i low => agrees.keys i (by omega)) fun i low => agrees.data i (by omega)

theorem InnerAgrees.take (agrees : InnerAgrees page inner node) (same : used = slotuse)
    (below : slotuse ≤ inner.slotuse) :
    InnerAgrees page { inner with slotuse } (node.refilled used node.slots) :=
  agrees.refill same (fun i low => agrees.keys i (by omega)) fun i low =>
    agrees.childs i (by omega)

theorem InnerAgrees.writeKey (agrees : InnerAgrees page inner node) {slot : Nat} {key stored : K}
    (written : inner.slotkey.write slot key = some slotkey) (same : stored = key) :
    InnerAgrees page { inner with slotkey }
      (node.refilled node.slotuse (node.slots.writeKey slot stored)) :=
  agrees.refill agrees.slotuse
    (fun i below => Shows.write written (fun _ => agrees.keys i below) rfl same) agrees.childs

theorem LeafAgrees.read (agrees : LeafAgrees page leaf node) {slot : Nat} {key : K}
    (found : leaf.slotkey.read slot = some key) (below : slot < leaf.slotuse) :
    key = node.slots.key slot := by
  have shown := agrees.keys slot below
  rw [Shows, found] at shown
  exact Option.some.inj shown

theorem InnerAgrees.read (agrees : InnerAgrees page inner node) {slot : Nat} {key : K}
    (found : inner.slotkey.read slot = some key) (below : slot < inner.slotuse) :
    key = node.slots.key slot := by
  have shown := agrees.keys slot below
  rw [Shows, found] at shown
  exact Option.some.inj shown

/-- The content of the array decides which other slots agree too. -/
theorem LeafAgrees.iff_of_refilled {other : Slots K D}
    (agrees : LeafAgrees page leaf (node.refilled used slots)) :
    LeafAgrees page leaf (node.refilled used other) ↔
      ∀ i : Nat, i < used → other.pair i = slots.pair i := by
  have same : used = leaf.slotuse := agrees.slotuse
  subst same
  simp only [Slots.pair, Prod.mk.injEq]
  constructor
  · intro also i below
    exact ⟨(also.keys i below).unique (agrees.keys i below),
      (also.data i below).unique (agrees.data i below)⟩
  · intro equal
    exact ⟨agrees.level, agrees.slotuse, agrees.prevleaf, agrees.nextleaf,
      fun i below => (agrees.keys i below).congr (equal i below).1,
      fun i below => (agrees.data i below).congr (equal i below).2⟩

theorem InnerAgrees.iff_of_refilled {other : Slots K D}
    (agrees : InnerAgrees page inner (node.refilled used slots)) :
    InnerAgrees page inner (node.refilled used other) ↔
      (∀ i : Nat, i < used → other.key i = slots.key i) ∧
        ∀ i : Nat, i < used + 1 → other.child i = slots.child i := by
  have same : used = inner.slotuse := agrees.slotuse
  subst same
  constructor
  · intro also
    exact ⟨fun i below => (also.keys i below).unique (agrees.keys i below),
      fun i below => (also.childs i (by omega)).unique (agrees.childs i (by omega))⟩
  · intro ⟨keys, childs⟩
    exact ⟨agrees.level, agrees.slotuse, fun i below => (agrees.keys i below).congr (keys i below),
      fun i below => (agrees.childs i below).congr (childs i (by omega))⟩

end Refill

/-- Every node of the tree has a page of its own with the same content. -/
structure Agrees (page : Ptr → PageId) (tree : BTree K D) (table : Table (Slots K D)) : Prop where
  nodes : ∀ ptr node, tree.heap ptr = some node → NodeAgrees page node (table.nodeAt (page ptr))
  allocated : ∀ ptr node, tree.heap ptr = some node → table.store.Allocated (page ptr)
  apart : ∀ ptr other node otherNode, tree.heap ptr = some node →
    tree.heap other = some otherNode → page ptr = page other → ptr = other
  mRoot : table.mRootId = linked page tree.mRoot
  mHeadleaf : table.mHeadleafId = linked page tree.mHeadleaf
  mTailleaf : table.mTailleafId = linked page tree.mTailleaf

namespace Agrees

variable {tree after : BTree K D} {table final : Table (Slots K D)} {left right parent : Ptr}
  {leftNode rightNode parentNode leftAfter rightAfter parentAfter : Memory.Node K D}

theorem leaf (agrees : Agrees page tree table) {ptr : Ptr} {leaf : LeafNode K D}
    (atPtr : tree.heap ptr = some (.leaf leaf)) : LeafAgrees page leaf (table.nodeAt (page ptr)) :=
  agrees.nodes ptr (.leaf leaf) atPtr

theorem inner (agrees : Agrees page tree table) {ptr : Ptr} {inner : InnerNode K}
    (atPtr : tree.heap ptr = some (.inner inner)) :
    InnerAgrees page inner (table.nodeAt (page ptr)) :=
  agrees.nodes ptr (.inner inner) atPtr

theorem page_ne (agrees : Agrees page tree table) (atLeft : tree.heap left = some leftNode)
    (atRight : tree.heap right = some rightNode) (apart : left ≠ right) :
    page left ≠ page right :=
  fun same => apart (agrees.apart left right _ _ atLeft atRight same)

theorem tail_of_rearranged (agrees : Agrees page tree table)
    (rearranged : Rearranged tree after left right parent leftAfter rightAfter parentAfter)
    (later : Agrees page after final) : final.mTailleafId = table.mTailleafId := by
  rw [later.mTailleaf, agrees.mTailleaf, rearranged.mTailleaf]

/-- When three nodes are replaced, only they have to be compared again. -/
theorem iff_of_rearranged (agrees : Agrees page tree table)
    (atLeft : tree.heap left = some leftNode) (atRight : tree.heap right = some rightNode)
    (atParent : tree.heap parent = some parentNode)
    (rearranged : Rearranged tree after left right parent leftAfter rightAfter parentAfter)
    (touches : table.Touches [page left, page right, page parent] final)
    (tail : final.mTailleafId = table.mTailleafId) :
    Agrees page after final ↔ NodeAgrees page leftAfter (final.nodeAt (page left)) ∧
      NodeAgrees page rightAfter (final.nodeAt (page right)) ∧
      NodeAgrees page parentAfter (final.nodeAt (page parent)) := by
  -- a node of the new tree was one of the old tree, or is one of the three
  have before : ∀ ptr node, after.heap ptr = some node → ∃ node, tree.heap ptr = some node := by
    intro ptr node found
    by_cases isLeft : ptr = left
    · exact ⟨_, isLeft ▸ atLeft⟩
    by_cases isRight : ptr = right
    · exact ⟨_, isRight ▸ atRight⟩
    by_cases isParent : ptr = parent
    · exact ⟨_, isParent ▸ atParent⟩
    exact ⟨_, (rearranged.others ptr isLeft isRight isParent).symm.trans found⟩
  constructor
  · intro later
    exact ⟨later.nodes _ _ rearranged.atLeft, later.nodes _ _ rearranged.atRight,
      later.nodes _ _ rearranged.atParent⟩
  · rintro ⟨leftAgrees, rightAgrees, parentAgrees⟩
    constructor
    case nodes =>
      intro ptr node found
      by_cases isLeft : ptr = left
      · subst isLeft
        obtain rfl := Option.some.inj (rearranged.atLeft.symm.trans found)
        exact leftAgrees
      by_cases isRight : ptr = right
      · subst isRight
        obtain rfl := Option.some.inj (rearranged.atRight.symm.trans found)
        exact rightAgrees
      by_cases isParent : ptr = parent
      · subst isParent
        obtain rfl := Option.some.inj (rearranged.atParent.symm.trans found)
        exact parentAgrees
      rw [rearranged.others ptr isLeft isRight isParent] at found
      have untouched : page ptr ∉ [page left, page right, page parent] := by
        simp only [List.mem_cons, List.not_mem_nil, or_false, not_or]
        exact ⟨agrees.page_ne found atLeft isLeft, agrees.page_ne found atRight isRight,
          agrees.page_ne found atParent isParent⟩
      rw [touches.nodes _ untouched]
      exact agrees.nodes ptr node found
    case allocated =>
      intro ptr node found
      obtain ⟨old, was⟩ := before ptr node found
      exact (touches.allocated _).mpr (agrees.allocated ptr old was)
    case apart =>
      intro ptr other node otherNode found otherFound
      obtain ⟨old, was⟩ := before ptr node found
      obtain ⟨otherOld, otherWas⟩ := before other otherNode otherFound
      exact agrees.apart ptr other old otherOld was otherWas
    case mRoot => rw [touches.mRootId, agrees.mRoot, rearranged.mRoot]
    case mHeadleaf => rw [touches.mHeadleafId, agrees.mHeadleaf, rearranged.mHeadleaf]
    case mTailleaf => rw [tail, agrees.mTailleaf, rearranged.mTailleaf]

end Agrees

end PersistentBTree.Tables
