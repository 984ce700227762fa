import PersistentBTree.Memory.Operations

/-! What the memory of a `btree` object must look like, read off its nodes
alone. -/

set_option autoImplicit false

namespace PersistentBTree.Memory.BTree

open Imperative Multimap

variable {K D : Type}

/-- The keys stored `height` levels below the node, from left to right. -/
def keysBelow (tree : BTree K D) (height : Nat) (ptr : Ptr) : List K :=
  (pairsIn (tree.blocksBelow height ptr)).map Prod.fst

section Order

variable [LinearOrder K]

/-- The separator in `slot` is the largest key below the child in this slot and
not larger than any key below the next child. -/
def Separates (tree : BTree K D) (height : Nat) (node : InnerNode K) (slot : Nat) : Prop :=
  ∃ key child next, node.slotkey.read slot = some key ∧ node.childid.read slot = some child ∧
    node.childid.read (slot + 1) = some next ∧ key ∈ tree.keysBelow height child ∧
      (∀ other ∈ tree.keysBelow height child, other ≤ key) ∧
      ∀ other ∈ tree.keysBelow height next, key ≤ other

/-- All leaves below the node are `height` levels down, the level of every node
is its height, all used slots are filled, and the separators are exact. -/
def Layered (tree : BTree K D) : (height : Nat) → Ptr → Prop
  | 0, ptr => ∃ node, tree.heap ptr = some (.leaf node) ∧ node.pairs.length = node.slotuse
  | height + 1, ptr => ∃ node, tree.heap ptr = some (.inner node) ∧ node.level = height + 1 ∧
      (∀ slot ≤ node.slotuse, ∃ child, node.childid.read slot = some child ∧
        tree.Layered height child) ∧
      ∀ slot < node.slotuse, tree.Separates height node slot

/-- The representation invariant. -/
structure Sound (tree : BTree K D) : Prop where
  layered : ∀ root, tree.mRoot = some root → ∃ height, tree.Layered height root
  sorted : Sorted tree.contents
  /-- Every leaf points at its neighbours. -/
  links : ∀ front leaf back, tree.leafBlocks.map Prod.fst = front ++ leaf :: back →
    ∃ node, tree.heap leaf = some (.leaf node) ∧ node.prevleaf = front.getLast? ∧
      node.nextleaf = back.head?
  distinct : (tree.leafBlocks.map Prod.fst).Nodup
  head : tree.mHeadleaf = (tree.leafBlocks.map Prod.fst).head?
  tail : tree.mTailleaf = (tree.leafBlocks.map Prod.fst).getLast?
  rootNull : tree.mRoot = none ↔ tree.contents = []
  headNull : tree.mHeadleaf = none ↔ tree.contents = []
  tailNull : tree.mTailleaf = none ↔ tree.contents = []

end Order

/-- No node uses more slots than it has, and no node but the root less than the
minimum. -/
def Filled (tree : BTree K D) : Prop :=
  ∀ ptr node, tree.heap ptr = some node → match node with
    | .leaf leaf => leaf.slotuse ≤ tree.sizes.leafslotmax ∧
        (tree.mRoot ≠ some ptr → tree.sizes.minleafslots ≤ leaf.slotuse)
    | .inner inner => inner.slotuse ≤ tree.sizes.innerslotmax ∧
        (tree.mRoot ≠ some ptr → tree.sizes.mininnerslots ≤ inner.slotuse)

end PersistentBTree.Memory.BTree
