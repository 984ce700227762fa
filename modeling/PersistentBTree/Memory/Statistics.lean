import PersistentBTree.Memory.ClearProperties
import PersistentBTree.Memory.Copy
import PersistentBTree.Memory.Operations

/-! What the statistics of a `btree` count, and the trees that calls and
assignments lead to. -/

set_option autoImplicit false

namespace PersistentBTree.Memory

variable {K D : Type}

namespace BTree

/-- The inner nodes among the node and those below it, `height` levels up from the
leaves. -/
def innersBelow (tree : BTree K D) : (height : Nat) → Ptr → List Ptr
  | 0, _ => []
  | height + 1, ptr =>
      match tree.heap ptr with
      | some (.inner node) => ptr :: node.children.flatMap (tree.innersBelow height)
      | _ => []

/-- The inner nodes of the tree. -/
def innerPtrs (tree : BTree K D) : List Ptr :=
  match tree.mRoot with
  | none => []
  | some root =>
      match tree.heap root with
      | none => []
      | some node => tree.innersBelow node.level root

/-- The leaves of the tree. -/
def leafPtrs (tree : BTree K D) : List Ptr := tree.leafBlocks.map Prod.fst

/-- The statistics count the pairs and the nodes, and the nodes in memory are
those of the tree. An address is not used twice, and deleting a node that is
deleted is a fault: so the other nodes that were allocated were freed once. -/
structure Exact (tree : BTree K D) : Prop where
  itemcount : tree.mStats.itemcount = tree.contents.length
  leaves : tree.mStats.leaves = tree.leafPtrs.length
  innernodes : tree.mStats.innernodes = tree.innerPtrs.length
  distinct : (tree.leafPtrs ++ tree.innerPtrs).Nodup
  allocated : ∀ ptr, tree.heap ptr ≠ none ↔ ptr ∈ tree.leafPtrs ++ tree.innerPtrs

end BTree

variable [LinearOrder K] [Inhabited K] {sizes : NodeSizes} {checks : Assertion → Bool}

/-- The tree is the result of completed calls, which search in trees of this kind, and
of assignments from such trees, all with the same node sizes. -/
inductive AssembledIn (kind : BTree K D → Prop) (sizes : NodeSizes) (checks : Assertion → Bool) :
    BTree K D → Prop where
  | empty : AssembledIn kind sizes checks (BTree.empty sizes checks)
  | call {before after : BTree K D} {command : Command K D} {reply : Reply}
      (assembled : AssembledIn kind sizes checks before) (valid : command.Valid before)
      (searches : command.SearchesIn kind before)
      (returned : command.perform.run before = .ok (reply, after)) :
      AssembledIn kind sizes checks after
  | assign {before after source : BTree K D} (assembled : AssembledIn kind sizes checks before)
      (assembledSource : AssembledIn kind sizes checks source)
      (returned : (assign source).run before = .ok ((), after)) :
      AssembledIn kind sizes checks after

/-- A call or an assignment. -/
inductive Change (K D : Type) where
  | call (command : Command K D)
  | assign (source : BTree K D)

namespace Change

def perform : Change K D → M K D Unit
  | .call command => do
      let _ ← command.perform
      pure ()
  | .assign source => Memory.assign source

def Valid (kind : BTree K D → Prop) (sizes : NodeSizes) (checks : Assertion → Bool)
    (tree : BTree K D) : Change K D → Prop
  | .call command => command.Valid tree
  | .assign source => AssembledIn kind sizes checks source

/-- The change only searches in trees of this kind. -/
def SearchesIn (kind : BTree K D → Prop) (tree : BTree K D) : Change K D → Prop
  | .call command => command.SearchesIn kind tree
  | .assign _ => True

/-- No loop counts children in an `unsigned short` that has too few values. -/
def Narrow (tree : BTree K D) : Change K D → Prop
  | .call command => command = .clear → ¬ tree.Wide
  | .assign source => ¬ tree.Wide ∧ ¬ source.Wide

end Change

end PersistentBTree.Memory
