import PersistentBTree.Memory.Erase

/-! Assignment and the copy constructor of the in-memory `btree`. The other tree
is only read; its nodes are not those of the object that is written. -/

set_option autoImplicit false

namespace PersistentBTree.Memory

open Imperative

variable {K D : Type}

/-- The links of `copy_recursive`: the new leaf goes behind the last one. -/
def appendLeaf (newleaf : Ptr) (node : LeafNode K D) : M K D Unit := do
  let tree ← get
  match tree.mHeadleaf with
  | none => do
      setLeaf newleaf { node with prevleaf := none, nextleaf := none }
      modify fun tree => { tree with mHeadleaf := some newleaf, mTailleaf := some newleaf }
  | some _ => do
      setLeaf newleaf { node with prevleaf := tree.mTailleaf }
      let tail ← nonNull tree.mTailleaf
      let last ← getLeaf tail
      setLeaf tail { last with nextleaf := some newleaf }
      modify fun tree => { tree with mTailleaf := some newleaf }

/-- The loop of `copy_recursive` over the children of `inner`; the loop variable
is an `unsigned short`. -/
def copyChildren (inner : InnerNode K) (newinner : Ptr) (copy : Ptr → M K D Ptr) :
    (fuel slot : Nat) → M K D Unit
  | 0, slot => if slot ≤ inner.slotuse then throw .outOfFuel else pure ()
  | fuel + 1, slot =>
      if slot ≤ inner.slotuse then do
        let child ← readSlot inner.childid slot
        let newchild ← copy child
        let node ← getInner newinner
        let childid ← writeSlot node.childid slot newchild
        setInner newinner { node with childid }
        copyChildren inner newinner copy fuel ((slot + 1) % 2 ^ 16)
      else pure ()

/-- `copy_recursive` for a node of `other`. The fuel bounds the height of the
tree below `n`. -/
def copyRecursive (other : BTree K D) : Nat → Ptr → M K D Ptr
  | 0, _ => throw .outOfFuel
  | fuel + 1, n => do
      match ← orFault .dangling (other.heap n) with
      | .leaf leaf => do
          let newleaf ← allocateLeaf
          let node ← getLeaf newleaf
          let slotkey ← copySlots leaf.slotkey 0 leaf.slotuse node.slotkey 0
          let slotdata ← copySlots leaf.slotdata 0 leaf.slotuse node.slotdata 0
          appendLeaf newleaf { node with slotuse := leaf.slotuse, slotkey, slotdata }
          pure newleaf
      | .inner inner => do
          let newinner ← allocateInner inner.level
          let node ← getInner newinner
          let slotkey ← copySlots inner.slotkey 0 inner.slotuse node.slotkey 0
          setInner newinner { node with slotuse := inner.slotuse, slotkey }
          copyChildren inner newinner (copyRecursive other fuel) (inner.slotuse + 1) 0
          pure newinner

/-- What assignment and the copy constructor do with a tree that is not empty. -/
def copyNodes (other : BTree K D) : M K D Unit := do
  modify fun tree => { tree with mStats := { tree.mStats with leaves := 0, innernodes := 0 } }
  match other.mRoot with
  | none => pure ()
  | some root => do
      let node ← orFault .dangling (other.heap root)
      let newroot ← copyRecursive other (node.level + 1) root
      modify fun tree => { tree with mRoot := some newroot }

/-- `operator=`, from another object. -/
def assign (other : BTree K D) : M K D Unit := do
  clear
  if other.mStats.itemcount ≠ 0 then do
    copyNodes other
    modify fun tree => { tree with mStats := other.mStats }
  else pure ()

/-- The members that the copy constructor initialises. The four node sizes are
not among them: they are what was in the memory of the new object. -/
def BTree.uninitialised (sizes : NodeSizes) (checks : Assertion → Bool) (other : BTree K D) :
    BTree K D :=
  { BTree.empty sizes checks with mStats := other.mStats }

/-- The body of the copy constructor. -/
def copyConstruct (other : BTree K D) : M K D Unit := do
  let tree ← get
  if 0 < tree.mStats.itemcount then copyNodes other else pure ()

end PersistentBTree.Memory
