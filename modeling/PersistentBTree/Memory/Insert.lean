import PersistentBTree.Memory.Node

/-! Insertion into the in-memory `btree`: `split_leaf_node`,
`split_inner_node`, `insert_descend` and `insert_start`. -/

set_option autoImplicit false

namespace PersistentBTree.Memory

open Imperative

variable {K D : Type}

/-- Let the leaf `next` point back at `leaf`, or let `leaf` be the tail when
there is no next leaf; the caller's assertion is checked in that case. -/
def setBehind (next : Option Ptr) (leaf : Ptr) (isLast : M K D Unit) : M K D Unit :=
  match next with
  | none => do
      isLast
      modify fun tree => { tree with mTailleaf := some leaf }
  | some next => do
      let node ← getLeaf next
      setLeaf next { node with prevleaf := some leaf }

/-- `split_leaf_node`; returns `*_newkey` and `*_newleaf`. -/
def splitLeafNode (leaf : Ptr) : M K D (K × Ptr) := do
  btreeAssert .full (isFull leaf)
  let node ← getLeaf leaf
  let mid := node.slotuse / 2
  let newleaf ← allocateLeaf
  let newnode ← getLeaf newleaf
  setBehind node.nextleaf newleaf (btreeAssert .tail do
    let tree ← get
    pure (some leaf == tree.mTailleaf))
  let slotkey ← copySlots node.slotkey mid node.slotuse newnode.slotkey 0
  let slotdata ← copySlots node.slotdata mid node.slotuse newnode.slotdata 0
  setLeaf newleaf {
    slotuse := usub node.slotuse mid
    prevleaf := some leaf
    nextleaf := node.nextleaf
    slotkey
    slotdata }
  setLeaf leaf { node with slotuse := mid, nextleaf := some newleaf }
  let newkey ← readSlot node.slotkey (usub mid 1)
  pure (newkey, newleaf)

/-- `split_inner_node`; returns `*_newkey` and `*_newinner`. -/
def splitInnerNode (inner : Ptr) (addslot : Nat) : M K D (K × Ptr) := do
  btreeAssert .full (isFull inner)
  let node ← getInner inner
  let half := node.slotuse / 2
  -- if the split is uneven and the overflowing item will be put into the
  -- larger node, then the smaller split node may underflow
  let mid := if addslot ≤ half ∧ usub node.slotuse (half + 1) < half then half - 1 else half
  let newinner ← allocateInner node.level
  let newnode ← getInner newinner
  let slotkey ← copySlots node.slotkey (mid + 1) node.slotuse newnode.slotkey 0
  let childid ← copySlots node.childid (mid + 1) (node.slotuse + 1) newnode.childid 0
  setInner newinner { newnode with slotuse := usub node.slotuse (mid + 1), slotkey, childid }
  setInner inner { node with slotuse := mid }
  let newkey ← readSlot node.slotkey mid
  pure (newkey, newinner)

/-- The end of the inner case of `insert_descend`: put the new child behind
the child in `slot`. -/
def insertChild (inner : Ptr) (slot : Nat) (newkey : K) (newchild : Ptr) : M K D Unit := do
  let node ← getInner inner
  btreeAssert .insertSlot (pure (decide (slot ≤ node.slotuse)))
  let slotkey ← copySlotsBackward node.slotkey slot node.slotuse node.slotkey (node.slotuse + 1)
  let childid ←
    copySlotsBackward node.childid slot (node.slotuse + 1) node.childid (node.slotuse + 2)
  let slotkey ← writeSlot slotkey slot newkey
  let childid ← writeSlot childid (slot + 1) newchild
  setInner inner { node with slotuse := node.slotuse + 1, slotkey, childid }

/-- The end of the leaf case of `insert_descend`: put the pair into `slot`. The source
reads `key` and `value` after the slots were moved, so neither may be one of them. -/
def insertPair (leaf : Ptr) (slot : Nat) (key : K) (value : D) : M K D Unit := do
  let node ← getLeaf leaf
  btreeAssert .insertSlot (pure (decide (slot ≤ node.slotuse)))
  let slotkey ← copySlotsBackward node.slotkey slot node.slotuse node.slotkey (node.slotuse + 1)
  let slotdata ←
    copySlotsBackward node.slotdata slot node.slotuse node.slotdata (node.slotuse + 1)
  let slotkey ← writeSlot slotkey slot key
  let slotdata ← writeSlot slotdata slot value
  setLeaf leaf { node with slotuse := node.slotuse + 1, slotkey, slotdata }

/-- The iterator and flag that `insert_descend` returns, and its output
parameters `*splitkey` and `*splitnode`. -/
structure Insertion (K : Type) where
  iter : Iterator
  inserted : Bool
  splitkey : K
  splitnode : Option Ptr

/-- The inner case of `insert_descend` once the child in `slot` was split. -/
def insertSplitChild [Inhabited K] (inner : Ptr) (slot : Nat) (child : Insertion K)
    (newchild : Ptr) : M K D (Insertion K) := do
  if ← isFull inner then
    let (splitkey, splitnode) ← splitInnerNode inner slot
    let node ← getInner inner
    let splitinner ← getInner splitnode
    if slot = node.slotuse + 1 ∧ node.slotuse < splitinner.slotuse then
      -- special case when the insert slot matches the split place between the
      -- two nodes, then the insert key becomes the split key
      btreeAssert .fits do
        let tree ← get
        pure (decide (node.slotuse + 1 < tree.sizes.innerslotmax))
      let slotkey ← writeSlot node.slotkey node.slotuse splitkey
      let moved ← readSlot splitinner.childid 0
      let childid ← writeSlot node.childid (node.slotuse + 1) moved
      setInner inner { node with slotuse := node.slotuse + 1, slotkey, childid }
      let rightChildid ← writeSlot splitinner.childid 0 newchild
      setInner splitnode { splitinner with childid := rightChildid }
      pure { child with splitkey := child.splitkey, splitnode := some splitnode }
    else if node.slotuse + 1 ≤ slot then
      -- the insert slot is in the newly created split node
      insertChild splitnode (slot - (node.slotuse + 1)) child.splitkey newchild
      pure { child with splitkey, splitnode := some splitnode }
    else
      insertChild inner slot child.splitkey newchild
      pure { child with splitkey, splitnode := some splitnode }
  else
    insertChild inner slot child.splitkey newchild
    pure { child with splitkey := default, splitnode := none }

/-- The leaf case of `insert_descend`. -/
def insertIntoLeaf [Inhabited K] (leaf : Ptr) (slot : Nat) (key : K) (value : D) :
    M K D (Insertion K) := do
  if ← isFull leaf then
    let (splitkey, newleaf) ← splitLeafNode leaf
    let node ← getLeaf leaf
    if node.slotuse ≤ slot then
      -- the insert slot is in the split sibling node
      insertPair newleaf (slot - node.slotuse) key value
      pure { iter := ⟨some newleaf, slot - node.slotuse⟩, inserted := true,
             splitkey, splitnode := some newleaf }
    else
      insertPair leaf slot key value
      let node ← getLeaf leaf
      -- the insert is at the last slot of the old node
      pure { iter := ⟨some leaf, slot⟩, inserted := true,
             splitkey := if slot = usub node.slotuse 1 then key else splitkey,
             splitnode := some newleaf }
  else
    insertPair leaf slot key value
    let node ← getLeaf leaf
    pure { iter := ⟨some leaf, slot⟩, inserted := true,
           splitkey := if slot = usub node.slotuse 1 then key else default,
           splitnode := none }

section Descent

variable [LinearOrder K] [Inhabited K]

/-- `insert_descend`. The fuel bounds the height of the tree below `n`. -/
def insertDescend : Nat → Ptr → K → D → M K D (Insertion K)
  | 0, _, _, _ => throw .outOfFuel
  | fuel + 1, n, key, value => do
      match ← getNode n with
      | .inner node =>
          let slot ← findLower node.slotkey node.slotuse key
          let child ← readSlot node.childid slot
          let inserted ← insertDescend fuel child key value
          match inserted.splitnode with
          | some newchild => insertSplitChild n slot inserted newchild
          | none => pure { inserted with splitkey := default, splitnode := none }
      | .leaf node =>
          let slot ← findLower node.slotkey node.slotuse key
          insertIntoLeaf n slot key value

/-- The first lines of `insert_start`: an empty tree gets a root leaf. -/
def insertRoot : M K D Ptr := do
  let tree ← get
  match tree.mRoot with
  | some root => pure root
  | none => do
      let leaf ← allocateLeaf
      modify fun tree =>
        { tree with mRoot := some leaf, mHeadleaf := some leaf, mTailleaf := some leaf }
      pure leaf

/-- The new root of `insert_start`, if the old one was split. -/
def growRoot (root : Ptr) (newkey : K) : Option Ptr → M K D Unit
  | none => pure ()
  | some newchild => do
      let rootLevel ← level root
      let newroot ← allocateInner (rootLevel + 1)
      let node ← getInner newroot
      let slotkey ← writeSlot node.slotkey 0 newkey
      let childid ← writeSlot node.childid 0 root
      let childid ← writeSlot childid 1 newchild
      setInner newroot { node with slotuse := 1, slotkey, childid }
      modify fun tree => { tree with mRoot := some newroot }

/-- `insert` and `insert_start`. The recursion goes down one level a step. -/
def insert (key : K) (value : D) : M K D (Iterator × Bool) := do
  let root ← insertRoot
  let height ← level root
  let inserted ← insertDescend (height + 1) root key value
  growRoot root inserted.splitkey inserted.splitnode
  modify fun tree => if inserted.inserted then
    { tree with mStats.itemcount := tree.mStats.itemcount + 1 } else tree
  pure (inserted.iter, inserted.inserted)

end Descent

end PersistentBTree.Memory
