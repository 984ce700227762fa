import PersistentBTree.Memory.Node
import PersistentBTree.Tables.Node

/-! Insertion into a table: `split_leaf_node`, `split_inner_node`, `insert_descend`
and `insert_start`. -/

set_option autoImplicit false

namespace PersistentBTree.Tables

open Imperative
open Memory (usub)

variable {K D S : Type}

/-- A `key_type` is a pointer: to a key that the caller of `insert` gave, or to a
slot, whose content may change before the key is read. -/
inductive KeyType (K : Type) where
  | given (key : K)
  | stored (n : PageId) (slot : Int)

def KeyType.read (records : Records K D S) : KeyType K → M S K
  | .given key => pure key
  | .stored n slot => getKey records n slot

/-- `iterator`. -/
structure Iterator where
  currnode : PageId
  currslot : Nat
  deriving DecidableEq

/-- The iterator and flag that `insert_descend` returns, and its output parameters
`splitkey` and `splitnode`, which are set together. -/
structure Insertion (K : Type) where
  iter : Iterator
  inserted : Bool
  split : Option (KeyType K × PageId)

section Splits

variable (records : Records K D S)

/-- The `if` of `split_leaf_node`: the leaf `id` is before `nextleaf`, or is the last. -/
def linkBehind (nextleaf id : PageId) : M S Unit :=
  if nextleaf = -1 then modify fun table => table.setTail id
  else setPrevleaf nextleaf id

/-- `split_leaf_node`; returns `_newkey` and `_newleaf`. The keys are copied twice,
the data not at all. -/
def splitLeafNode (leaf : PageId) : M S (KeyType K × PageId) := do
  let used ← slotuse leaf
  let mid := used / 2
  let newleaf ← allocateLeaf
  setSlotuse newleaf (used - mid)
  let node ← getNode leaf
  let newId ← pageId newleaf
  setNextleaf newleaf node.nextleaf
  linkBehind node.nextleaf newId
  copyLeafKeys records leaf newleaf mid used 0
  copyLeafKeys records leaf newleaf mid used 0
  setSlotuse leaf mid
  setNextleaf leaf newId
  let leafId ← pageId leaf
  setPrevleaf newleaf leafId
  pure (.stored leaf (mid - 1 : Int), newleaf)

/-- `split_inner_node`; returns `_newkey` and `_newinner`. -/
def splitInnerNode (inner : PageId) (addslot : Nat) : M S (KeyType K × PageId) := do
  let used ← slotuse inner
  let half := used / 2
  -- if the split is uneven and the overflowing item will be put into the
  -- larger node, then the smaller split node may underflow
  let mid := if addslot ≤ half ∧ usub used (half + 1) < half then half - 1 else half
  let node ← getNode inner
  let newinner ← allocateInner node.level
  setSlotuse newinner (usub used (mid + 1))
  copyInnerKeys records inner newinner (mid + 1) used 0
  copyInnerChilds records inner newinner (mid + 1) (used + 1) 0
  setSlotuse inner mid
  pure (.stored inner mid, newinner)

/-- The end of the inner case of `insert_descend`. The slots are copied by a loop
that begins at `slotuse + 1`. -/
def insertChild (inner : PageId) (slot : Nat) (newkey : KeyType K) (newchild : PageId) :
    M S Unit := do
  let used ← slotuse inner
  copyInnerKeys records inner inner slot used (used + 1)
  copyInnerChilds records inner inner slot (used + 1) (used + 2)
  let key ← newkey.read records
  setKey records inner slot key
  let id ← pageId newchild
  setChild records inner (slot + 1) id
  setSlotuse inner (used + 1)

/-- The end of the leaf case of `insert_descend`. -/
def insertPair (leaf : PageId) (slot : Nat) (key : K) (value : D) : M S Unit := do
  let used ← slotuse leaf
  copyLeafKeys records leaf leaf slot used (used + 1)
  copyLeafData records leaf leaf slot used (used + 1)
  setKey records leaf slot key
  setData records leaf slot value
  setSlotuse leaf (used + 1)

/-- The inner case of `insert_descend` once the child in `slot` was split. -/
def insertSplitChild (inner : PageId) (slot : Nat) (child : Insertion K) (newkey : KeyType K)
    (newchild : PageId) : M S (Insertion K) := do
  if ← isFull inner then
    let (splitkey, splitnode) ← splitInnerNode records inner slot
    let used ← slotuse inner
    let splitUsed ← slotuse splitnode
    if slot = used + 1 ∧ used < splitUsed then
      -- special case when the insert slot matches the split place between the
      -- two nodes, then the insert key becomes the split key
      let key ← splitkey.read records
      setKey records inner used key
      -- the node of the first child is converted to the page number 1
      let first ← getChild records splitnode 0
      let _ ← getNode first
      let _ ← getNode 1
      let moved ← pageId 1
      setChild records inner (used + 1) moved
      setSlotuse inner (used + 1)
      let id ← pageId newchild
      setChild records splitnode 0 id
      pure { child with split := some (newkey, splitnode) }
    else if used + 1 ≤ slot then
      -- the insert slot is in the newly created split node
      insertChild records splitnode (slot - (used + 1)) newkey newchild
      pure { child with split := some (splitkey, splitnode) }
    else
      insertChild records inner slot newkey newchild
      pure { child with split := some (splitkey, splitnode) }
  else
    insertChild records inner slot newkey newchild
    pure { child with split := none }

/-- The leaf case of `insert_descend`. The case in which the split key would be
updated does not occur: `leaf != splitnode` compares two handles as booleans, and
neither is null. -/
def insertIntoLeaf (leaf : PageId) (slot : Nat) (key : K) (value : D) : M S (Insertion K) := do
  if ← isFull leaf then
    let (splitkey, newleaf) ← splitLeafNode records leaf
    let used ← slotuse leaf
    if used ≤ slot then
      -- the insert slot is in the split sibling node
      insertPair records newleaf (slot - used) key value
      pure { iter := ⟨newleaf, slot - used⟩, inserted := true, split := some (splitkey, newleaf) }
    else
      insertPair records leaf slot key value
      pure { iter := ⟨leaf, slot⟩, inserted := true, split := some (splitkey, newleaf) }
  else
    insertPair records leaf slot key value
    pure { iter := ⟨leaf, slot⟩, inserted := true, split := none }

/-- `insert_descend`. The fuel bounds the height of the tree below `n`. -/
def insertDescend : Nat → PageId → K → D → M S (Insertion K)
  | 0, _, _, _ => throw .outOfFuel
  | fuel + 1, n, key, value => do
      if ← isLeaf n then
        let slot ← findLower records n key
        insertIntoLeaf records n slot key value
      else
        let slot ← findLower records n key
        let child ← getChild records n slot
        let inserted ← insertDescend fuel child key value
        match inserted.split with
        | some (newkey, newchild) => insertSplitChild records n slot inserted newkey newchild
        | none => pure inserted

end Splits

/-- The first lines of `insert_start`: an empty table gets a root leaf, whose id is
written to the header, too. -/
def insertRoot : M S Unit := do
  let table ← get
  if table.mRootId = -1 then
    let n ← allocateLeaf
    let id ← pageId n
    modify fun table => { table with
      mRootId := id
      mHeadleafId := id
      mTailleafId := id
      store.header := { table.store.header with rootPage := id, headLeaf := id, tailLeaf := id } }
  else pure ()

/-- The new root of `insert_start`, if the old one was split. -/
def growRoot (records : Records K D S) (root : PageId) :
    Option (KeyType K × PageId) → M S Unit
  | none => pure ()
  | some (newkey, newchild) => do
      let node ← getNode root
      let newroot ← allocateInner (node.level + 1)
      let key ← newkey.read records
      setKey records newroot 0 key
      let table ← get
      setChild records newroot 0 table.mRootId
      let childId ← pageId newchild
      setChild records newroot 1 childId
      setSlotuse newroot 1
      let id ← pageId newroot
      modify fun table => { table with
        mRootId := id
        store.header := { table.store.header with rootPage := id } }

/-- `insert` and `insert_start`. The recursion goes down one level a step. -/
def insert (records : Records K D S) (key : K) (value : D) : M S (Iterator × Bool) := do
  insertRoot
  let table ← get
  let root := table.mRootId
  let node ← getNode root
  let inserted ← insertDescend records (node.level + 1) root key value
  growRoot records root inserted.split
  modify fun table => if inserted.inserted then
    { table with mStats.itemcount := table.mStats.itemcount + 1 } else table
  pure (inserted.iter, inserted.inserted)

end PersistentBTree.Tables
