import PersistentBTree.Tables.Lookup
import PersistentBTree.Tables.Rebalance

/-! `erase_one` and `erase(iterator)` as they run if null handles can be copied. How two
handles are compared, and what a call of a merge or shift helper does, are parameters of
the two descents. -/

set_option autoImplicit false

namespace PersistentBTree.Tables.NullSafe

open Imperative
open Memory (usub)

variable {K D S : Type}

/-! ## Handles -/

/-- Follows a handle. -/
def nonNull (handle : MemoryNode) : M S PageId := orFault .nullHandle handle

/-- `isfew`, which reads the field that nothing sets. -/
def isFew (n : PageId) : M S Bool := do
  let node ← getNode n
  let table ← get
  pure (decide (node.nSlots ≤ table.minnodeslots))

def isUnderflow (n : PageId) : M S Bool := do
  let node ← getNode n
  let table ← get
  pure (decide (node.nSlots < table.minnodeslots))

/-- `!n || isfew(n)`. -/
def nullOrFew : MemoryNode → M S Bool
  | none => pure true
  | some n => isFew n

/-- `n && isfew(n)`. -/
def presentAndFew : MemoryNode → M S Bool
  | none => pure false
  | some n => isFew n

/-- `n && !isfew(n)`. -/
def presentAndRich : MemoryNode → M S Bool
  | none => pure false
  | some n => do
      let few ← isFew n
      pure (!few)

/-! ## Calls of the helpers -/

inductive Balance where
  | merge
  | shiftLeft
  | shiftRight
  deriving DecidableEq

/-- A call of a helper because of an underflow of the node `curr`, which is one of the
two neighbours. `merge_leaves` has no parameter `parentslot`. -/
structure HelperCall where
  balance : Balance
  leaf : Bool
  curr : PageId
  left : MemoryNode
  right : MemoryNode
  parent : MemoryNode
  parentslot : Option Nat

/-- Why an erasure stops. -/
inductive Halt where
  | fault (fault : Fault)
  /-- A call of a helper was refused. -/
  | refused
  deriving DecidableEq

abbrev Erasing (S α : Type) := Program (Table S) Halt α

def lift {α : Type} (program : M S α) : Erasing S α := withFault Halt.fault program

/-- The call. `merge_leaves` does not use the parent. -/
def HelperCall.perform (records : Records K D S) (call : HelperCall) : M S (Result K) := do
  let left ← nonNull call.left
  let right ← nonNull call.right
  let slot := call.parentslot.getD 0
  match call.balance, call.leaf with
  | .merge, true => mergeLeaves records left right (call.parent.getD (-1))
  | .merge, false => do
      let parent ← nonNull call.parent
      mergeInner records left right parent slot
  | .shiftLeft, true => do
      let parent ← nonNull call.parent
      shiftLeftLeaf records left right parent slot
  | .shiftLeft, false => do
      let parent ← nonNull call.parent
      shiftLeftInner records left right parent slot
      pure .ok
  | .shiftRight, true => do
      let parent ← nonNull call.parent
      shiftRightLeaf records left right parent slot
      pure .ok
  | .shiftRight, false => do
      let parent ← nonNull call.parent
      shiftRightInner records left right parent slot
      pure .ok

/-! ## The ends of the two branches -/

/-- What a descent is told beside the node: its neighbours, their parents, its parent and
the position in it. -/
structure Place where
  left : MemoryNode
  right : MemoryNode
  leftparent : MemoryNode
  rightparent : MemoryNode
  parent : MemoryNode
  parentslot : Nat

/-- The root has no neighbours and no parent. -/
def Place.root : Place := ⟨none, none, none, none, none, 0⟩

section Records

variable (records : Records K D S)

/-- The key of a `result_t`. The pointer is read whatever has become of the page. -/
def readLastkey : Option (KeyType K) → M S K
  | none => throw .nullHandle
  | some (.given key) => pure key
  | some (.stored n slot) => do
      let table ← get
      let node := (table.store.file n).content
      orFault .outOfPage (records.getKey node.isLeafNode node.slots slot)

/-- `parent && parentslot < parent->slotuse`. -/
def parentHasSlot (place : Place) : M S Bool :=
  match place.parent with
  | none => pure false
  | some parent => do
      let used ← slotuse parent
      pure (decide (place.parentslot < used))

/-- `parent.set_key(parentslot, key)`. -/
def setParentKey (place : Place) (key : K) : M S Unit := do
  let parent ← nonNull place.parent
  setKey records parent place.parentslot key

/-- `free_node`. -/
def freeNode (n : PageId) : M S Unit := do
  let table ← get
  if n < table.store.header.nPages ∧ n ∉ table.store.deletePages then
    let _ ← getNode n
    modify fun table => { table with store := table.store.free n }
  else pure ()

/-- `isunderflow(n) && !(n->id == m_rootId && n->slotuse >= 1)`. -/
def needsFix (n : PageId) : M S Bool := do
  let under ← isUnderflow n
  let id ← pageId n
  let used ← slotuse n
  let table ← get
  pure (under && !(id == table.mRootId && decide (1 ≤ used)))

/-- The last key of the leaf was changed. -/
def lastKeyChanged (leaf : PageId) (place : Place) : M S (Result K) := do
  let used ← slotuse leaf
  if ← parentHasSlot place then
    let last ← getKey records leaf ((used : Int) - 1)
    setParentKey records place last
    pure .ok
  else if 1 ≤ used then pure (.update (some (.stored leaf ((used : Int) - 1))))
  else pure .ok

/-- Takes the pair in `slot` out of the leaf. -/
def removePair (leaf : PageId) (slot : Nat) (place : Place) : M S (Result K) := do
  let used ← slotuse leaf
  copyLeafKeys records leaf leaf (slot + 1) used slot
  copyLeafData records leaf leaf (slot + 1) used slot
  setSlotuse leaf (used - 1)
  if slot = used - 1 then lastKeyChanged records leaf place else pure .ok

/-- The root leaf is empty. The ids in the header stay as they are. -/
def dropRoot : M S (Result K) := do
  let table ← get
  freeNode table.mRootId
  modify fun table => { table with mRootId := -1, mHeadleafId := -1, mTailleafId := -1 }
  pure .ok

/-- `btree_update_lastkey` from a child. -/
def passLastkey (result : Result K) (place : Place) : M S (Result K) :=
  if result.updateLastkey then do
    if ← parentHasSlot place then
      let key ← readLastkey records result.lastkey
      setParentKey records place key
      pure .ok
    else pure (.update result.lastkey)
  else pure .ok

/-- The child in `slot`, which a merge has emptied, is taken out of the node. -/
def removeChild (inner : PageId) (slot : Int) : M S Unit := do
  let emptied ← getChild records inner slot
  freeNode emptied
  let used ← slotuse inner
  copyInnerKeys records inner inner slot used (slot - 1)
  copyInnerChilds records inner inner (slot + 1) (used + 1) slot
  setSlotuse inner (used - 1)
  let node ← getNode inner
  if node.level = 1 then
    -- fix split key for children leaves
    let child ← getChild records inner (slot - 1)
    let childUse ← slotuse child
    let last ← getKey records child ((childUse : Int) - 1)
    setKey records inner (slot - 1) last
  else pure ()

/-- `btree_fixmerge` from the child in `slot`: it or the next one is empty. -/
def fixMerge (inner : PageId) (slot : Nat) (result : Result K) : M S Unit :=
  if result.fixmerge then do
    let child ← getChild records inner slot
    let used ← slotuse child
    if used ≠ 0 then removeChild records inner (slot + 1) else removeChild records inner slot
  else pure ()

/-- The first child of the node becomes the root. -/
def trimRoot (inner : PageId) : M S (Result K) := do
  let child ← getChild records inner 0
  modify fun table => { table with mRootId := child }
  setSlotuse inner 0
  let id ← pageId inner
  freeNode id
  pure .ok

/-- `myleft` and `myleftparent`. The neighbour of a first child is the child of `left` in
the slot `slotuse - 1`. -/
def leftOf (inner : PageId) (slot : Nat) (place : Place) : M S (MemoryNode × MemoryNode) :=
  if slot = 0 then
    match place.left with
    | none => pure (none, place.leftparent)
    | some left => do
        let used ← slotuse left
        let child ← getChild records left ((used : Int) - 1)
        let _ ← getNode child
        pure (some child, place.leftparent)
  else do
    let child ← getChild records inner ((slot : Int) - 1)
    let _ ← getNode child
    pure (some child, some inner)

/-- `myright` and `myrightparent`. -/
def rightOf (inner : PageId) (slot : Nat) (place : Place) : M S (MemoryNode × MemoryNode) := do
  let used ← slotuse inner
  if slot = used then
    match place.right with
    | none => pure (none, place.rightparent)
    | some right => do
        let child ← getChild records right 0
        let _ ← getNode child
        pure (some child, place.rightparent)
  else do
    let child ← getChild records inner (slot + 1)
    let _ ← getNode child
    pure (some child, some inner)

/-- What the recursive call for the child in `slot` is given. -/
def placeOf (inner : PageId) (slot : Nat) (place : Place) : M S (PageId × Place) := do
  let (left, leftparent) ← leftOf records inner slot place
  let (right, rightparent) ← rightOf records inner slot place
  let child ← getChild records inner slot
  let _ ← getNode child
  pure (child, ⟨left, right, leftparent, rightparent, some inner, slot⟩)

end Records

/-! ## The descents -/

section Descents

variable (records : Records K D S) (same : MemoryNode → MemoryNode → Bool)
  (call : HelperCall → Erasing S (Result K))

/-- The cases of an underflow below the root, which are the same for leaves and inner
nodes: the call that is made. -/
def chooseFix (leaf : Bool) (curr : PageId) (place : Place) : M S HelperCall := do
  let mergeslot (slot : Nat) := if leaf then none else some slot
  let before := usub place.parentslot 1
  let mergeLeft : HelperCall :=
    ⟨.merge, leaf, curr, place.left, some curr, place.leftparent, mergeslot before⟩
  let mergeRight : HelperCall :=
    ⟨.merge, leaf, curr, some curr, place.right, place.rightparent, mergeslot place.parentslot⟩
  let shiftLeft : HelperCall :=
    ⟨.shiftLeft, leaf, curr, some curr, place.right, place.rightparent, some place.parentslot⟩
  let shiftRight : HelperCall :=
    ⟨.shiftRight, leaf, curr, place.left, some curr, place.leftparent, some before⟩
  let leftFew ← nullOrFew place.left
  let rightFew ← nullOrFew place.right
  let leftHasFew ← presentAndFew place.left
  let rightHasFew ← presentAndFew place.right
  let leftRich ← presentAndRich place.left
  let rightRich ← presentAndRich place.right
  -- if both neighbours would underflow in case of a shift, then merging is
  -- necessary; choose the more local merger with our parent
  if leftFew && rightFew then
    if same place.leftparent place.parent then pure mergeLeft else pure mergeRight
  -- the right node has extra data, so balance right with current
  else if leftHasFew && rightRich then
    if same place.rightparent place.parent then pure shiftLeft else pure mergeLeft
  -- the left node has extra data, so balance left with current
  else if leftRich && rightHasFew then
    if same place.leftparent place.parent then pure shiftRight else pure mergeRight
  -- both have extra data and our parent, choose the one with more data
  else if same place.leftparent place.rightparent then
    let left ← nonNull place.left
    let right ← nonNull place.right
    let leftUse ← slotuse left
    let rightUse ← slotuse right
    if leftUse ≤ rightUse then pure shiftLeft else pure shiftRight
  else if same place.leftparent place.parent then pure shiftRight
  else pure shiftLeft

/-- The end of both branches: when the node underflows, the root is replaced by
`replaceRoot`, and any other node mended by a helper. -/
def fixNode (isRoot : Place → Bool) (replaceRoot : M S (Result K)) (leaf : Bool) (curr : PageId)
    (myres : Result K) (place : Place) : Erasing S (Result K) := do
  let fixes ← lift (needsFix curr)
  if fixes then
    if isRoot place then lift replaceRoot
    else
      let chosen ← lift (chooseFix same leaf curr place)
      let fixed ← call chosen
      pure (myres.or fixed)
  else pure myres

/-- `!left && !right`, the test for the root in a leaf, and in an inner node that of
`erase_iter_descend`. -/
def hasNeither (place : Place) : Bool := !place.left.toBool && !place.right.toBool

/-- `left && right`, the test of `erase_one_descend` in an inner node. -/
def hasBoth (place : Place) : Bool := place.left.toBool && place.right.toBool

/-- What both descents do in the leaf once the pair is found in `slot`. -/
def eraseInLeaf (leaf : PageId) (slot : Nat) (place : Place) : Erasing S (Result K) := do
  let myres ← lift (removePair records leaf slot place)
  fixNode same call hasNeither dropRoot true leaf myres place

/-- What both descents do in an inner node once the pair was erased below the child in
`slot`, but for the test for the root. -/
def eraseInInner (isRoot : Place → Bool) (inner : PageId) (slot : Nat) (result : Result K)
    (place : Place) : Erasing S (Result K) := do
  let myres ← lift (passLastkey records result place)
  lift (fixMerge records inner slot result)
  fixNode same call isRoot (trimRoot records inner) false inner myres place

/-- `erase_one_descend`, with the test for the root as a parameter. The fuel bounds the
height of the tree below `curr`. -/
def descendByKey (isRoot : Place → Bool) : Nat → K → PageId → Place → Erasing S (Result K)
  | 0, _, _, _ => throw (.fault .outOfFuel)
  | fuel + 1, key, curr, place => do
      let leaf ← lift (isLeaf curr)
      let slot ← lift (findLower records curr key)
      if leaf then
        let found ← lift (hasKeyAt records curr slot key)
        if found then eraseInLeaf records same call curr slot place else pure .missing
      else
        let (child, below) ← lift (placeOf records curr slot place)
        let result ← descendByKey isRoot fuel key child below
        if result.notFound then pure result
        else eraseInInner records same call isRoot curr slot result place

def eraseOneDescend : Nat → K → PageId → Place → Erasing S (Result K) :=
  descendByKey records same call hasBoth

/-- The loop of `erase_iter_descend` over the children from `slot` on; `remaining` is the
number of slots left. Returns the slot below which the pair was erased. -/
def searchChildren (iter : Iterator) (inner : PageId) (place : Place)
    (descend : PageId → Place → Erasing S (Result K)) :
    (remaining slot : Nat) → Erasing S (Option (Nat × Result K))
  | 0, _ => pure none
  | remaining + 1, slot => do
      let (child, below) ← lift (placeOf records inner slot place)
      let result ← descend child below
      if result.notFound then
        let used ← lift (slotuse inner)
        if slot < used then
          let separator ← lift (getKey records inner slot)
          let key ← lift (getKey records iter.currnode iter.currslot)
          if records.keyLess separator key then pure none
          else searchChildren iter inner place descend remaining (slot + 1)
        else searchChildren iter inner place descend remaining (slot + 1)
      else pure (some (slot, result))

def eraseIterDescend : Nat → Iterator → PageId → Place → Erasing S (Result K)
  | 0, _, _, _ => throw (.fault .outOfFuel)
  | fuel + 1, iter, curr, place => do
      let leaf ← lift (isLeaf curr)
      let used ← lift (slotuse curr)
      if leaf then
        -- `leaf != iter.currnode`
        if !same (some curr) iter.handle then pure .missing
        else if used ≤ iter.currslot then pure .missing
        else eraseInLeaf records same call curr iter.currslot place
      else
        let key ← lift (getKey records iter.currnode iter.currslot)
        let first ← lift (findLower records curr key)
        let found ← searchChildren records iter curr place (eraseIterDescend fuel iter)
          (used + 1 - first) first
        match found with
        | none => pure .missing
        | some (slot, result) => eraseInInner records same call hasNeither curr slot result place

/-- The end of the public functions. -/
def countErased (result : Result K) : Erasing S Bool := do
  modify fun table => if result.notFound then table else
    { table with mStats.itemcount := table.mStats.itemcount - 1 }
  pure (!result.notFound)

/-- `erase_one`. -/
def eraseOne (key : K) : Erasing S Bool := do
  let table ← get
  if table.mRootId = -1 then pure false
  else
    let root ← lift (getNode table.mRootId)
    let result ← eraseOneDescend records same call (root.level + 1) key table.mRootId .root
    countErased result

/-- `erase(iterator)`. -/
def eraseIter (iter : Iterator) : Erasing S Unit := do
  let table ← get
  if table.mRootId = -1 then pure ()
  else
    let root ← lift (getNode table.mRootId)
    let result ← eraseIterDescend records same call (root.level + 1) iter table.mRootId .root
    let _ ← countErased result
    pure ()

end Descents

end PersistentBTree.Tables.NullSafe
