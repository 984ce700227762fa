import PersistentBTree.Memory.Insert

/-! What `erase` does about an underflowing node: the merge and shift helpers
and the choice between them. -/

set_option autoImplicit false

namespace PersistentBTree.Memory

open Imperative

variable {K D : Type}

/-- `result_t`; the flags are kept as three booleans. -/
structure Result (K : Type) where
  notFound : Bool := false
  updateLastkey : Bool := false
  fixmerge : Bool := false
  lastkey : K

section Flags

variable [Inhabited K]

/-- `btree_ok`. -/
def Result.ok : Result K := { lastkey := default }

/-- `btree_not_found`. -/
def Result.missing : Result K := { notFound := true, lastkey := default }

/-- `btree_update_lastkey` with the key. -/
def Result.update (lastkey : K) : Result K := { updateLastkey := true, lastkey }

/-- `btree_fixmerge`. -/
def Result.merged : Result K := { fixmerge := true, lastkey := default }

/-- `operator|=`. -/
def Result.or (first second : Result K) : Result K where
  notFound := first.notFound || second.notFound
  updateLastkey := first.updateLastkey || second.updateLastkey
  fixmerge := first.fixmerge || second.fixmerge
  lastkey := if second.updateLastkey then second.lastkey else first.lastkey

end Flags

/-- The assertion `parent->childid[parentslot] == child`. -/
def assertParentSlot (parent : Option Ptr) (parentslot : Nat) (child : Ptr) : M K D Unit :=
  btreeAssert .parentSlot do
    let parent ← nonNull parent
    let node ← getInner parent
    let stored ← readSlot node.childid parentslot
    pure (stored == child)

/-- The assertion `parent->level == expected`. -/
def assertLevel (parent : Option Ptr) (expected : M K D Nat) : M K D Unit :=
  btreeAssert .level do
    let parent ← nonNull parent
    let parentLevel ← level parent
    let wanted ← expected
    pure (parentLevel == wanted)

section Helpers

variable [Inhabited K]

/-- `merge_leaves`. -/
def mergeLeaves (left right parent : Option Ptr) : M K D (Result K) := do
  let left ← nonNull left
  let right ← nonNull right
  btreeAssert .level do
    let leftLeaf ← isLeafNode left
    let rightLeaf ← isLeafNode right
    pure (leftLeaf && rightLeaf)
  assertLevel parent (pure 1)
  let leftNode ← getLeaf left
  let rightNode ← getLeaf right
  btreeAssert .fits do
    let tree ← get
    pure (decide (leftNode.slotuse + rightNode.slotuse < tree.sizes.leafslotmax))
  let slotkey ← copySlots rightNode.slotkey 0 rightNode.slotuse leftNode.slotkey leftNode.slotuse
  let slotdata ←
    copySlots rightNode.slotdata 0 rightNode.slotuse leftNode.slotdata leftNode.slotuse
  setLeaf left { leftNode with
    slotuse := leftNode.slotuse + rightNode.slotuse
    nextleaf := rightNode.nextleaf
    slotkey, slotdata }
  setBehind rightNode.nextleaf left (pure ())
  setLeaf right { rightNode with slotuse := 0 }
  pure .merged

/-- `merge_inner`. -/
def mergeInner (left right parent : Option Ptr) (parentslot : Nat) : M K D (Result K) := do
  let left ← nonNull left
  let right ← nonNull right
  btreeAssert .level do
    let leftLevel ← level left
    let rightLevel ← level right
    pure (leftLevel == rightLevel)
  assertLevel parent do
    let leftLevel ← level left
    pure (leftLevel + 1)
  assertParentSlot parent parentslot left
  let leftNode ← getInner left
  let rightNode ← getInner right
  btreeAssert .fits do
    let tree ← get
    pure (decide (leftNode.slotuse + rightNode.slotuse < tree.sizes.innerslotmax))
  -- retrieve the decision key from parent
  let parent ← nonNull parent
  let parentNode ← getInner parent
  let decision ← readSlot parentNode.slotkey parentslot
  let slotkey ← writeSlot leftNode.slotkey leftNode.slotuse decision
  let slotkey ← copySlots rightNode.slotkey 0 rightNode.slotuse slotkey (leftNode.slotuse + 1)
  let childid ←
    copySlots rightNode.childid 0 (rightNode.slotuse + 1) leftNode.childid (leftNode.slotuse + 1)
  setInner left { leftNode with
    slotuse := leftNode.slotuse + 1 + rightNode.slotuse
    slotkey, childid }
  setInner right { rightNode with slotuse := 0 }
  pure .merged

/-- `shift_left_leaf`. -/
def shiftLeftLeaf (left right parent : Option Ptr) (parentslot : Nat) : M K D (Result K) := do
  let left ← nonNull left
  let right ← nonNull right
  btreeAssert .level do
    let leftLeaf ← isLeafNode left
    let rightLeaf ← isLeafNode right
    pure (leftLeaf && rightLeaf)
  assertLevel parent (pure 1)
  let leftNode ← getLeaf left
  let rightNode ← getLeaf right
  btreeAssert .neighbours (pure (leftNode.nextleaf == some right))
  btreeAssert .neighbours (pure (some left == rightNode.prevleaf))
  btreeAssert .donor (pure (decide (leftNode.slotuse < rightNode.slotuse)))
  assertParentSlot parent parentslot left
  let shiftnum := usub rightNode.slotuse leftNode.slotuse / 2
  btreeAssert .fits do
    let tree ← get
    pure (decide (leftNode.slotuse + shiftnum < tree.sizes.leafslotmax))
  -- copy the first items from the right node to the last slot in the left node
  let slotkey ← copySlots rightNode.slotkey 0 shiftnum leftNode.slotkey leftNode.slotuse
  let slotdata ← copySlots rightNode.slotdata 0 shiftnum leftNode.slotdata leftNode.slotuse
  setLeaf left { leftNode with slotuse := leftNode.slotuse + shiftnum, slotkey, slotdata }
  -- shift all slots in the right node to the left
  let rightKey ← copySlots rightNode.slotkey shiftnum rightNode.slotuse rightNode.slotkey 0
  let rightData ← copySlots rightNode.slotdata shiftnum rightNode.slotuse rightNode.slotdata 0
  setLeaf right { rightNode with
    slotuse := usub rightNode.slotuse shiftnum
    slotkey := rightKey
    slotdata := rightData }
  -- fixup parent
  let last ← readSlot slotkey (usub (leftNode.slotuse + shiftnum) 1)
  let parent ← nonNull parent
  let parentNode ← getInner parent
  if parentslot < parentNode.slotuse then
    let parentKey ← writeSlot parentNode.slotkey parentslot last
    setInner parent { parentNode with slotkey := parentKey }
    pure .ok
  else
    -- the update is further up the tree
    pure (.update last)

/-- `shift_left_inner`. -/
def shiftLeftInner (left right parent : Option Ptr) (parentslot : Nat) : M K D (Result K) := do
  let left ← nonNull left
  let right ← nonNull right
  btreeAssert .level do
    let leftLevel ← level left
    let rightLevel ← level right
    pure (leftLevel == rightLevel)
  assertLevel parent do
    let leftLevel ← level left
    pure (leftLevel + 1)
  let leftNode ← getInner left
  let rightNode ← getInner right
  btreeAssert .donor (pure (decide (leftNode.slotuse < rightNode.slotuse)))
  assertParentSlot parent parentslot left
  let shiftnum := usub rightNode.slotuse leftNode.slotuse / 2
  btreeAssert .fits do
    let tree ← get
    pure (decide (leftNode.slotuse + shiftnum < tree.sizes.innerslotmax))
  -- copy the parent's decision slotkey and childid to the first new key on the left
  let parent ← nonNull parent
  let parentNode ← getInner parent
  let decision ← readSlot parentNode.slotkey parentslot
  let slotkey ← writeSlot leftNode.slotkey leftNode.slotuse decision
  -- copy the other items from the right node to the last slots in the left node
  let slotkey ← copySlots rightNode.slotkey 0 (usub shiftnum 1) slotkey (leftNode.slotuse + 1)
  let childid ←
    copySlots rightNode.childid 0 shiftnum leftNode.childid (leftNode.slotuse + 1)
  setInner left { leftNode with
    slotuse := leftNode.slotuse + 1 + usub shiftnum 1
    slotkey, childid }
  -- fixup parent
  let risen ← readSlot rightNode.slotkey (usub shiftnum 1)
  let parentKey ← writeSlot parentNode.slotkey parentslot risen
  setInner parent { parentNode with slotkey := parentKey }
  -- shift all slots in the right node
  let rightKey ← copySlots rightNode.slotkey shiftnum rightNode.slotuse rightNode.slotkey 0
  let rightChild ←
    copySlots rightNode.childid shiftnum (rightNode.slotuse + 1) rightNode.childid 0
  setInner right { rightNode with
    slotuse := usub rightNode.slotuse shiftnum
    slotkey := rightKey
    childid := rightChild }
  pure .ok

/-- `shift_right_leaf`. -/
def shiftRightLeaf (left right parent : Option Ptr) (parentslot : Nat) : M K D (Result K) := do
  let left ← nonNull left
  let right ← nonNull right
  btreeAssert .level do
    let leftLeaf ← isLeafNode left
    let rightLeaf ← isLeafNode right
    pure (leftLeaf && rightLeaf)
  assertLevel parent (pure 1)
  let leftNode ← getLeaf left
  let rightNode ← getLeaf right
  btreeAssert .neighbours (pure (leftNode.nextleaf == some right))
  btreeAssert .neighbours (pure (some left == rightNode.prevleaf))
  assertParentSlot parent parentslot left
  btreeAssert .donor (pure (decide (rightNode.slotuse < leftNode.slotuse)))
  let shiftnum := usub leftNode.slotuse rightNode.slotuse / 2
  btreeAssert .fits do
    let tree ← get
    pure (decide (rightNode.slotuse + shiftnum < tree.sizes.leafslotmax))
  -- shift all slots in the right node
  let rightKey ← copySlotsBackward rightNode.slotkey 0 rightNode.slotuse rightNode.slotkey
    (rightNode.slotuse + shiftnum)
  let rightData ← copySlotsBackward rightNode.slotdata 0 rightNode.slotuse rightNode.slotdata
    (rightNode.slotuse + shiftnum)
  -- copy the last items from the left node to the first slot in the right node
  let staying := usub leftNode.slotuse shiftnum
  let rightKey ← copySlots leftNode.slotkey staying leftNode.slotuse rightKey 0
  let rightData ← copySlots leftNode.slotdata staying leftNode.slotuse rightData 0
  setLeaf right { rightNode with
    slotuse := rightNode.slotuse + shiftnum
    slotkey := rightKey
    slotdata := rightData }
  setLeaf left { leftNode with slotuse := staying }
  let last ← readSlot leftNode.slotkey (usub staying 1)
  let parent ← nonNull parent
  let parentNode ← getInner parent
  let parentKey ← writeSlot parentNode.slotkey parentslot last
  setInner parent { parentNode with slotkey := parentKey }
  pure .ok

/-- `shift_right_inner`. -/
def shiftRightInner (left right parent : Option Ptr) (parentslot : Nat) : M K D (Result K) := do
  let left ← nonNull left
  let right ← nonNull right
  btreeAssert .level do
    let leftLevel ← level left
    let rightLevel ← level right
    pure (leftLevel == rightLevel)
  assertLevel parent do
    let leftLevel ← level left
    pure (leftLevel + 1)
  let leftNode ← getInner left
  let rightNode ← getInner right
  btreeAssert .donor (pure (decide (rightNode.slotuse < leftNode.slotuse)))
  assertParentSlot parent parentslot left
  let shiftnum := usub leftNode.slotuse rightNode.slotuse / 2
  btreeAssert .fits do
    let tree ← get
    pure (decide (rightNode.slotuse + shiftnum < tree.sizes.innerslotmax))
  -- shift all slots in the right node
  let rightKey ← copySlotsBackward rightNode.slotkey 0 rightNode.slotuse rightNode.slotkey
    (rightNode.slotuse + shiftnum)
  let rightChild ← copySlotsBackward rightNode.childid 0 (rightNode.slotuse + 1)
    rightNode.childid (rightNode.slotuse + 1 + shiftnum)
  -- copy the parent's decision slotkey and childid to the last new key on the right
  let parent ← nonNull parent
  let parentNode ← getInner parent
  let decision ← readSlot parentNode.slotkey parentslot
  let rightKey ← writeSlot rightKey (usub shiftnum 1) decision
  -- copy the remaining last items from the left node to the first slot in the right node
  let staying := usub leftNode.slotuse shiftnum
  let rightKey ← copySlots leftNode.slotkey (staying + 1) leftNode.slotuse rightKey 0
  let rightChild ← copySlots leftNode.childid (staying + 1) (leftNode.slotuse + 1) rightChild 0
  setInner right { rightNode with
    slotuse := rightNode.slotuse + shiftnum
    slotkey := rightKey
    childid := rightChild }
  -- copy the first to-be-removed key from the left node to the parent's decision slot
  let risen ← readSlot leftNode.slotkey staying
  let parentKey ← writeSlot parentNode.slotkey parentslot risen
  setInner parent { parentNode with slotkey := parentKey }
  setInner left { leftNode with slotuse := staying }
  pure .ok

end Helpers

/-! ## The choice between them -/

/-- `n == NULL || isfew(n)`. -/
def nullOrFew : Option Ptr → M K D Bool
  | none => pure true
  | some n => isFew n

/-- `n != NULL && isfew(n)`. -/
def presentAndFew : Option Ptr → M K D Bool
  | none => pure false
  | some n => isFew n

/-- `n != NULL && !isfew(n)`. -/
def presentAndRich : Option Ptr → M K D Bool
  | none => pure false
  | some n => do
      let few ← isFew n
      pure (!few)

/-- The cases of an underflow below the root, as `erase_one_descend` and
`erase_iter_descend` make them for leaves and again for inner nodes. The four
actions are the calls the source makes in them. -/
def fixUnderflow (left right leftparent rightparent parent : Option Ptr)
    (mergeLeft mergeRight shiftLeft shiftRight : M K D (Result K)) : M K D (Result K) := do
  let leftFew ← nullOrFew left
  let rightFew ← nullOrFew right
  let leftHasFew ← presentAndFew left
  let rightHasFew ← presentAndFew right
  let leftRich ← presentAndRich left
  let rightRich ← presentAndRich right
  -- if both neighbours would underflow in case of a shift, then merging is
  -- necessary; choose the more local merger with our parent
  if leftFew && rightFew then
    if leftparent = parent then mergeLeft else mergeRight
  -- the right node has extra data, so balance right with current
  else if leftHasFew && rightRich then
    if rightparent = parent then shiftLeft else mergeLeft
  -- the left node has extra data, so balance left with current
  else if leftRich && rightHasFew then
    if leftparent = parent then shiftRight else mergeRight
  -- both have extra data and our parent, choose the one with more data
  else if leftparent = rightparent then do
    let left ← nonNull left
    let right ← nonNull right
    let leftUse ← slotuse left
    let rightUse ← slotuse right
    if leftUse ≤ rightUse then shiftLeft else shiftRight
  else if leftparent = parent then shiftRight
  else shiftLeft

end PersistentBTree.Memory
