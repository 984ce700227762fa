import PersistentBTree.Memory.Rebalance
import PersistentBTree.Tables.Insert

/-! The merge and shift helpers of a table. Slots are computed with as integers: the
`unsigned int` and `int` values of the source are converted into each other. The
assertions are not compiled in. -/

set_option autoImplicit false

namespace PersistentBTree.Tables

open Imperative

variable {K D S : Type}

/-- `result_t`; the last key is a pointer, which is null if there is none. -/
abbrev Result (K : Type) := Memory.Result (Option (KeyType K))

section Helpers

variable (records : Records K D S)

/-- `merge_leaves`. The test for a next leaf is one for 0, and not for -1. -/
def mergeLeaves (left right _parent : PageId) : M S (Result K) := do
  let leftUse ← slotuse left
  let rightUse ← slotuse right
  copyLeafKeys records right left 0 rightUse leftUse
  copyLeafData records right left 0 rightUse leftUse
  setSlotuse left (leftUse + rightUse)
  let rightNode ← getNode right
  setNextleaf left rightNode.nextleaf
  let id ← pageId left
  if rightNode.nextleaf ≠ 0 then setPrevleaf rightNode.nextleaf id
  else modify fun table => table.setTail id
  setSlotuse right 0
  pure .merged

/-- `merge_inner`. -/
def mergeInner (left right parent : PageId) (parentslot : Nat) : M S (Result K) := do
  let leftUse ← slotuse left
  -- retrieve the decision key from parent
  let decision ← getKey records parent parentslot
  setKey records left leftUse decision
  setSlotuse left (leftUse + 1)
  -- copy over keys and children from right
  let rightUse ← slotuse right
  copyInnerKeys records right left 0 rightUse (leftUse + 1)
  copyInnerChilds records right left 0 (rightUse + 1) (leftUse + 1)
  setSlotuse left (leftUse + 1 + rightUse)
  setSlotuse right 0
  pure .merged

/-- `shift_left_leaf`. -/
def shiftLeftLeaf (left right parent : PageId) (parentslot : Nat) : M S (Result K) := do
  let leftUse ← slotuse left
  let rightUse ← slotuse right
  let shiftnum : Int := (rightUse - leftUse) / 2
  -- copy the first items from the right node to the last slot in the left node
  copyLeafKeys records right left 0 shiftnum leftUse
  copyLeafData records right left 0 shiftnum leftUse
  setSlotuse left (leftUse + shiftnum).toNat
  -- shift all slots in the right node to the left
  copyLeafKeys records right right shiftnum rightUse 0
  copyLeafData records right right shiftnum rightUse 0
  setSlotuse right (rightUse - shiftnum).toNat
  -- fixup parent
  let parentUse ← slotuse parent
  if parentslot < parentUse then
    let last ← getKey records left (leftUse + shiftnum - 1)
    setKey records parent parentslot last
    pure .ok
  else
    -- the update is further up the tree
    pure (.update (some (.stored left (leftUse + shiftnum - 1))))

/-- `shift_left_inner`. -/
def shiftLeftInner (left right parent : PageId) (parentslot : Nat) : M S Unit := do
  let leftUse ← slotuse left
  let rightUse ← slotuse right
  let shiftnum : Int := (rightUse - leftUse) / 2
  -- copy the parent's decision slotkey and childid to the first new key on the left
  let decision ← getKey records parent parentslot
  setKey records left leftUse decision
  setSlotuse left (leftUse + 1)
  -- copy the other items from the right node to the last slots in the left node
  copyInnerKeys records right left 0 (shiftnum - 1) (leftUse + 1)
  copyInnerChilds records right left 0 shiftnum (leftUse + 1)
  setSlotuse left (leftUse + 1 + (shiftnum - 1)).toNat
  -- fixup parent
  let risen ← getKey records right (shiftnum - 1)
  setKey records parent parentslot risen
  -- shift all slots in the right node
  copyInnerKeys records right right shiftnum rightUse 0
  copyInnerChilds records right right shiftnum (rightUse + 1) 0
  setSlotuse right (rightUse - shiftnum).toNat

/-- `shift_right_leaf`. The last items of the left node are copied to the left node. -/
def shiftRightLeaf (left right parent : PageId) (parentslot : Nat) : M S Unit := do
  let leftUse ← slotuse left
  let rightUse ← slotuse right
  let shiftnum : Int := (leftUse - rightUse) / 2
  -- shift all slots in the right node
  copyBackwardsLeafKeys records right right 0 rightUse (rightUse + shiftnum)
  copyBackwardsLeafData records right right 0 rightUse (rightUse + shiftnum)
  setSlotuse right (rightUse + shiftnum).toNat
  copyLeafKeys records left left (leftUse - shiftnum) leftUse 0
  copyLeafData records left left (leftUse - shiftnum) leftUse 0
  setSlotuse left (leftUse - shiftnum).toNat
  let last ← getKey records left (leftUse - shiftnum - 1)
  setKey records parent parentslot last

/-- `shift_right_inner`. The remaining last items of the left node are copied to the
left node. -/
def shiftRightInner (left right parent : PageId) (parentslot : Nat) : M S Unit := do
  let leftUse ← slotuse left
  let rightUse ← slotuse right
  let shiftnum : Int := (leftUse - rightUse) / 2
  -- shift all slots in the right node
  copyBackwardsInnerKeys records right right 0 rightUse (rightUse + shiftnum)
  copyBackwardsInnerChilds records right right 0 (rightUse + 1) (rightUse + 1 + shiftnum)
  setSlotuse right (rightUse + shiftnum).toNat
  -- copy the parent's decision slotkey and childid to the last new key on the right
  let decision ← getKey records parent parentslot
  setKey records right (shiftnum - 1) decision
  copyInnerKeys records left left (leftUse - shiftnum + 1) leftUse 0
  copyInnerChilds records left left (leftUse - shiftnum + 1) (leftUse + 1) 0
  -- copy the first to-be-removed key from the left node to the parent's decision slot
  let risen ← getKey records left (leftUse - shiftnum)
  setKey records parent parentslot risen
  setSlotuse left (leftUse - shiftnum).toNat

end Helpers

end PersistentBTree.Tables
