import PersistentBTree.Memory.Rebalance

/-! Erasure from the in-memory `btree`: `erase_one_descend`,
`erase_iter_descend`, the public `erase` functions and `clear`. The two
descents differ in how they look for the pair; what they do once it is found
is the same text in both and one definition here. -/

set_option autoImplicit false

namespace PersistentBTree.Memory

open Imperative

variable {K D : Type} [Inhabited K]

/-- `parent && parentslot < parent->slotuse`. -/
def parentHasSlot (parent : Option Ptr) (parentslot : Nat) : M K D Bool :=
  match parent with
  | none => pure false
  | some parent => do
      let node ← getInner parent
      pure (decide (parentslot < node.slotuse))

/-- `parent->slotkey[parentslot] = key`, after the assertion that `curr` is the
child in that slot. -/
def setParentKey (parent : Option Ptr) (parentslot : Nat) (curr : Ptr) (key : K) :
    M K D Unit := do
  assertParentSlot parent parentslot curr
  let parent ← nonNull parent
  let node ← getInner parent
  let slotkey ← writeSlot node.slotkey parentslot key
  setInner parent { node with slotkey }

/-- The assertion `ptr == m_root`. -/
def assertRoot (ptr : Ptr) : M K D Unit :=
  btreeAssert .root do
    let tree ← get
    pure (some ptr == tree.mRoot)

/-- `isunderflow(ptr) && !(ptr == m_root && ptr->slotuse >= 1)`. -/
def needsFix (ptr : Ptr) : M K D Bool := do
  let tree ← get
  let under ← isUnderflow ptr
  let used ← slotuse ptr
  pure (under && !(decide (tree.mRoot = some ptr) && decide (1 ≤ used)))

/-- The last key of the leaf was changed: the parent is notified and updates
the key of this leaf. -/
def lastKeyChanged (leaf : Ptr) (node : LeafNode K D) (parent : Option Ptr) (parentslot : Nat) :
    M K D (Result K) := do
  if ← parentHasSlot parent parentslot then
    let last ← readSlot node.slotkey (usub node.slotuse 1)
    setParentKey parent parentslot leaf last
    pure .ok
  else if 1 ≤ node.slotuse then
    let last ← readSlot node.slotkey (usub node.slotuse 1)
    pure (.update last)
  else
    assertRoot leaf
    pure .ok

/-- Remove the pair in `slot` from the leaf. -/
def removePair (leaf : Ptr) (slot : Nat) (parent : Option Ptr) (parentslot : Nat) :
    M K D (Result K) := do
  let node ← getLeaf leaf
  let slotkey ← copySlots node.slotkey (slot + 1) node.slotuse node.slotkey slot
  let slotdata ← copySlots node.slotdata (slot + 1) node.slotuse node.slotdata slot
  let node := { node with slotuse := usub node.slotuse 1, slotkey, slotdata }
  setLeaf leaf node
  if slot = node.slotuse then lastKeyChanged leaf node parent parentslot
  else pure .ok

/-- The last pair of the tree was erased: delete the root. -/
def dropRoot (leaf : Ptr) : M K D (Result K) := do
  assertRoot leaf
  btreeAssert .emptied do
    let used ← slotuse leaf
    pure (used == 0)
  let tree ← get
  let root ← nonNull tree.mRoot
  freeNode root
  modify fun tree => { tree with mRoot := none, mHeadleaf := none, mTailleaf := none }
  btreeAssert .stats do
    let tree ← get
    pure (tree.mStats.itemcount == 1)
  btreeAssert .stats do
    let tree ← get
    pure (tree.mStats.leaves == 0)
  btreeAssert .stats do
    let tree ← get
    pure (tree.mStats.innernodes == 0)
  pure .ok

/-- The end of both branches: when the node underflows, the root is replaced
by `replaceRoot` and any other node mended by `fix`. -/
def fixNode (ptr : Ptr) (myres : Result K) (left right : Option Ptr)
    (replaceRoot fix : M K D (Result K)) : M K D (Result K) := do
  if ← needsFix ptr then
    if left = none ∧ right = none then replaceRoot
    else do
      let fixed ← fix
      pure (myres.or fixed)
  else pure myres

/-- What both descents do in the leaf once the pair is found in `slot`. -/
def eraseInLeaf (leaf : Ptr) (slot : Nat)
    (left right leftparent rightparent parent : Option Ptr) (parentslot : Nat) :
    M K D (Result K) := do
  let myres ← removePair leaf slot parent parentslot
  fixNode leaf myres left right (dropRoot leaf)
    (fixUnderflow left right leftparent rightparent parent
      (mergeLeaves left (some leaf) leftparent)
      (mergeLeaves (some leaf) right rightparent)
      (shiftLeftLeaf (some leaf) right rightparent parentslot)
      (shiftRightLeaf left (some leaf) leftparent (usub parentslot 1)))

/-- `btree_update_lastkey` from a child: update the separator in the parent or
pass the flag on. -/
def passLastkey (inner : Ptr) (result : Result K) (parent : Option Ptr) (parentslot : Nat) :
    M K D (Result K) :=
  if result.updateLastkey then do
    if ← parentHasSlot parent parentslot then
      setParentKey parent parentslot inner result.lastkey
      pure .ok
    else pure (.update result.lastkey)
  else pure .ok

/-- The end of the `btree_fixmerge` handling: take the child in `slot`, which a
merge emptied, out of the node. -/
def removeChild (inner : Ptr) (slot : Nat) : M K D Unit := do
  let node ← getInner inner
  let emptied ← readSlot node.childid slot
  btreeAssert .emptied do
    let used ← slotuse emptied
    pure (used == 0)
  freeNode emptied
  let slotkey ← copySlots node.slotkey slot node.slotuse node.slotkey (usub slot 1)
  let childid ← copySlots node.childid (slot + 1) (node.slotuse + 1) node.childid slot
  let used := usub node.slotuse 1
  if node.level = 1 then
    -- fix split key for children leaves
    let child ← readSlot childid (usub slot 1)
    let leaf ← getLeaf child
    let last ← readSlot leaf.slotkey (usub leaf.slotuse 1)
    let slotkey ← writeSlot slotkey (usub slot 1) last
    setInner inner { node with slotuse := used, slotkey, childid }
  else setInner inner { node with slotuse := used, slotkey, childid }

/-- `btree_fixmerge` from the child in `slot`: either it or the next one is
empty and is removed. -/
def fixMerge (inner : Ptr) (slot : Nat) (result : Result K) : M K D Unit :=
  if result.fixmerge then do
    let node ← getInner inner
    let child ← readSlot node.childid slot
    let used ← slotuse child
    if used ≠ 0 then removeChild inner (slot + 1) else removeChild inner slot
  else pure ()

/-- The root is an inner node with a single child, which becomes the new
root. -/
def trimRoot (inner : Ptr) : M K D (Result K) := do
  assertRoot inner
  btreeAssert .emptied do
    let used ← slotuse inner
    pure (used == 0)
  let node ← getInner inner
  let child ← readSlot node.childid 0
  modify fun tree => { tree with mRoot := some child }
  setInner inner { node with slotuse := 0 }
  freeNode inner
  pure .ok

/-- What both descents do in an inner node once the pair was erased below the
child in `slot`. -/
def eraseInInner (inner : Ptr) (slot : Nat) (result : Result K)
    (left right leftparent rightparent parent : Option Ptr) (parentslot : Nat) :
    M K D (Result K) := do
  let myres ← passLastkey inner result parent parentslot
  fixMerge inner slot result
  fixNode inner myres left right (trimRoot inner)
    (fixUnderflow left right leftparent rightparent parent
      (mergeInner left (some inner) leftparent (usub parentslot 1))
      (mergeInner (some inner) right rightparent parentslot)
      (shiftLeftInner (some inner) right rightparent parentslot)
      (shiftRightInner left (some inner) leftparent (usub parentslot 1)))

/-- `myleft` and `myleftparent`. The node left of the first child is taken
from the left neighbour of `inner`, at its slot `slotuse - 1`. -/
def leftOf (inner : Ptr) (slot : Nat) (left leftparent : Option Ptr) :
    M K D (Option Ptr × Option Ptr) :=
  if slot = 0 then
    match left with
    | none => pure (none, leftparent)
    | some left => do
        let node ← getInner left
        let child ← readSlot node.childid (usub node.slotuse 1)
        pure (some child, leftparent)
  else do
    let node ← getInner inner
    let child ← readSlot node.childid (slot - 1)
    pure (some child, some inner)

/-- `myright` and `myrightparent`. -/
def rightOf (inner : Ptr) (slot : Nat) (right rightparent : Option Ptr) :
    M K D (Option Ptr × Option Ptr) := do
  let node ← getInner inner
  if slot = node.slotuse then
    match right with
    | none => pure (none, rightparent)
    | some right => do
        let node ← getInner right
        let child ← readSlot node.childid 0
        pure (some child, rightparent)
  else do
    let child ← readSlot node.childid (slot + 1)
    pure (some child, some inner)

/-- The recursive call of both descents for the child in `slot`. -/
def descendTo (inner : Ptr) (node : InnerNode K) (slot : Nat)
    (left right leftparent rightparent : Option Ptr)
    (descend : Ptr → (left right leftparent rightparent parent : Option Ptr) →
      (parentslot : Nat) → M K D (Result K)) : M K D (Result K) := do
  let (myleft, myleftparent) ← leftOf inner slot left leftparent
  let (myright, myrightparent) ← rightOf inner slot right rightparent
  let child ← readSlot node.childid slot
  descend child myleft myright myleftparent myrightparent (some inner) slot

section Descent

variable [LinearOrder K]

/-- `erase_one_descend`. The fuel bounds the height of the tree below `curr`. -/
def eraseOneDescend : Nat → K → Ptr → (left right leftparent rightparent parent : Option Ptr) →
    (parentslot : Nat) → M K D (Result K)
  | 0, _, _, _, _, _, _, _, _ => throw .outOfFuel
  | fuel + 1, key, curr, left, right, leftparent, rightparent, parent, parentslot => do
      match ← getNode curr with
      | .leaf node =>
          let slot ← findLower node.slotkey node.slotuse key
          if node.slotuse ≤ slot then pure .missing
          else do
            let found ← readSlot node.slotkey slot
            if keyEqual key found then
              eraseInLeaf curr slot left right leftparent rightparent parent parentslot
            else pure .missing
      | .inner node =>
          let slot ← findLower node.slotkey node.slotuse key
          let result ← descendTo curr node slot left right leftparent rightparent
            (eraseOneDescend fuel key)
          if result.notFound then pure result
          else eraseInInner curr slot result left right leftparent rightparent parent parentslot

/-- The loop of `erase_iter_descend` over the children from `slot` on; `descend`
is the recursive call and `remaining` the number of slots left. Returns the slot
below which the pair was erased. -/
def searchChildren (iter : Iterator) (inner : Ptr) (descend : Nat → M K D (Result K)) :
    (remaining slot : Nat) → M K D (Option (Nat × Result K))
  | 0, _ => pure none
  | remaining + 1, slot => do
      let result ← descend slot
      if result.notFound then do
        let node ← getInner inner
        if slot < node.slotuse then do
          let separator ← readSlot node.slotkey slot
          let key ← iter.key
          if keyLess separator key then pure none
          else do
            let slot ← addInt slot 1
            searchChildren iter inner descend remaining slot
        else do
          let slot ← addInt slot 1
          searchChildren iter inner descend remaining slot
      else pure (some (slot, result))

/-- `erase_iter_descend`. The fuel bounds the height of the tree below `curr`. -/
def eraseIterDescend : Nat → Iterator → Ptr →
    (left right leftparent rightparent parent : Option Ptr) → (parentslot : Nat) →
    M K D (Result K)
  | 0, _, _, _, _, _, _, _, _ => throw .outOfFuel
  | fuel + 1, iter, curr, left, right, leftparent, rightparent, parent, parentslot => do
      match ← getNode curr with
      | .leaf node =>
          if some curr ≠ iter.currnode then pure .missing
          else if node.slotuse ≤ iter.currslot then pure .missing
          else do
            let slot ← intSlot iter.currslot
            eraseInLeaf curr slot left right leftparent rightparent parent parentslot
      | .inner node =>
          let key ← iter.key
          let first ← findLower node.slotkey node.slotuse key
          let found ← searchChildren iter curr (fun slot =>
            descendTo curr node slot left right leftparent rightparent
              (eraseIterDescend fuel iter)) (node.slotuse + 1 - first) first
          match found with
          | none => pure .missing
          | some (slot, result) =>
              eraseInInner curr slot result left right leftparent rightparent parent parentslot

/-- The end of the public functions: count the erased pair. -/
def countErased (result : Result K) : M K D Bool := do
  modify fun tree => if result.notFound then tree else
    { tree with mStats.itemcount := tree.mStats.itemcount - 1 }
  pure (!result.notFound)

/-- `erase_one`, for a key that is not a slot of the tree. -/
def eraseOne (key : K) : M K D Bool := do
  let tree ← get
  match tree.mRoot with
  | none => pure false
  | some root => do
      let height ← level root
      let result ← eraseOneDescend (height + 1) key root none none none none none 0
      countErased result

/-- The loop of `erase(key)`. The source reads `key` in every round, so it must not be a
slot of the tree, which the rounds change. -/
def eraseLoop (key : K) : Nat → Nat → M K D Nat
  | 0, _ => throw .outOfFuel
  | fuel + 1, count => do
      if ← eraseOne key then eraseLoop key fuel (count + 1) else pure count

/-- `erase(key)`. Every round but the last removes a pair. -/
def eraseKey (key : K) : M K D Nat := do
  let tree ← get
  eraseLoop key (tree.mStats.itemcount + 1) 0

/-- `erase(iterator)`. -/
def eraseIter (iter : Iterator) : M K D Unit := do
  let tree ← get
  match tree.mRoot with
  | none => pure ()
  | some root => do
      let height ← level root
      let result ← eraseIterDescend (height + 1) iter root none none none none none 0
      let _ ← countErased result
      pure ()

end Descent

/-! ## Clearing -/

/-- The loop of `clear_recursive` over the children; the loop variable is an
`unsigned short`. -/
def clearChildren (inner : Ptr) (clear : Ptr → M K D Unit) : (fuel slot : Nat) → M K D Unit
  | 0, slot => do
      let node ← getInner inner
      if slot < node.slotuse + 1 then throw .outOfFuel else pure ()
  | fuel + 1, slot => do
      let node ← getInner inner
      if slot < node.slotuse + 1 then do
        let child ← readSlot node.childid slot
        clear child
        freeNode child
        clearChildren inner clear fuel ((slot + 1) % 2 ^ 16)
      else pure ()

/-- `clear_recursive`. -/
def clearRecursive : Nat → Ptr → M K D Unit
  | 0, _ => throw .outOfFuel
  | fuel + 1, n => do
      match ← getNode n with
      | .leaf _ => pure ()
      | .inner node => clearChildren n (clearRecursive fuel) (node.slotuse + 1) 0

/-- `clear`. -/
def clear : M K D Unit := do
  let tree ← get
  match tree.mRoot with
  | none => pure ()
  | some root => do
      let height ← level root
      clearRecursive (height + 1) root
      freeNode root
      modify fun tree =>
        { tree with mRoot := none, mHeadleaf := none, mTailleaf := none, mStats := {} }

end PersistentBTree.Memory
