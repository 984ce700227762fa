import PersistentBTree.Memory.Node

/-! Looking up keys in the in-memory `btree` and moving iterators over its pairs.
Nothing here changes the tree. -/

set_option autoImplicit false

namespace PersistentBTree.Memory

open Imperative

variable {K D : Type}

/-! ## Iterators -/

/-- `Begin`. -/
def beginIter : M K D Iterator := do
  let tree ← get
  pure ⟨tree.mHeadleaf, 0⟩

/-- `End`. -/
def endIter : M K D Iterator := do
  let tree ← get
  match tree.mTailleaf with
  | none => pure ⟨none, 0⟩
  | some tail => do
      let node ← getLeaf tail
      pure ⟨some tail, node.slotuse⟩

/-- `iterator::operator*`. -/
def Iterator.deref (iter : Iterator) : M K D (K × D) := do
  let key ← iter.key
  let data ← iter.data
  pure (key, data)

/-- `iterator::operator++`. -/
def Iterator.next (iter : Iterator) : M K D Iterator := do
  let ptr ← nonNull iter.currnode
  let node ← getLeaf ptr
  if iter.currslot + 1 < node.slotuse then pure ⟨some ptr, iter.currslot + 1⟩
  else
    match node.nextleaf with
    | some nextleaf => pure ⟨some nextleaf, 0⟩
    -- this is end()
    | none => pure ⟨some ptr, node.slotuse⟩

/-- `iterator::operator--`. -/
def Iterator.prev (iter : Iterator) : M K D Iterator := do
  let ptr ← nonNull iter.currnode
  if 0 < iter.currslot then pure ⟨some ptr, iter.currslot - 1⟩
  else do
    let node ← getLeaf ptr
    match node.prevleaf with
    | some prevleaf => do
        let before ← getLeaf prevleaf
        pure ⟨some prevleaf, usub before.slotuse 1⟩
    -- this is begin()
    | none => pure ⟨some ptr, 0⟩

/-- `++`, so many times. -/
def advance : Nat → Iterator → M K D Iterator
  | 0, iter => pure iter
  | steps + 1, iter => do
      let after ← iter.next
      advance steps after

/-- `--`, so many times. -/
def retreat : Nat → Iterator → M K D Iterator
  | 0, iter => pure iter
  | steps + 1, iter => do
      let before ← iter.prev
      retreat steps before

/-! ## Lookups -/

/-- The loop of all lookups, down to a leaf; `search` finds the slot in an inner
node. The fuel bounds the height of the tree below `n`. -/
def descend (search : Buffer K → Nat → M K D Nat) : Nat → Ptr → M K D Ptr
  | 0, _ => throw .outOfFuel
  | fuel + 1, n => do
      match ← getNode n with
      | .leaf _ => pure n
      | .inner node =>
          let slot ← search node.slotkey node.slotuse
          let child ← readSlot node.childid slot
          descend search fuel child

/-- The leaf, and the slot that `search` finds in it. -/
def lookUp (search : Buffer K → Nat → M K D Nat) (root : Ptr) : M K D (Ptr × Nat) := do
  let height ← level root
  let leaf ← descend search (height + 1) root
  let node ← getLeaf leaf
  let slot ← search node.slotkey node.slotuse
  pure (leaf, slot)

section Keys

variable [LinearOrder K]

/-- `slot < leaf->slotuse && key_equal(key, leaf->slotkey[slot])`. -/
def hasKeyAt (leaf : Ptr) (slot : Nat) (key : K) : M K D Bool := do
  let node ← getLeaf leaf
  if slot < node.slotuse then do
    let found ← readSlot node.slotkey slot
    pure (keyEqual key found)
  else pure false

/-- `exists`. -/
def existsKey (key : K) : M K D Bool := do
  let tree ← get
  match tree.mRoot with
  | none => pure false
  | some root => do
      let (leaf, slot) ← lookUp (findLower · · key) root
      hasKeyAt leaf slot key

/-- `find`. -/
def find (key : K) : M K D Iterator := do
  let tree ← get
  match tree.mRoot with
  | none => endIter
  | some root => do
      let (leaf, slot) ← lookUp (findLower · · key) root
      if ← hasKeyAt leaf slot key then pure ⟨some leaf, slot⟩ else endIter

/-- The loop of `count`. -/
def countLoop (key : K) : Nat → Option Ptr → Nat → Nat → M K D Nat
  | 0, _, _, _ => throw .outOfFuel
  | _ + 1, none, _, num => pure num
  | fuel + 1, some leaf, slot, num => do
      if ← hasKeyAt leaf slot key then do
        let slot ← addInt slot 1
        let node ← getLeaf leaf
        if node.slotuse ≤ slot then countLoop key fuel node.nextleaf 0 (num + 1)
        else countLoop key fuel (some leaf) slot (num + 1)
      else pure num

/-- `count`. Every round of the loop but the last counts a pair. -/
def countKey (key : K) : M K D Nat := do
  let tree ← get
  match tree.mRoot with
  | none => pure 0
  | some root => do
      let (leaf, slot) ← lookUp (findLower · · key) root
      countLoop key (tree.mStats.itemcount + 1) (some leaf) slot 0

/-- `lower_bound`. -/
def lowerBound (key : K) : M K D Iterator := do
  let tree ← get
  match tree.mRoot with
  | none => endIter
  | some root => do
      let (leaf, slot) ← lookUp (findLower · · key) root
      pure ⟨some leaf, slot⟩

/-- `upper_bound`. -/
def upperBound (key : K) : M K D Iterator := do
  let tree ← get
  match tree.mRoot with
  | none => endIter
  | some root => do
      let (leaf, slot) ← lookUp (findUpper · · key) root
      pure ⟨some leaf, slot⟩

end Keys

end PersistentBTree.Memory
