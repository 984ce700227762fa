import PersistentBTree.Tables.Iterator

/-! Looking up keys in a table. The five descents turn a slot into the next node in
different ways. The turns that a descent takes are recorded; the program does not read
that list. -/

set_option autoImplicit false

namespace PersistentBTree.Tables

open Imperative

variable {K D S : Type}

def findUpper (records : Records K D S) (n : PageId) (key : K) : M S Nat := do
  let used ← slotuse n
  if used = 0 then pure 0 else searchLoop records (records.keyLess key) n used 0 used

/-- A step from an inner node to the next node. -/
structure Turn where
  inner : PageId
  slot : Nat
  next : PageId
  deriving DecidableEq

section Lookups

variable (records : Records K D S)

/-- `get_node(child(inner, slot))`. The node of the child is converted to `bool` and then
to a page id. -/
def turnByNode (inner : PageId) (slot : Nat) : M S PageId := do
  let child ← getChild records inner slot
  let _ ← getNode child
  let next : PageId := if MemoryNode.toBool (some child) then 1 else 0
  let _ ← getNode next
  pure next

/-- `get_node(inner->data.childid[slot])` and `get_node(inner.child(slot))`. -/
def turnById (inner : PageId) (slot : Nat) : M S PageId := do
  let child ← getChild records inner slot
  let _ ← getNode child
  pure child

/-- The loop of a lookup, down to a leaf. -/
def descend (search : PageId → M S Nat) (turn : PageId → Nat → M S PageId) :
    (fuel : Nat) → PageId → M S (PageId × List Turn)
  | 0, _ => throw .outOfFuel
  | fuel + 1, n => do
      if ← isLeaf n then pure (n, [])
      else
        let slot ← search n
        let next ← turn n slot
        let (leaf, turns) ← descend search turn fuel next
        pure (leaf, ⟨n, slot, next⟩ :: turns)

/-- The beginning of a lookup: the root, from which it descends to a leaf, and the slot
in the leaf. -/
def lookUp (search : PageId → M S Nat) (turn : PageId → Nat → M S PageId) (fuel : Nat) :
    M S (PageId × Nat × List Turn) := do
  let table ← get
  let _ ← getNode table.mRootId
  let (leaf, turns) ← descend search turn fuel table.mRootId
  let slot ← search leaf
  pure (leaf, slot, turns)

/-- `slot < leaf->slotuse && key_equal(key, leaf.key(slot))`. -/
def hasKeyAt (leaf : PageId) (slot : Nat) (key : K) : M S Bool := do
  let used ← slotuse leaf
  if slot < used then
    let stored ← getKey records leaf slot
    pure (records.keyEqual key stored)
  else pure false

/-- The loop of `count`. Behind the last slot of a leaf it gets the next leaf. -/
def countLoop (key : K) : (fuel : Nat) → (leaf : PageId) → (slot num : Nat) → M S Nat
  | 0, _, _, _ => throw .outOfFuel
  | fuel + 1, leaf, slot, num => do
      if ← hasKeyAt records leaf slot key then
        let node ← getNode leaf
        if node.slotuse ≤ slot + 1 then
          let _ ← getNode node.nextleaf
          countLoop key fuel node.nextleaf 0 (num + 1)
        else countLoop key fuel leaf (slot + 1) (num + 1)
      else pure num

variable (fuel : Nat) (key : K)

/-- `exists`. -/
def existsKey : M S (Bool × List Turn) := do
  let (leaf, slot, turns) ← lookUp (findLower records · key) (turnByNode records) fuel
  let present ← hasKeyAt records leaf slot key
  pure (present, turns)

def find : M S (Iterator × List Turn) := do
  let (leaf, slot, turns) ← lookUp (findLower records · key) (turnById records) fuel
  if ← hasKeyAt records leaf slot key then pure (⟨leaf, slot⟩, turns)
  else
    let last ← endIter
    pure (last, turns)

/-- `count`. -/
def countKey : M S (Nat × List Turn) := do
  let (leaf, slot, turns) ← lookUp (findLower records · key) (turnByNode records) fuel
  let num ← countLoop records key fuel leaf slot 0
  pure (num, turns)

def lowerBound : M S (Iterator × List Turn) := do
  let (leaf, slot, turns) ← lookUp (findLower records · key) (turnById records) fuel
  pure (⟨leaf, slot⟩, turns)

def upperBound : M S (Iterator × List Turn) := do
  let (leaf, slot, turns) ← lookUp (findUpper records · key) (turnByNode records) fuel
  pure (⟨leaf, slot⟩, turns)

/-- What the lookups of one key return, and all turns that they take. -/
structure Outcome where
  present : Bool
  found : Iterator
  last : Iterator
  count : Nat
  lower : Iterator
  upper : Iterator
  turns : List Turn

/-- The lookups of one key, one after the other. -/
def lookUpAll : M S Outcome := do
  let (present, existsTurns) ← existsKey records fuel key
  let (found, findTurns) ← find records fuel key
  let last ← endIter
  let (count, countTurns) ← countKey records fuel key
  let (lower, lowerTurns) ← lowerBound records fuel key
  let (upper, upperTurns) ← upperBound records fuel key
  pure ⟨present, found, last, count, lower, upper,
    existsTurns ++ findTurns ++ countTurns ++ lowerTurns ++ upperTurns⟩

end Lookups

end PersistentBTree.Tables
