import PersistentBTree.Tables.Insert

/-! Handles and iterators of a table: `operator bool` and the comparisons that use
it, `Begin`, `End`, `++` and `--`. -/

set_option autoImplicit false

namespace PersistentBTree.Tables

open Imperative
open Memory (usub)

variable {S : Type}

/-- A `MemoryNode`: the page that it maps, or null. -/
abbrev MemoryNode := Option PageId

namespace MemoryNode

/-- `operator bool`. -/
def toBool (handle : MemoryNode) : Bool := handle.isSome

/-- `==` and `!=`. No operator compares handles, so that both are converted to
`bool`. -/
def equal (a b : MemoryNode) : Bool := a.toBool == b.toBool

def notEqual (a b : MemoryNode) : Bool := a.toBool != b.toBool

end MemoryNode

namespace Iterator

def handle (iter : Iterator)  : MemoryNode := some iter.currnode

/-- `operator==`. -/
def equal (iter x : Iterator) : Bool :=
  x.handle.equal iter.handle && x.currslot == iter.currslot

/-- `operator!=`. -/
def notEqual (iter x : Iterator) : Bool :=
  x.handle.notEqual iter.handle || x.currslot != iter.currslot

/-- `operator++`. -/
def increment (iter : Iterator) : M S Iterator := do
  let node ← getNode iter.currnode
  if iter.currslot + 1 < node.slotuse then pure { iter with currslot := iter.currslot + 1 }
  else if node.nextleaf ≠ -1 then
    let _ ← getNode node.nextleaf
    pure ⟨node.nextleaf, 0⟩
  else
    -- this is end()
    pure { iter with currslot := node.slotuse }

/-- `operator--`. -/
def decrement (iter : Iterator) : M S Iterator := do
  let node ← getNode iter.currnode
  if 0 < iter.currslot then pure { iter with currslot := iter.currslot - 1 }
  else if node.prevleaf ≠ -1 then
    let before ← getNode node.prevleaf
    pure ⟨node.prevleaf, usub before.slotuse 1⟩
  else
    -- this is begin()
    pure { iter with currslot := 0 }

end Iterator

/-- `iter.data()`. -/
def Iterator.data {K D : Type} (records : Records K D S) (iter : Iterator) : M S D :=
  getData records iter.currnode iter.currslot

/-- `Begin`. -/
def beginIter : M S Iterator := do
  let table ← get
  let _ ← getNode table.mHeadleafId
  pure ⟨table.mHeadleafId, 0⟩

/-- `End`. -/
def endIter : M S Iterator := do
  let table ← get
  let _ ← getNode table.mTailleafId
  let used ← if table.mTailleafId ≠ -1 then slotuse table.mTailleafId else pure 0
  pure ⟨table.mTailleafId, used⟩

/-- `for (; iter != End(); ++iter)`, with the iterators that it passes. -/
def iterate : (fuel : Nat) → Iterator → M S (List Iterator)
  | 0, _ => throw .outOfFuel
  | fuel + 1, iter => do
      let last ← endIter
      if iter.notEqual last then
        let next ← iter.increment
        let visited ← iterate fuel next
        pure (iter :: visited)
      else pure []

/-- The loop from `Begin` on. -/
def visit (fuel : Nat) : M S (List Iterator) := do
  let first ← beginIter
  iterate fuel first

end PersistentBTree.Tables
