import PersistentBTree.Imperative.Runs
import PersistentBTree.Pages.Store

/-! Nodes of a table. A node is a page, and a handle to it is the id of the page.
How keys are compared and where the slots of a page lie is left open: the code of
the tree is written over `Records`. -/

set_option autoImplicit false

namespace PersistentBTree.Tables

open Imperative Pages

/-- A page id; -1 stands for no page. -/
abbrev PageId := Int

/-- The comparisons of keys, and the slots of a page with the content `S`. The
flag `leaf` says of what kind the page is. -/
structure Records (K D S : Type) where
  keyLessEqual : K → K → Bool
  keyLess : K → K → Bool
  getKey : (leaf : Bool) → S → (slot : Int) → Option K
  getData : S → (slot : Int) → Option D
  getChild : S → (slot : Int) → Option PageId
  setKey : (leaf : Bool) → S → (slot : Int) → K → Option S
  setData : S → (slot : Int) → D → Option S
  setChild : S → (slot : Int) → PageId → Option S

def Records.keyEqual {K D S : Type} (records : Records K D S) (a b : K) : Bool :=
  !records.keyLess a b && !records.keyLess b a

/-- The fields of a `MemoryPage` that belong to the tree. The addresses `slotkey` and `data` are
left out: `get_node` writes them anew each time it maps the page. -/
structure Node (S : Type) where
  level : Nat
  nSlots : Nat
  slotuse : Nat
  prevleaf : PageId
  nextleaf : PageId
  slots : S

namespace Node

variable {S : Type}

def isLeafNode (node : Node S) : Bool := node.level == 0

/-- All bytes of a page of a file that has just grown are zero. -/
def zero (zeroes : S) : Node S := ⟨0, 0, 0, 0, 0, zeroes⟩

end Node

/-- `tree_stats`. -/
structure TreeStats where
  itemcount : Nat := 0
  leaves : Nat := 0
  innernodes : Nat := 0
  deriving DecidableEq

/-- A `PersistentBTree` that is open; `nSlots` is the field of the header. -/
structure Table (S : Type) where
  store : Store (Node S)
  nSlots : Nat
  nodeslotmax : Nat
  minnodeslots : Nat
  mRootId : PageId
  mHeadleafId : PageId
  mTailleafId : PageId
  mStats : TreeStats

/-- Why the program stops: a null handle was copied or followed, or memory outside
a page was accessed. -/
inductive Fault where
  | nullHandle
  | outOfPage
  | outOfFuel
  deriving DecidableEq

abbrev M (S : Type) := Program (Table S) Fault

variable {K D S : Type}

/-! ## Nodes -/

def Table.setNode (table : Table S) (id : PageId) (node : Node S) : Table S :=
  { table with store := table.store.setPage id fun page => { page with content := node } }

def Table.setTail (table : Table S) (mTailleafId : PageId) : Table S := { table with mTailleafId }

/-- `get_node`. A page that is not in use has a null handle, which is copied. -/
def getNode (id : PageId) : M S (Node S) := do
  let table ← get
  if table.store.Allocated id then pure (table.store.file id).content else throw .nullHandle

def setNode (id : PageId) (node : Node S) : M S Unit :=
  modify fun table => table.setNode id node

/-- `n->id`. -/
def pageId (id : PageId) : M S PageId := do
  let table ← get
  pure (table.store.file id).id

def isLeaf (n : PageId) : M S Bool := do
  let node ← getNode n
  pure node.isLeafNode

def slotuse (n : PageId) : M S Nat := do
  let node ← getNode n
  pure node.slotuse

def setSlotuse (n : PageId) (slotuse : Nat) : M S Unit := do
  let node ← getNode n
  setNode n { node with slotuse }

def setPrevleaf (n prevleaf : PageId) : M S Unit := do
  let node ← getNode n
  setNode n { node with prevleaf }

def setNextleaf (n nextleaf : PageId) : M S Unit := do
  let node ← getNode n
  setNode n { node with nextleaf }

/-- `isfull` compares the field `nSlots` of the page, which nothing sets. -/
def isFull (n : PageId) : M S Bool := do
  let node ← getNode n
  let table ← get
  pure (node.nSlots == table.nodeslotmax)

/-- `m_memMgr.InsertPage()`. -/
def insertPage : M S PageId := do
  let table ← get
  let (id, store) := table.store.allocate
  set { table with store }
  pure id

/-- `initialize` of the page that `InsertPage` returned. -/
def initializeNode (id : PageId) (level : Nat) : M S Unit := do
  let node ← getNode id
  setNode id { node with level, slotuse := 0 }

/-- `initialize` of a leaf. -/
def initializeLeaf (id : PageId) : M S Unit := do
  initializeNode id 0
  setPrevleaf id (-1)
  setNextleaf id (-1)

def allocateLeaf : M S PageId := do
  let id ← insertPage
  initializeLeaf id
  modify fun table => { table with mStats.leaves := table.mStats.leaves + 1 }
  pure id

def allocateInner (level : Nat) : M S PageId := do
  let id ← insertPage
  initializeNode id level
  modify fun table => { table with mStats.innernodes := table.mStats.innernodes + 1 }
  pure id

/-! ## Slots -/

section Slots

variable (records : Records K D S)

def getKey (n : PageId) (slot : Int) : M S K := do
  let node ← getNode n
  orFault .outOfPage (records.getKey node.isLeafNode node.slots slot)

def getData (n : PageId) (slot : Int) : M S D := do
  let node ← getNode n
  orFault .outOfPage (records.getData node.slots slot)

def getChild (n : PageId) (slot : Int) : M S PageId := do
  let node ← getNode n
  orFault .outOfPage (records.getChild node.slots slot)

def setKey (n : PageId) (slot : Int) (key : K) : M S Unit := do
  let node ← getNode n
  let slots ← orFault .outOfPage (records.setKey node.isLeafNode node.slots slot key)
  setNode n { node with slots }

def setData (n : PageId) (slot : Int) (data : D) : M S Unit := do
  let node ← getNode n
  let slots ← orFault .outOfPage (records.setData node.slots slot data)
  setNode n { node with slots }

def setChild (n : PageId) (slot : Int) (child : PageId) : M S Unit := do
  let node ← getNode n
  let slots ← orFault .outOfPage (records.setChild node.slots slot child)
  setNode n { node with slots }

/-- The loop of the `copy_` helpers: `count` slots from `l` on are moved to the slots
from `dest` on, the first one first. -/
def copyLoop (move : (target source : Int) → M S Unit) : (count : Nat) → (l dest : Int) → M S Unit
  | 0, _, _ => pure ()
  | count + 1, l, dest => do
      move dest l
      copyLoop move count (l + 1) (dest + 1)

/-- The loop of the `copy_backwards_` helpers: the slots from `l` on are moved so that
they end before the slot `dest`, the last one first. -/
def copyBackwardsLoop (move : (target source : Int) → M S Unit) (l r dest : Int) :
    (count : Nat) → M S Unit
  | 0 => pure ()
  | count + 1 => do
      move (dest - (r - (l + count))) (l + count)
      copyBackwardsLoop move l r dest count

/-- `node_to.set_key(target, node_from.key(source))`. -/
def moveKey (nodeFrom nodeTo : PageId) (target source : Int) : M S Unit := do
  let key ← getKey records nodeFrom source
  setKey records nodeTo target key

def moveData (nodeFrom nodeTo : PageId) (target source : Int) : M S Unit := do
  let data ← getData records nodeFrom source
  setData records nodeTo target data

def moveChild (nodeFrom nodeTo : PageId) (target source : Int) : M S Unit := do
  let child ← getChild records nodeFrom source
  setChild records nodeTo target child

variable (nodeFrom nodeTo : PageId) (l r dest : Int)

def copyInnerKeys : M S Unit := copyLoop (moveKey records nodeFrom nodeTo) (r - l).toNat l dest

def copyInnerChilds : M S Unit := copyLoop (moveChild records nodeFrom nodeTo) (r - l).toNat l dest

def copyBackwardsInnerKeys : M S Unit :=
  copyBackwardsLoop (moveKey records nodeFrom nodeTo) l r dest (r - l).toNat

def copyBackwardsInnerChilds : M S Unit :=
  copyBackwardsLoop (moveChild records nodeFrom nodeTo) l r dest (r - l).toNat

def copyLeafKeys : M S Unit := copyLoop (moveKey records nodeFrom nodeTo) (r - l).toNat l dest

def copyLeafData : M S Unit := copyLoop (moveData records nodeFrom nodeTo) (r - l).toNat l dest

def copyBackwardsLeafKeys : M S Unit :=
  copyBackwardsLoop (moveKey records nodeFrom nodeTo) l r dest (r - l).toNat

def copyBackwardsLeafData : M S Unit :=
  copyBackwardsLoop (moveData records nodeFrom nodeTo) l r dest (r - l).toNat

end Slots

/-- The binary search loop of `find_lower` and `find_upper`, which differ in the test whether to
go on in the lower half. -/
def searchLoop (records : Records K D S) (isBelow : K → Bool) (n : PageId) :
    (fuel lo hi : Nat) → M S Nat
  | 0, lo, hi => if lo < hi then throw .outOfFuel else pure lo
  | fuel + 1, lo, hi =>
      if lo < hi then do
        let mid := (lo + hi) / 2
        let slot ← getKey records n mid
        if isBelow slot then searchLoop records isBelow n fuel lo mid
        else searchLoop records isBelow n fuel (mid + 1) hi
      else pure lo

def findLower (records : Records K D S) (n : PageId) (key : K) : M S Nat := do
  let used ← slotuse n
  if used = 0 then pure 0 else searchLoop records (records.keyLessEqual key) n used 0 used

end PersistentBTree.Tables
