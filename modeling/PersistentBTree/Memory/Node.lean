import PersistentBTree.Imperative.Buffer
import PersistentBTree.Imperative.Runs
import Mathlib.Algebra.Group.Nat.Defs
import Mathlib.Order.Lattice

/-! Nodes and memory of the in-memory `btree`. Pointers are addresses into an
explicit heap, `NULL` is `none`, and a null or dangling pointer, an access
outside a node's arrays, a sum that an `int` cannot hold and an assertion that
does not hold stop the program with a fault. Levels and statistics are natural
numbers, since memory ends before their types do. Slots are numbers below 2^32; the
differences of slot counts, the number of children of a new node and the indices of
the searches are computed in 32 bits, as in the source.

The source takes keys and data by reference. Here they are values: an argument
must not be a slot of the tree itself, such as `it.key()` or `it.data()`, which
the source would read again after the call has moved or freed it. -/

set_option autoImplicit false

namespace PersistentBTree.Memory

open Imperative

/-- The address of a node. -/
abbrev Ptr := Nat

/-- `leaf_node`; its level is always 0. -/
structure LeafNode (K D : Type) where
  slotuse : Nat
  prevleaf : Option Ptr
  nextleaf : Option Ptr
  slotkey : Buffer K
  slotdata : Buffer D

/-- `inner_node`. -/
structure InnerNode (K : Type) where
  level : Nat
  slotuse : Nat
  slotkey : Buffer K
  childid : Buffer Ptr

inductive Node (K D : Type) where
  | leaf (node : LeafNode K D)
  | inner (node : InnerNode K)

def Node.level {K D : Type} : Node K D → Nat
  | .leaf _ => 0
  | .inner node => node.level

def Node.slotuse {K D : Type} : Node K D → Nat
  | .leaf node => node.slotuse
  | .inner node => node.slotuse

/-- The four node size members. -/
structure NodeSizes where
  leafslotmax : Nat
  innerslotmax : Nat
  minleafslots : Nat
  mininnerslots : Nat
  deriving DecidableEq

/-- `setNodeSize`, and the constructors with the sizes of the traits. -/
def setNodeSize (leafslotmax innerslotmax : Nat) : NodeSizes where
  leafslotmax := leafslotmax
  innerslotmax := innerslotmax
  minleafslots := leafslotmax / 2
  mininnerslots := innerslotmax / 2

/-- `btree_default_map_traits`: the slot counts for keys and data of the given
`sizeof`, with 8-byte pointers. -/
def defaultMapTraits (sizeofKey sizeofData : Nat) : NodeSizes :=
  setNodeSize (max 8 (256 / (sizeofKey + sizeofData))) (max 8 (256 / (sizeofKey + 8)))

/-- `tree_stats`. -/
@[ext] structure TreeStats where
  itemcount : Nat := 0
  leaves : Nat := 0
  innernodes : Nat := 0
  deriving DecidableEq

/-- What a `BTREE_ASSERT` is about. -/
inductive Assertion where
  | level | parentSlot | neighbours | fits | donor | insertSlot | full | tail | emptied | root
  | stats
  deriving DecidableEq

inductive Fault where
  | nullPointer
  | dangling
  | outOfBounds
  | overflow
  | assertion (which : Assertion)
  | outOfFuel
  deriving DecidableEq

/-- A `btree` object and the nodes it allocated. Addresses from `brk` on have
never been handed out. `checks` tells which assertions are compiled in:
all of them with `BTREE_DEBUG` and none without. -/
structure BTree (K D : Type) where
  sizes : NodeSizes
  checks : Assertion → Bool
  mRoot : Option Ptr
  mHeadleaf : Option Ptr
  mTailleaf : Option Ptr
  mStats : TreeStats
  heap : Ptr → Option (Node K D)
  brk : Ptr

/-- The constructor of an empty tree. -/
def BTree.empty {K D : Type} (sizes : NodeSizes) (checks : Assertion → Bool) : BTree K D where
  sizes := sizes
  checks := checks
  mRoot := none
  mHeadleaf := none
  mTailleaf := none
  mStats := {}
  heap := fun _ => none
  brk := 0

/-- `BTREE_DEBUG` is defined. -/
def debugBuild : Assertion → Bool := fun _ => true

/-- `BTREE_DEBUG` is not defined. -/
def releaseBuild : Assertion → Bool := fun _ => false

abbrev M (K D : Type) := Program (BTree K D) Fault

/-- The difference of two `unsigned int` values. -/
def usub (a b : Nat) : Nat := if b ≤ a then a - b else 2 ^ 32 - (b - a)

/-- The sum of two `unsigned int` values. -/
def uadd (a b : Nat) : Nat := (a + b) % 2 ^ 32

/-- An `unsigned int` that is stored in an `int` keeps its 32 bits. -/
def toInt (n : Nat) : Int :=
  if n % 2 ^ 32 < 2 ^ 31 then (n % 2 ^ 32 : Nat) else (n % 2 ^ 32 : Nat) - (2 ^ 32 : Nat)

variable {K D : Type}

/-- The sum of two `int` values that are not negative. It is undefined when an `int`
cannot hold it. -/
def addInt (a b : Nat) : M K D Nat := if a + b < 2 ^ 31 then pure (a + b) else throw .overflow

/-- An `unsigned int` that is stored in an `int` and used as a slot; a negative slot
is outside of every array. -/
def intSlot (n : Nat) : M K D Nat :=
  if toInt n < 0 then throw .outOfBounds else pure (toInt n).toNat

/-! ## Memory accesses -/

def BTree.setNode (tree : BTree K D) (ptr : Ptr) (node : Option (Node K D)) : BTree K D :=
  { tree with heap := fun other => if other = ptr then node else tree.heap other }

def nonNull (ptr : Option Ptr) : M K D Ptr := orFault .nullPointer ptr

def getNode (ptr : Ptr) : M K D (Node K D) := do
  let tree ← get
  orFault .dangling (tree.heap ptr)

/-- A `leaf_node *` is dereferenced. -/
def getLeaf (ptr : Ptr) : M K D (LeafNode K D) := do
  match ← getNode ptr with
  | .leaf node => pure node
  | .inner _ => throw .dangling

/-- An `inner_node *` is dereferenced. -/
def getInner (ptr : Ptr) : M K D (InnerNode K) := do
  match ← getNode ptr with
  | .leaf _ => throw .dangling
  | .inner node => pure node

def setLeaf (ptr : Ptr) (node : LeafNode K D) : M K D Unit :=
  modify fun tree => tree.setNode ptr (some (.leaf node))

def setInner (ptr : Ptr) (node : InnerNode K) : M K D Unit :=
  modify fun tree => tree.setNode ptr (some (.inner node))

def readSlot {α : Type} (buffer : Buffer α) (slot : Nat) : M K D α :=
  orFault .outOfBounds (buffer.read slot)

def writeSlot {α : Type} (buffer : Buffer α) (slot : Nat) (value : α) : M K D (Buffer α) :=
  orFault .outOfBounds (buffer.write slot value)

/-- `std::copy` on node arrays; `data_copy` is the same function. -/
def copySlots {α : Type} (source : Buffer α) (first last : Nat) (target : Buffer α) (start : Nat) :
    M K D (Buffer α) :=
  orFault .outOfBounds (source.copy first last target start)

/-- `std::copy_backward` on node arrays; `data_copy_backward` is the same
function. -/
def copySlotsBackward {α : Type} (source : Buffer α) (first last : Nat) (target : Buffer α)
    (stop : Nat) : M K D (Buffer α) :=
  orFault .outOfBounds (source.copyBackward first last target stop)

/-- `BTREE_ASSERT`; the condition is evaluated only when it is compiled in. -/
def btreeAssert (which : Assertion) (condition : M K D Bool) : M K D Unit := do
  let tree ← get
  if tree.checks which then
    let holds ← condition
    if holds then pure () else throw (.assertion which)
  else pure ()

/-! ## Fill tests -/

def isLeafNode (ptr : Ptr) : M K D Bool := do
  let node ← getNode ptr
  pure (node.level == 0)

def level (ptr : Ptr) : M K D Nat := do
  let node ← getNode ptr
  pure node.level

def slotuse (ptr : Ptr) : M K D Nat := do
  let node ← getNode ptr
  pure node.slotuse

def isFull (ptr : Ptr) : M K D Bool := do
  let node ← getNode ptr
  let tree ← get
  if node.level = 0 then pure (node.slotuse == tree.sizes.leafslotmax)
  else pure (node.slotuse == tree.sizes.innerslotmax)

def isFew (ptr : Ptr) : M K D Bool := do
  let node ← getNode ptr
  let tree ← get
  if node.level = 0 then pure (decide (node.slotuse ≤ tree.sizes.minleafslots))
  else pure (decide (node.slotuse ≤ tree.sizes.mininnerslots))

/-- `isunderflow`; both branches of the source compare with `mininnerslots`. -/
def isUnderflow (ptr : Ptr) : M K D Bool := do
  let node ← getNode ptr
  let tree ← get
  if node.level = 0 then pure (decide (node.slotuse < tree.sizes.mininnerslots))
  else pure (decide (node.slotuse < tree.sizes.mininnerslots))

/-! ## Allocation -/

def allocateNode (node : Node K D) : M K D Ptr := do
  let tree ← get
  modify fun tree => { tree.setNode tree.brk (some node) with brk := tree.brk + 1 }
  pure tree.brk

/-- `leaf_node::initialize`, and the arrays that `allocate_leaf` adds. -/
def LeafNode.initial (leafslotmax : Nat) : LeafNode K D where
  slotuse := 0
  prevleaf := none
  nextleaf := none
  slotkey := Buffer.alloc leafslotmax
  slotdata := Buffer.alloc leafslotmax

/-- `node::initialize`, and the arrays that `allocate_inner` adds. -/
def InnerNode.initial (level innerslotmax : Nat) : InnerNode K where
  level
  slotuse := 0
  slotkey := Buffer.alloc innerslotmax
  childid := Buffer.alloc (uadd innerslotmax 1)

def allocateLeaf : M K D Ptr := do
  let tree ← get
  let ptr ← allocateNode (.leaf (.initial tree.sizes.leafslotmax))
  modify fun tree => { tree with mStats.leaves := tree.mStats.leaves + 1 }
  pure ptr

def allocateInner (level : Nat) : M K D Ptr := do
  let tree ← get
  let ptr ← allocateNode (.inner (.initial level tree.sizes.innerslotmax))
  modify fun tree => { tree with mStats.innernodes := tree.mStats.innernodes + 1 }
  pure ptr

def freeNode (ptr : Ptr) : M K D Unit := do
  if ← isLeafNode ptr then
    modify fun tree =>
      { tree.setNode ptr none with mStats.leaves := tree.mStats.leaves - 1 }
  else
    modify fun tree =>
      { tree.setNode ptr none with mStats.innernodes := tree.mStats.innernodes - 1 }

/-! ## Key comparison and search in a node -/

section Keys

variable [LinearOrder K]

def keyLess (a b : K) : Bool := decide (a < b)

def keyLessEqual (a b : K) : Bool := decide (a ≤ b)

def keyEqual (a b : K) : Bool := !keyLess a b && !keyLess b a

/-- The binary search loop of `find_lower` and `find_upper`; `below` is the
comparison that keeps the lower half. -/
def searchLoop (below : K → Bool) (slotkey : Buffer K) : Nat → Nat → Nat → M K D Nat
  | 0, lo, hi => if lo < hi then throw .outOfFuel else pure lo
  | fuel + 1, lo, hi =>
      if lo < hi then do
        let sum ← addInt lo hi
        let mid := sum / 2
        let slot ← readSlot slotkey mid
        if below slot then searchLoop below slotkey fuel lo mid
        else searchLoop below slotkey fuel (mid + 1) hi
      else pure lo

/-- `find_lower` on a node with these used slots. The loop does not run when `hi` is
negative, just as when it is 0. -/
def findLower (slotkey : Buffer K) (slotuse : Nat) (key : K) : M K D Nat :=
  if slotuse = 0 then pure 0
  else searchLoop (fun slot => keyLessEqual key slot) slotkey slotuse 0 (toInt slotuse).toNat

/-- `find_upper` on a node with these used slots. -/
def findUpper (slotkey : Buffer K) (slotuse : Nat) (key : K) : M K D Nat :=
  if slotuse = 0 then pure 0
  else searchLoop (fun slot => keyLess key slot) slotkey slotuse 0 (toInt slotuse).toNat

end Keys

/-- `iterator`. -/
structure Iterator where
  currnode : Option Ptr
  currslot : Nat
  deriving DecidableEq

/-- `iterator::key`. -/
def Iterator.key (iter : Iterator) : M K D K := do
  let ptr ← nonNull iter.currnode
  let leaf ← getLeaf ptr
  readSlot leaf.slotkey iter.currslot

/-- `iterator::data`. -/
def Iterator.data (iter : Iterator) : M K D D := do
  let ptr ← nonNull iter.currnode
  let leaf ← getLeaf ptr
  readSlot leaf.slotdata iter.currslot

end PersistentBTree.Memory
