import PersistentBTree.Memory.Erase
import PersistentBTree.Memory.Invariant
import PersistentBTree.Memory.SiblingProperties

/-! What a descent of `erase` may assume of the node it is called for and of the
neighbours it is given, and what it leaves behind. -/

set_option autoImplicit false

namespace PersistentBTree.Memory

open Imperative Multimap

variable {K D : Type}

/-- Node sizes with which `erase` keeps every node within its bounds. Leaves are
mended when they have less than `mininnerslots` pairs, so they may have less
than `minleafslots`. Inner nodes have room for their children, or leaves are so large
that there is no need for one. -/
structure Bounds.Erases (bounds : Bounds) (sizes : NodeSizes) (checks : Assertion → Bool) :
    Prop where
  leafMax : bounds.leafMax = sizes.leafslotmax
  innerMax : bounds.innerMax = sizes.innerslotmax
  leafMin : bounds.leafMin = min sizes.minleafslots sizes.mininnerslots
  innerMin : bounds.innerMin = sizes.mininnerslots
  leafHalf : 2 * sizes.minleafslots ≤ sizes.leafslotmax
  innerHalf : 2 * sizes.mininnerslots ≤ sizes.innerslotmax
  leafSome : 2 ≤ sizes.minleafslots
  innerSome : 2 ≤ sizes.mininnerslots
  close : sizes.mininnerslots ≤ sizes.minleafslots + 1
  checked : checks .fits = true → sizes.mininnerslots ≤ sizes.minleafslots
  isUnsigned : sizes.innerslotmax < 2 ^ 32
  childRoom : sizes.innerslotmax + 1 < 2 ^ 32 ∨ 2 ^ 30 < sizes.leafslotmax

theorem Bounds.Erases.two_le_least {bounds : Bounds} {sizes : NodeSizes}
    {checks : Assertion → Bool} (erases : bounds.Erases sizes checks) (height : Nat) :
    2 ≤ bounds.least height := by
  have leafSome := erases.leafSome
  have innerSome := erases.innerSome
  cases height with
  | zero =>
      simp only [Bounds.least, erases.leafMin]
      omega
  | succ height => simpa only [Bounds.least, erases.innerMin] using innerSome

theorem Bounds.Erases.positive {bounds : Bounds} {sizes : NodeSizes}
    {checks : Assertion → Bool} (erases : bounds.Erases sizes checks) : 1 ≤ bounds.leafMin :=
  Nat.le_of_succ_le (erases.two_le_least 0)

/-- The bounds that every run keeps with node sizes that are close enough. -/
def NodeSizes.bounds (sizes : NodeSizes) : Bounds where
  leafMin := min sizes.minleafslots sizes.mininnerslots
  leafMax := sizes.leafslotmax
  innerMin := sizes.mininnerslots
  innerMax := sizes.innerslotmax

theorem erases_setNodeSize {leafslotmax innerslotmax : Nat} {checks : Assertion → Bool}
    (leafSome : 2 ≤ leafslotmax / 2) (innerSome : 2 ≤ innerslotmax / 2)
    (close : innerslotmax / 2 ≤ leafslotmax / 2 + 1)
    (checked : checks .fits = true → innerslotmax / 2 ≤ leafslotmax / 2)
    (isUnsigned : innerslotmax < 2 ^ 32) :
    (setNodeSize leafslotmax innerslotmax).bounds.Erases (setNodeSize leafslotmax innerslotmax)
      checks :=
  ⟨rfl, rfl, rfl, rfl, Nat.mul_div_le leafslotmax 2, Nat.mul_div_le innerslotmax 2, leafSome,
    innerSome, close, checked, isUnsigned, by
      change innerslotmax + 1 < 2 ^ 32 ∨ 2 ^ 30 < leafslotmax
      omega⟩

/-- The greatest number of used slots of a node that `isfew` accepts. -/
def NodeSizes.few (sizes : NodeSizes) : Nat → Nat
  | 0 => sizes.minleafslots
  | _ + 1 => sizes.mininnerslots

/-! ## Neighbours -/

/-- A neighbour that is not one of the nodes `avoid`, and neither is the parent
that was handed down with it. -/
structure Outside (tree : BTree K D) (bounds : Bounds) (height : Nat) (avoid : Multiset Ptr)
    (neighbour neighbourParent : Option Ptr) : Prop where
  stored : ∀ ptr, neighbour = some ptr → ∃ other, Tree.ptr other = ptr ∧
    tree.Represents height other ∧ WellFormed bounds (bounds.least height) height other ∧
    ∀ address ∈ other.foot, address ∉ avoid
  parent : ∀ ptr, neighbourParent = some ptr → ptr ∉ avoid

/-- The neighbour on one side: the next child of the parent, or one that
another node holds when there is none. -/
def Beside (tree : BTree K D) (bounds : Bounds) (height : Nat) (parent : Ptr)
    (family : Multiset Ptr) (neighbour neighbourParent : Option Ptr) :
    Option (Tree K D) → Prop
  | some sibling => neighbour = some sibling.ptr ∧ neighbourParent = some parent
  | none => Outside tree bounds height (parent ::ₘ family) neighbour neighbourParent

/-- What a descent is told about a child of `parent`. -/
structure Below (tree : BTree K D) (bounds : Bounds) (height : Nat) (parent : Ptr)
    (front : Forest K D) (sub : Tree K D) (back : Forest K D)
    (left right leftparent rightparent : Option Ptr) : Prop where
  several : front ≠ [] ∨ back ≠ []
  notRoot : ∀ ptr, tree.mRoot = some ptr → ptr ∉ sub.foot
  formed : ∀ kid ∈ front ++ back, WellFormed bounds (bounds.least height) height kid
  leftSide : Beside tree bounds height parent (Forest.foot (front ++ sub :: back)) left
    leftparent front.getLast?
  rightSide : Beside tree bounds height parent (Forest.foot (front ++ sub :: back)) right
    rightparent back.head?

/-! ## Results -/

/-- A pair was erased and nothing is left to be removed: `old` and `new` are
the pairs of a family before and after. -/
structure Reported (old new : List (K × D)) (result : Result K) : Prop where
  found : result.notFound = false
  passes : result.updateLastkey = true → lastKeyOf new = some result.lastkey
  keeps : result.updateLastkey = false → new ≠ [] → lastKeyOf new = lastKeyOf old

/-- A pair was erased below `old`, which is now `new` and may have a slot less
than it must have. -/
structure Shrunk (before after : BTree K D) (bounds : Bounds) (height : Nat)
    (parent : Option Ptr) (keys : List K) (front : Forest K D) (old new : Tree K D)
    (back : Forest K D) (remaining : List (K × D)) (result : Result K) (lefts rights : List Ptr) :
    Prop where
  reshaped : Reshaped before after parent height (front ++ old :: back) (front ++ new :: back) 0
    lefts rights
  parentAt : ∀ ptr, parent = some ptr →
    after.InnerAt ptr (height + 1) keys ((front ++ new :: back).map Tree.ptr)
  matching : keys.map some = separators (front ++ new :: back)
  ptr : new.ptr = old.ptr
  formed : WellFormed bounds (old.used - 1) height new
  pairs : new.pairs = remaining
  reported : Reported (Forest.pairs (front ++ old :: back)) (Forest.pairs (front ++ new :: back))
    result
  whole : result.fixmerge = false

/-- What the parent stores: the keys and children of a family, or also the child
that a merge emptied, either the one in `slot` or the next. -/
inductive Held (tree : BTree K D) (parent : Ptr) (height slot : Nat) (lefts rights : List Ptr) :
    List K → Forest K D → Multiset Ptr → Bool → Prop
  | whole {keys : List K} {kids : Forest K D}
      (parentAt : tree.InnerAt parent (height + 1) keys (kids.map Tree.ptr)) :
      Held tree parent height slot lefts rights keys kids 0 false
  | emptied {frontKeys backKeys : List K} {key : K} {front back : Forest K D}
      {merged : Tree K D} {spare : Ptr}
      (parentAt : tree.InnerAt parent (height + 1) (frontKeys ++ key :: backKeys)
        (front.map Tree.ptr ++ merged.ptr :: spare :: back.map Tree.ptr))
      (aligned : front.length = frontKeys.length)
      (unused : ∃ node, tree.heap spare = some node ∧ node.level = height ∧ node.slotuse = 0)
      (apart : spare ∉ lefts ++ Forest.leaves (front ++ merged :: back) ++ rights)
      (inUse : merged.used ≠ 0) (inSlot : slot = front.length ∨ slot = front.length + 1) :
      Held tree parent height slot lefts rights (frontKeys ++ backKeys) (front ++ merged :: back)
        {spare} true

/-- A pair was erased below a child of `parent`, and the family is filled within
the bounds again. -/
structure Erased (before after : BTree K D) (bounds : Bounds) (height : Nat) (parent : Ptr)
    (slot : Nat) (old new : Forest K D) (keys : List K) (spare : Multiset Ptr)
    (remaining : List (K × D)) (result : Result K) (lefts rights : List Ptr) : Prop where
  reshaped : Reshaped before after (some parent) height old new spare lefts rights
  held : Held after parent height slot lefts rights keys new spare result.fixmerge
  matching : keys.map some = separators new
  formed : ∀ kid ∈ new, WellFormed bounds (bounds.least height) height kid
  count : old.length ≤ new.length + 1
  pairs : Forest.pairs new = remaining
  reported : Reported (Forest.pairs old) remaining result

end PersistentBTree.Memory
