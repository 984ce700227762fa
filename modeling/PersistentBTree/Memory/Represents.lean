import PersistentBTree.Imperative.Linked
import PersistentBTree.Memory.Tree

/-! When a heap stores a tree, and what single memory accesses do. The links of
the leaves are kept apart from the contents of the nodes: an operation may
relink a leaf far away from the nodes it otherwise changes. -/

set_option autoImplicit false

namespace PersistentBTree.Memory

open Imperative Multimap

variable {K D : Type}

theorem usub_of_le {a b : Nat} (le : b ≤ a) : usub a b = a - b := by
  rw [usub, if_pos le]

theorem usub_of_gt {a b : Nat} (above : a < b) : usub a b = 2 ^ 32 - (b - a) :=
  if_neg (by omega)

theorem uadd_of_lt {a b : Nat} (inRange : a + b < 2 ^ 32) : uadd a b = a + b :=
  Nat.mod_eq_of_lt inRange

theorem toInt_of_lt {n : Nat} (inRange : n < 2 ^ 31) : toInt n = n := by
  rw [toInt]
  split <;> omega

theorem toInt_neg {n : Nat} (atLeast : 2 ^ 31 ≤ n) (word : n < 2 ^ 32) : toInt n < 0 := by
  rw [toInt]
  split <;> omega

theorem toNat_toInt_le (n : Nat) : (toInt n).toNat ≤ n := by
  rw [toInt]
  split <;> omega

theorem toNat_toInt_lt (n : Nat) : (toInt n).toNat < 2 ^ 31 := by
  rw [toInt]
  split <;> omega

/-! ## Nodes -/

/-- The leaf node uses its first slots for these pairs. -/
structure LeafNode.Stores (node : LeafNode K D) (capacity : Nat) (pairs : List (K × D)) :
    Prop where
  used : node.slotuse = pairs.length
  keys : node.slotkey.Holds (pairs.map Prod.fst)
  data : node.slotdata.Holds (pairs.map Prod.snd)
  keyRoom : node.slotkey.length = capacity
  dataRoom : node.slotdata.length = capacity

/-- The inner node uses its first slots for these keys and children. -/
structure InnerNode.Stores (node : InnerNode K) (capacity : Nat) (keys : List K)
    (children : List Ptr) : Prop where
  used : node.slotuse = keys.length
  count : children.length = keys.length + 1
  keys : node.slotkey.Holds keys
  children : node.childid.Holds children
  keyRoom : node.slotkey.length = capacity
  childRoom : node.childid.length = uadd capacity 1

/-- `prevleaf` and `nextleaf`. -/
def LeafNode.links (node : LeafNode K D) : Option Ptr × Option Ptr :=
  (node.prevleaf, node.nextleaf)

/-- A node without its links. -/
def Node.content : Node K D → Node K D
  | .leaf node => .leaf { node with prevleaf := none, nextleaf := none }
  | .inner node => .inner node

namespace BTree

/-- The node at an address without its links. -/
def content (tree : BTree K D) (ptr : Ptr) : Option (Node K D) :=
  (tree.heap ptr).map Node.content

/-- The links of the leaf at an address. -/
def links (tree : BTree K D) (ptr : Ptr) : Option (Option Ptr × Option Ptr) :=
  match tree.heap ptr with
  | some (.leaf node) => some node.links
  | _ => none

section SetNode

variable (tree : BTree K D) (ptr other : Ptr) (node : Option (Node K D))

@[simp] theorem sizes_setNode : (tree.setNode ptr node).sizes = tree.sizes := rfl
@[simp] theorem checks_setNode : (tree.setNode ptr node).checks = tree.checks := rfl
@[simp] theorem mRoot_setNode : (tree.setNode ptr node).mRoot = tree.mRoot := rfl
@[simp] theorem mHeadleaf_setNode : (tree.setNode ptr node).mHeadleaf = tree.mHeadleaf := rfl
@[simp] theorem mTailleaf_setNode : (tree.setNode ptr node).mTailleaf = tree.mTailleaf := rfl
@[simp] theorem mStats_setNode : (tree.setNode ptr node).mStats = tree.mStats := rfl
@[simp] theorem brk_setNode : (tree.setNode ptr node).brk = tree.brk := rfl

@[simp] theorem heap_setNode_self : (tree.setNode ptr node).heap ptr = node := by
  simp [setNode]

@[simp] theorem links_setNode_leaf (leaf : LeafNode K D) :
    (tree.setNode ptr (some (.leaf leaf))).links ptr = some leaf.links := by
  simp [links]

variable {ptr other}

theorem heap_setNode_of_ne (different : other ≠ ptr) :
    (tree.setNode ptr node).heap other = tree.heap other := by
  simp [setNode, different]

theorem content_setNode_of_ne (different : other ≠ ptr) :
    (tree.setNode ptr node).content other = tree.content other := by
  simp [content, heap_setNode_of_ne tree node different]

theorem links_setNode_of_ne (different : other ≠ ptr) :
    (tree.setNode ptr node).links other = tree.links other := by
  simp [links, heap_setNode_of_ne tree node different]

theorem setNode_comm (different : other ≠ ptr) (new : Option (Node K D)) :
    (tree.setNode ptr node).setNode other new = (tree.setNode other new).setNode ptr node := by
  simp only [setNode]
  congr
  funext address
  by_cases isPtr : address = ptr
  · simp [isPtr, Ne.symm different]
  · simp [isPtr]

end SetNode

theorem links_of_leaf {tree : BTree K D} {ptr : Ptr} {node : LeafNode K D}
    (stored : tree.heap ptr = some (.leaf node)) : tree.links ptr = some node.links := by
  simp [links, stored]

theorem exists_leaf_of_content {tree other : BTree K D} {ptr : Ptr} {node : LeafNode K D}
    (same : other.content ptr = tree.content ptr) (stored : tree.heap ptr = some (.leaf node)) :
    ∃ stored', other.heap ptr = some (.leaf stored') ∧ stored'.slotuse = node.slotuse ∧
      stored'.slotkey = node.slotkey ∧ stored'.slotdata = node.slotdata := by
  simp only [content, stored, Option.map_some] at same
  obtain ⟨found, foundAt, foundSame⟩ := Option.map_eq_some_iff.mp same
  cases found with
  | leaf found =>
      simp only [Node.content, Node.leaf.injEq, LeafNode.mk.injEq] at foundSame
      exact ⟨found, foundAt, foundSame.1, foundSame.2.2.2.1, foundSame.2.2.2.2⟩
  | inner found => simp [Node.content] at foundSame

theorem inner_of_content {tree other : BTree K D} {ptr : Ptr} {node : InnerNode K}
    (same : other.content ptr = tree.content ptr) (stored : tree.heap ptr = some (.inner node)) :
    other.heap ptr = some (.inner node) := by
  simp only [content, stored, Option.map_some] at same
  obtain ⟨found, foundAt, foundSame⟩ := Option.map_eq_some_iff.mp same
  cases found with
  | leaf found => simp [Node.content] at foundSame
  | inner found =>
      simp only [Node.content, Node.inner.injEq] at foundSame
      rw [foundAt, foundSame]

/-! ## Subtrees -/

/-- A leaf with these pairs is stored at the address. -/
def LeafAt (tree : BTree K D) (ptr : Ptr) (pairs : List (K × D)) : Prop :=
  ∃ node, tree.heap ptr = some (.leaf node) ∧ node.Stores tree.sizes.leafslotmax pairs

/-- An inner node of this level with these keys and children is stored at the
address. -/
def InnerAt (tree : BTree K D) (ptr : Ptr) (level : Nat) (keys : List K) (children : List Ptr) :
    Prop :=
  ∃ node, tree.heap ptr = some (.inner node) ∧ node.level = level ∧
    node.Stores tree.sizes.innerslotmax keys children

/-- The heap stores the subtree; `height` is the level of its topmost node. -/
def Represents (tree : BTree K D) : Nat → Tree K D → Prop
  | 0, .leaf ptr pairs => tree.LeafAt ptr pairs
  | height + 1, .inner ptr keys kids =>
      tree.InnerAt ptr (height + 1) keys (kids.map Tree.ptr) ∧
        ∀ kid ∈ kids, tree.Represents height kid
  | _, _ => False

theorem LeafAt.congr {tree other : BTree K D} {ptr : Ptr} {pairs : List (K × D)}
    (stored : tree.LeafAt ptr pairs) (sizes : other.sizes = tree.sizes)
    (same : other.content ptr = tree.content ptr) : other.LeafAt ptr pairs := by
  obtain ⟨node, found, stores⟩ := stored
  obtain ⟨node', found', used, keys, data⟩ := exists_leaf_of_content same found
  refine ⟨node', found', ?_⟩
  rw [sizes]
  exact ⟨used.trans stores.used, keys ▸ stores.keys, data ▸ stores.data, keys ▸ stores.keyRoom,
    data ▸ stores.dataRoom⟩

theorem InnerAt.congr {tree other : BTree K D} {ptr : Ptr} {level : Nat} {keys : List K}
    {children : List Ptr} (stored : tree.InnerAt ptr level keys children)
    (sizes : other.sizes = tree.sizes) (same : other.content ptr = tree.content ptr) :
    other.InnerAt ptr level keys children := by
  obtain ⟨node, found, isLevel, stores⟩ := stored
  exact ⟨node, inner_of_content same found, isLevel, sizes ▸ stores⟩

/-- A subtree is stored as long as none of its nodes changes. -/
theorem Represents.congr {tree other : BTree K D} {height : Nat} {sub : Tree K D}
    (stored : tree.Represents height sub) (sizes : other.sizes = tree.sizes)
    (same : ∀ ptr ∈ sub.foot, other.content ptr = tree.content ptr) :
    other.Represents height sub := by
  induction height generalizing sub with
  | zero =>
      cases sub with
      | leaf ptr pairs => exact LeafAt.congr stored sizes (same ptr (by simp))
      | inner => exact stored
  | succ height ih =>
      cases sub with
      | leaf => exact stored
      | inner ptr keys kids =>
          refine ⟨stored.1.congr sizes (same ptr (by simp)), fun kid member => ?_⟩
          refine ih (stored.2 kid member) fun address within => same address ?_
          rw [Tree.foot_inner, Multiset.mem_cons]
          exact .inr (Multiset.mem_of_le (Forest.foot_le_of_mem member) within)

theorem Represents.exists_node {tree : BTree K D} {height : Nat} {sub : Tree K D}
    (stored : tree.Represents height sub) :
    ∃ node, tree.heap sub.ptr = some node ∧ node.level = height ∧ node.slotuse = sub.used := by
  cases height with
  | zero =>
      cases sub with
      | leaf ptr pairs =>
          obtain ⟨node, found, stores⟩ := stored
          exact ⟨.leaf node, found, rfl, stores.used⟩
      | inner => exact stored.elim
  | succ height =>
      cases sub with
      | leaf => exact stored.elim
      | inner ptr keys kids =>
          obtain ⟨⟨node, found, isLevel, stores⟩, -⟩ := stored
          exact ⟨.inner node, found, isLevel, stores.used⟩

theorem Represents.exists_leaf {tree : BTree K D} {sub : Tree K D}
    (stored : tree.Represents 0 sub) : ∃ ptr pairs, sub = .leaf ptr pairs := by
  cases sub with
  | leaf ptr pairs => exact ⟨ptr, pairs, rfl⟩
  | inner => exact stored.elim

theorem Represents.exists_inner {tree : BTree K D} {height : Nat} {sub : Tree K D}
    (stored : tree.Represents (height + 1) sub) : ∃ ptr keys kids, sub = .inner ptr keys kids := by
  cases sub with
  | leaf => exact stored.elim
  | inner ptr keys kids => exact ⟨ptr, keys, kids, rfl⟩

/-- Where an inner node is stored, its children could be allocated. -/
theorem Represents.inRange {tree : BTree K D} {height : Nat} {sub : Tree K D}
    (stored : tree.Represents (height + 1) sub) (isUnsigned : tree.sizes.innerslotmax < 2 ^ 32) :
    tree.sizes.innerslotmax + 1 < 2 ^ 32 := by
  obtain ⟨ptr, keys, kids, rfl⟩ := stored.exists_inner
  obtain ⟨node, -, -, stores⟩ := stored.1
  have room := stores.children.length_le
  rw [stores.childRoom, uadd, stores.count] at room
  omega

theorem Represents.heap_ne_none {tree : BTree K D} {height : Nat} {sub : Tree K D}
    (stored : tree.Represents height sub) {ptr : Ptr} (member : ptr ∈ sub.foot) :
    tree.heap ptr ≠ none := by
  induction height generalizing sub with
  | zero =>
      obtain ⟨address, pairs, rfl⟩ := stored.exists_leaf
      obtain ⟨node, found, -⟩ := stored
      rw [Tree.foot_leaf, Multiset.mem_singleton] at member
      simp [member, found]
  | succ height ih =>
      obtain ⟨address, keys, kids, rfl⟩ := stored.exists_inner
      obtain ⟨⟨node, found, -⟩, below⟩ := stored
      rw [Tree.foot_inner, Multiset.mem_cons] at member
      rcases member with rfl | member
      · simp [found]
      · obtain ⟨kid, kidMember, within⟩ := Forest.mem_foot.mp member
        exact ih (below kid kidMember) within

theorem Represents.lt_brk {tree : BTree K D} {height : Nat} {sub : Tree K D}
    (stored : tree.Represents height sub) (unused : ∀ ptr, tree.brk ≤ ptr → tree.heap ptr = none)
    {ptr : Ptr} (member : ptr ∈ sub.foot) : ptr < tree.brk := by
  by_contra atLeast
  exact stored.heap_ne_none member (unused ptr (Nat.le_of_not_lt atLeast))

/-! ## Frames -/

/-- Nothing but links and bookkeeping changed outside the touched addresses. -/
structure Frame (before after : BTree K D) (touched : Set Ptr) : Prop where
  sizes : after.sizes = before.sizes
  checks : after.checks = before.checks
  content : ∀ ptr, ptr ∉ touched → after.content ptr = before.content ptr

namespace Frame

variable {before middle after : BTree K D} {touched wider : Set Ptr}

theorem mono (frame : Frame before after touched) (subset : ∀ ptr ∈ touched, ptr ∈ wider) :
    Frame before after wider :=
  ⟨frame.sizes, frame.checks, fun ptr outside =>
    frame.content ptr fun inside => outside (subset ptr inside)⟩

theorem trans (first : Frame before middle touched) (second : Frame middle after touched) :
    Frame before after touched :=
  ⟨second.sizes.trans first.sizes, second.checks.trans first.checks, fun ptr outside =>
    (second.content ptr outside).trans (first.content ptr outside)⟩

theorem setNode (tree : BTree K D) (ptr : Ptr) (node : Option (Node K D)) :
    Frame tree (tree.setNode ptr node) {ptr} :=
  ⟨rfl, rfl, fun _ outside => content_setNode_of_ne tree node outside⟩

theorem leafAt (frame : Frame before after touched) {ptr : Ptr} {pairs : List (K × D)}
    (outside : ptr ∉ touched) (stored : before.LeafAt ptr pairs) : after.LeafAt ptr pairs :=
  stored.congr frame.sizes (frame.content ptr outside)

theorem innerAt (frame : Frame before after touched) {ptr : Ptr} {level : Nat} {keys : List K}
    {children : List Ptr} (outside : ptr ∉ touched)
    (stored : before.InnerAt ptr level keys children) : after.InnerAt ptr level keys children :=
  stored.congr frame.sizes (frame.content ptr outside)

theorem represents (frame : Frame before after touched) {height : Nat} {sub : Tree K D}
    (outside : ∀ ptr ∈ sub.foot, ptr ∉ touched) (stored : before.Represents height sub) :
    after.Represents height sub :=
  stored.congr frame.sizes fun ptr within => frame.content ptr (outside ptr within)

theorem heap_eq_none (frame : Frame before after touched) {ptr : Ptr} (outside : ptr ∉ touched)
    (unused : before.heap ptr = none) : after.heap ptr = none := by
  have same := frame.content ptr outside
  rw [BTree.content, BTree.content, unused] at same
  simpa using same

end Frame

/-- Only the contents of the touched nodes changed; links and bookkeeping are
the same. -/
structure Rewritten (before after : BTree K D) (touched : Set Ptr) : Prop where
  frame : before.Frame after touched
  links : ∀ ptr, after.links ptr = before.links ptr
  mRoot : after.mRoot = before.mRoot
  mHeadleaf : after.mHeadleaf = before.mHeadleaf
  mTailleaf : after.mTailleaf = before.mTailleaf
  mStats : after.mStats = before.mStats
  brk : after.brk = before.brk

theorem links_setNode_inner {tree : BTree K D} {ptr : Ptr} {node : InnerNode K}
    (isInner : tree.links ptr = none) (other : Ptr) :
    (tree.setNode ptr (some (.inner node))).links other = tree.links other := by
  by_cases same : other = ptr
  · subst same
    rw [isInner]
    simp [links]
  · exact links_setNode_of_ne tree _ same

theorem InnerAt.links_eq_none {tree : BTree K D} {ptr : Ptr} {level : Nat} {keys : List K}
    {children : List Ptr} (stored : tree.InnerAt ptr level keys children) :
    tree.links ptr = none := by
  obtain ⟨node, found, -⟩ := stored
  simp [links, found]

theorem links_eq_none_of_inner {tree : BTree K D} {ptr : Ptr} {node : InnerNode K}
    (found : tree.heap ptr = some (.inner node)) : tree.links ptr = none := by
  simp [links, found]

namespace Rewritten

variable {before middle after : BTree K D} {touched wider : Set Ptr} {ptr : Ptr}

theorem refl (tree : BTree K D) (touched : Set Ptr) : Rewritten tree tree touched :=
  ⟨⟨rfl, rfl, fun _ _ => rfl⟩, fun _ => rfl, rfl, rfl, rfl, rfl, rfl⟩

theorem mono (rewritten : Rewritten before after touched)
    (subset : ∀ ptr ∈ touched, ptr ∈ wider) : Rewritten before after wider :=
  { rewritten with frame := rewritten.frame.mono subset }

theorem trans (first : Rewritten before middle touched) (second : Rewritten middle after touched) :
    Rewritten before after touched where
  frame := first.frame.trans second.frame
  links ptr := (second.links ptr).trans (first.links ptr)
  mRoot := second.mRoot.trans first.mRoot
  mHeadleaf := second.mHeadleaf.trans first.mHeadleaf
  mTailleaf := second.mTailleaf.trans first.mTailleaf
  mStats := second.mStats.trans first.mStats
  brk := second.brk.trans first.brk

theorem setInner {node : InnerNode K} (found : before.heap ptr = some (.inner node))
    (new : InnerNode K) : Rewritten before (before.setNode ptr (some (.inner new))) {ptr} :=
  ⟨Frame.setNode before ptr _, links_setNode_inner (links_eq_none_of_inner found), rfl, rfl, rfl,
    rfl, rfl⟩

theorem setLeaf {node new : LeafNode K D} (found : before.heap ptr = some (.leaf node))
    (same : new.links = node.links) :
    Rewritten before (before.setNode ptr (some (.leaf new))) {ptr} := by
  refine ⟨Frame.setNode before ptr _, fun other => ?_, rfl, rfl, rfl, rfl, rfl⟩
  by_cases equal : other = ptr
  · subst equal
    rw [links_setNode_leaf, same, links_of_leaf found]
  · exact links_setNode_of_ne before _ equal

end Rewritten

/-! ## The leaf chain -/

/-- The leaves are linked in this order and the tree points at both ends. -/
def Chained (tree : BTree K D) (leaves : List Ptr) : Prop :=
  Linked tree.links none leaves none ∧ tree.mHeadleaf = leaves.head? ∧
    tree.mTailleaf = leaves.getLast?

namespace Chained

variable {before after : BTree K D} {front back : List Ptr} {ptr next : Ptr}

theorem links_at (chained : before.Chained (front ++ ptr :: back)) :
    before.links ptr = some (front.getLast?, back.head?) := by
  simpa using chained.1.at_middle

theorem exists_leaf (chained : before.Chained (front ++ ptr :: back)) :
    ∃ node, before.heap ptr = some (.leaf node) ∧ node.prevleaf = front.getLast? ∧
      node.nextleaf = back.head? := by
  have fields := chained.links_at
  unfold links at fields
  split at fields
  · rename_i node found
    simp only [LeafNode.links, Option.some.injEq, Prod.mk.injEq] at fields
    exact ⟨node, found, fields⟩
  · exact absurd fields (by simp)

theorem exists_leaf_of_mem {leaves : List Ptr} (chained : before.Chained leaves)
    (member : ptr ∈ leaves) : ∃ node, before.heap ptr = some (.leaf node) := by
  obtain ⟨front, back, rfl⟩ := List.append_of_mem member
  obtain ⟨node, found, -⟩ := chained.exists_leaf
  exact ⟨node, found⟩

theorem congr {leaves : List Ptr} (chained : before.Chained leaves)
    (links : ∀ ptr ∈ leaves, after.links ptr = before.links ptr)
    (head : after.mHeadleaf = before.mHeadleaf) (tail : after.mTailleaf = before.mTailleaf) :
    after.Chained leaves :=
  ⟨chained.1.congr links, head.trans chained.2.1, tail.trans chained.2.2⟩

/-- The leaf `next` is linked in behind `ptr`. -/
theorem insert_after (chained : before.Chained (front ++ ptr :: back))
    (unique : (front ++ ptr :: back).Nodup) (fresh : next ∉ front ++ ptr :: back)
    (left : after.links ptr = some (front.getLast?, some next))
    (middle : after.links next = some (some ptr, back.head?))
    (right : ∀ other, back.head? = some other → after.links other =
      (before.links other).map fun fields => (some next, fields.2))
    (same : ∀ other, other ≠ ptr → other ≠ next → back.head? ≠ some other →
      after.links other = before.links other)
    (head : after.mHeadleaf = before.mHeadleaf)
    (tail : after.mTailleaf = if back.head? = none then some next else before.mTailleaf) :
    after.Chained (front ++ ptr :: next :: back) := by
  have separate := List.nodup_append.mp unique
  have notNext : ∀ other ∈ front ++ ptr :: back, other ≠ next := fun other member equal =>
    fresh (equal ▸ member)
  refine ⟨chained.1.insert_after (by simpa using left) (by simpa using middle) right ?_ ?_, ?_, ?_⟩
  · intro other member
    refine same other (separate.2.2 other member ptr List.mem_cons_self)
      (notNext other (List.mem_append_left _ member)) fun isHead => ?_
    exact separate.2.2 other member other
      (List.mem_cons_of_mem _ (List.mem_of_mem_head? isHead)) rfl
  · intro other member
    cases back with
    | nil => simp at member
    | cons first back =>
        have tailUnique := (List.nodup_cons.mp (List.nodup_cons.mp separate.2.1).2).1
        refine same other ?_ (notNext other (by simp_all)) ?_
        · rintro rfl
          exact (List.nodup_cons.mp separate.2.1).1 (List.mem_cons_of_mem _ member)
        · simp only [List.head?_cons, ne_eq, Option.some.injEq]
          rintro rfl
          exact tailUnique member
  · rw [head, chained.2.1]
    cases front <;> simp
  · rw [tail, chained.2.2]
    cases back with
    | nil => simp
    | cons first back => simp [List.getLast?_append]

/-- The leaf `next` behind `ptr` is unlinked. -/
theorem unlink_after (chained : before.Chained (front ++ ptr :: next :: back))
    (unique : (front ++ ptr :: next :: back).Nodup)
    (left : after.links ptr = some (front.getLast?, back.head?))
    (right : ∀ other, back.head? = some other → after.links other =
      (before.links other).map fun fields => (some ptr, fields.2))
    (same : ∀ other, other ≠ ptr → other ≠ next → back.head? ≠ some other →
      after.links other = before.links other)
    (head : after.mHeadleaf = before.mHeadleaf)
    (tail : after.mTailleaf = if back.head? = none then some ptr else before.mTailleaf) :
    after.Chained (front ++ ptr :: back) := by
  have separate := List.nodup_append.mp unique
  have ptrUnique := (List.nodup_cons.mp separate.2.1).1
  have rest := (List.nodup_cons.mp separate.2.1).2
  have nextUnique := (List.nodup_cons.mp rest).1
  refine ⟨chained.1.unlink_after (by simpa using left) right ?_ ?_, ?_, ?_⟩
  · intro other member
    refine same other (separate.2.2 other member ptr List.mem_cons_self)
      (separate.2.2 other member next (by simp)) fun isHead => ?_
    exact separate.2.2 other member other (by simp [List.mem_of_mem_head? isHead]) rfl
  · intro other member
    cases back with
    | nil => simp at member
    | cons first back =>
        refine same other ?_ ?_ ?_
        · rintro rfl
          exact ptrUnique (by simp_all)
        · rintro rfl
          exact nextUnique (by simp_all)
        · simp only [List.head?_cons, ne_eq, Option.some.injEq]
          rintro rfl
          exact (List.nodup_cons.mp (List.nodup_cons.mp rest).2).1 member
  · rw [head, chained.2.1]
    cases front <;> simp
  · rw [tail, chained.2.2]
    cases back with
    | nil => simp
    | cons first back => simp [List.getLast?_append]

end Chained

/-- The tree after the leaf `next` was made to point back at `leaf`, or `leaf`
was made the tail. -/
def behind (tree : BTree K D) (next : Option Ptr) (leaf : Ptr) : BTree K D :=
  { tree with
    mTailleaf := if next = none then some leaf else tree.mTailleaf
    heap := fun ptr => if next = some ptr then
      match tree.heap ptr with
      | some (.leaf node) => some (.leaf { node with prevleaf := some leaf })
      | other => other
    else tree.heap ptr }

section Behind

variable (tree : BTree K D) (next : Option Ptr) (leaf ptr : Ptr)

@[simp] theorem content_behind : (tree.behind next leaf).content ptr = tree.content ptr := by
  simp only [content, behind]
  split
  · split <;> simp_all [Node.content]
  · rfl

variable {next ptr}

theorem heap_behind_of_ne (different : next ≠ some ptr) :
    (tree.behind next leaf).heap ptr = tree.heap ptr := by
  simp [behind, different]

theorem links_behind_of_ne (different : next ≠ some ptr) :
    (tree.behind next leaf).links ptr = tree.links ptr := by
  simp [links, heap_behind_of_ne tree leaf different]

theorem links_behind_self (isNext : next = some ptr) :
    (tree.behind next leaf).links ptr =
      (tree.links ptr).map fun fields => (some leaf, fields.2) := by
  subst isNext
  simp only [links, behind, ↓reduceIte]
  cases tree.heap ptr with
  | none => rfl
  | some node => cases node <;> rfl

end Behind

end BTree

/-! ## Rules for memory accesses -/

section Rules

variable {tree : BTree K D}

@[simp] theorem runs_nonNull (ptr : Option Ptr) (post : Ptr → BTree K D → Prop) :
    Runs (nonNull ptr) tree post ↔ ∃ address, ptr = some address ∧ post address tree := by
  simp [nonNull]

@[simp] theorem runs_getNode (ptr : Ptr) (post : Node K D → BTree K D → Prop) :
    Runs (getNode ptr) tree post ↔ ∃ node, tree.heap ptr = some node ∧ post node tree := by
  simp [getNode]

@[simp] theorem runs_getLeaf (ptr : Ptr) (post : LeafNode K D → BTree K D → Prop) :
    Runs (getLeaf ptr) tree post ↔ ∃ node, tree.heap ptr = some (.leaf node) ∧ post node tree := by
  simp only [getLeaf, runs_bind, runs_getNode]
  constructor
  · rintro ⟨node, found, holds⟩
    cases node with
    | leaf node => exact ⟨node, found, by simpa using holds⟩
    | inner node => simp at holds
  · rintro ⟨node, found, holds⟩
    exact ⟨.leaf node, found, by simpa using holds⟩

@[simp] theorem runs_getInner (ptr : Ptr) (post : InnerNode K → BTree K D → Prop) :
    Runs (getInner ptr) tree post ↔
      ∃ node, tree.heap ptr = some (.inner node) ∧ post node tree := by
  simp only [getInner, runs_bind, runs_getNode]
  constructor
  · rintro ⟨node, found, holds⟩
    cases node with
    | leaf node => simp at holds
    | inner node => exact ⟨node, found, by simpa using holds⟩
  · rintro ⟨node, found, holds⟩
    exact ⟨.inner node, found, by simpa using holds⟩

@[simp] theorem runs_setLeaf (ptr : Ptr) (node : LeafNode K D) (post : Unit → BTree K D → Prop) :
    Runs (setLeaf ptr node) tree post ↔ post () (tree.setNode ptr (some (.leaf node))) := by
  simp [setLeaf]

@[simp] theorem runs_setInner (ptr : Ptr) (node : InnerNode K) (post : Unit → BTree K D → Prop) :
    Runs (setInner ptr node) tree post ↔ post () (tree.setNode ptr (some (.inner node))) := by
  simp [setInner]

@[simp] theorem runs_addInt (a b : Nat) (post : Nat → BTree K D → Prop) :
    Runs (addInt a b) tree post ↔ a + b < 2 ^ 31 ∧ post (a + b) tree := by
  rw [addInt]
  split <;> simp_all

theorem runs_intSlot {n : Nat} (inRange : n < 2 ^ 31) (post : Nat → BTree K D → Prop) :
    Runs (intSlot n) tree post ↔ post n tree := by
  rw [intSlot, toInt_of_lt inRange, if_neg (by omega), runs_pure, Int.toNat_natCast]

section Slots

variable {α : Type}

@[simp] theorem runs_readSlot (buffer : Buffer α) (slot : Nat) (post : α → BTree K D → Prop) :
    Runs (readSlot buffer slot) tree post ↔
      ∃ value, buffer.read slot = some value ∧ post value tree := by
  simp [readSlot]

@[simp] theorem runs_writeSlot (buffer : Buffer α) (slot : Nat) (value : α)
    (post : Buffer α → BTree K D → Prop) :
    Runs (writeSlot buffer slot value) tree post ↔
      ∃ written, buffer.write slot value = some written ∧ post written tree := by
  simp [writeSlot]

theorem writeSlot_faults {target : Buffer α} {slot : Nat} {value : α}
    (outside : target.length ≤ slot) :
    Faults (writeSlot target slot value : M K D (Buffer α)) tree := by
  have noWrite : target.write slot value = none := by
    rw [Buffer.write, if_neg (by omega)]
  rw [writeSlot, noWrite]
  exact faults_throw ..

@[simp] theorem runs_copySlots (source : Buffer α) (first last : Nat) (target : Buffer α)
    (start : Nat) (post : Buffer α → BTree K D → Prop) :
    Runs (copySlots source first last target start) tree post ↔
      ∃ copied, source.copy first last target start = some copied ∧ post copied tree := by
  simp [copySlots]

@[simp] theorem runs_copySlotsBackward (source : Buffer α) (first last : Nat) (target : Buffer α)
    (stop : Nat) (post : Buffer α → BTree K D → Prop) :
    Runs (copySlotsBackward source first last target stop) tree post ↔
      ∃ copied, source.copyBackward first last target stop = some copied ∧ post copied tree := by
  simp [copySlotsBackward]

end Slots

/-- An assertion whose condition holds changes nothing, compiled in or not. -/
theorem runs_btreeAssert {which : Assertion} {condition : M K D Bool}
    {post : Unit → BTree K D → Prop}
    (holds : tree.checks which = true →
      Runs condition tree fun result final => result = true ∧ final = tree)
    (next : post () tree) : Runs (btreeAssert which condition) tree post := by
  simp only [btreeAssert, runs_bind, runs_get, runs_ite, runs_pure]
  split
  · rename_i enabled
    refine (holds enabled).mono ?_
    rintro result final ⟨rfl, rfl⟩
    simpa using next
  · exact next

end Rules

section Fill

variable {tree : BTree K D} {height : Nat} {sub : Tree K D}

theorem BTree.Represents.runs_level (stored : tree.Represents height sub)
    {post : Nat → BTree K D → Prop} :
    Runs (level sub.ptr) tree post ↔ post height tree := by
  obtain ⟨node, found, isLevel, -⟩ := stored.exists_node
  simp [level, found, isLevel]

theorem BTree.Represents.runs_slotuse (stored : tree.Represents height sub)
    {post : Nat → BTree K D → Prop} :
    Runs (slotuse sub.ptr) tree post ↔ post sub.used tree := by
  obtain ⟨node, found, -, used⟩ := stored.exists_node
  simp [slotuse, found, used]

end Fill

end PersistentBTree.Memory
