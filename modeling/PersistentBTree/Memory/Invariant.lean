import PersistentBTree.Memory.Represents

/-! The pairs that a `btree` object stores, read from the heap, and the
invariant of the whole object. -/

set_option autoImplicit false

namespace PersistentBTree.Memory

open Imperative Multimap

variable {K D : Type}

/-! ## Reading the pairs -/

/-- The pairs in the used slots. -/
def LeafNode.pairs (node : LeafNode K D) : List (K × D) :=
  (List.range node.slotuse).filterMap fun slot => do
    let key ← node.slotkey.read slot
    let data ← node.slotdata.read slot
    pure (key, data)

/-- The children in the used slots. -/
def InnerNode.children (node : InnerNode K) : List Ptr :=
  (List.range (node.slotuse + 1)).filterMap node.childid.read

namespace BTree

/-- The leaves `height` levels below the node, from left to right. -/
def blocksBelow (tree : BTree K D) : (height : Nat) → Ptr → List (Block K D)
  | 0, ptr =>
      match tree.heap ptr with
      | some (.leaf node) => [(ptr, node.pairs)]
      | _ => []
  | height + 1, ptr =>
      match tree.heap ptr with
      | some (.inner node) => node.children.flatMap (tree.blocksBelow height)
      | _ => []

/-- The leaves of the tree, from left to right. -/
def leafBlocks (tree : BTree K D) : List (Block K D) :=
  match tree.mRoot with
  | none => []
  | some root =>
      match tree.heap root with
      | none => []
      | some node => tree.blocksBelow node.level root

/-- The stored pairs, from left to right. -/
def contents (tree : BTree K D) : List (K × D) := pairsIn tree.leafBlocks

end BTree

theorem filterMap_range {α : Type} {values : List α} {slot : Nat → Option α}
    (reads : ∀ i (bound : i < values.length), slot i = some values[i]) :
    (List.range values.length).filterMap slot = values := by
  induction values using List.reverseRecOn with
  | nil => rfl
  | append_singleton values value ih =>
      have last := reads values.length (by simp)
      have earlier := ih fun i bound => by
        rw [reads i (by simp; omega), List.getElem_append_left bound]
      simp only [List.getElem_concat_length] at last
      rw [List.length_append, List.length_singleton, List.range_succ, List.filterMap_append,
        earlier]
      simp [last]

theorem LeafNode.Stores.pairs_eq {node : LeafNode K D} {capacity : Nat} {pairs : List (K × D)}
    (stores : node.Stores capacity pairs) : node.pairs = pairs := by
  rw [LeafNode.pairs, stores.used]
  refine filterMap_range fun i bound => ?_
  rw [stores.keys.read_getElem (by simpa using bound), stores.data.read_getElem (by simpa using
    bound)]
  simp

theorem InnerNode.Stores.children_eq {node : InnerNode K} {capacity : Nat} {keys : List K}
    {children : List Ptr} (stores : node.Stores capacity keys children) :
    node.children = children := by
  rw [InnerNode.children, stores.used, ← stores.count]
  exact filterMap_range fun i bound => stores.children.read_getElem bound

namespace BTree

variable {tree : BTree K D} {height : Nat} {sub : Tree K D}

theorem Represents.blocksBelow_eq (stored : tree.Represents height sub) :
    tree.blocksBelow height sub.ptr = sub.blocks := by
  induction height generalizing sub with
  | zero =>
      obtain ⟨ptr, pairs, rfl⟩ := stored.exists_leaf
      obtain ⟨node, found, stores⟩ := stored
      simp [blocksBelow, found, stores.pairs_eq]
  | succ height ih =>
      obtain ⟨ptr, keys, kids, rfl⟩ := stored.exists_inner
      obtain ⟨⟨node, found, -, stores⟩, below⟩ := stored
      have each : ∀ kid ∈ kids, tree.blocksBelow height kid.ptr = kid.blocks :=
        fun kid member => ih (below kid member)
      simp only [blocksBelow, Tree.ptr_inner, found, stores.children_eq, Tree.blocks_inner,
        Forest.blocks, List.flatMap_map]
      exact List.flatMap_congr each

theorem Represents.leafAt (stored : tree.Represents height sub) {leaf : Ptr}
    {pairs : List (K × D)} (member : (leaf, pairs) ∈ sub.blocks) : tree.LeafAt leaf pairs := by
  induction height generalizing sub with
  | zero =>
      obtain ⟨ptr, inLeaf, rfl⟩ := stored.exists_leaf
      rw [Tree.blocks_leaf, List.mem_singleton] at member
      cases member
      exact stored
  | succ height ih =>
      obtain ⟨ptr, keys, kids, rfl⟩ := stored.exists_inner
      rw [Tree.blocks_inner, Forest.blocks, List.mem_flatMap] at member
      obtain ⟨kid, inKids, inBlocks⟩ := member
      exact ih (stored.2 kid inKids) inBlocks

theorem Represents.leaves_le_foot (stored : tree.Represents height sub) :
    (sub.leaves : Multiset Ptr) ≤ sub.foot := by
  induction height generalizing sub with
  | zero =>
      obtain ⟨ptr, pairs, rfl⟩ := stored.exists_leaf
      simp
  | succ height ih =>
      obtain ⟨ptr, keys, kids, rfl⟩ := stored.exists_inner
      have each : ∀ forest : Forest K D, (∀ kid ∈ forest, tree.Represents height kid) →
          (Forest.leaves forest : Multiset Ptr) ≤ Forest.foot forest := by
        intro forest below
        induction forest with
        | nil => simp
        | cons kid forest rest =>
            rw [Forest.leaves_cons, Forest.foot_cons, ← Multiset.coe_add]
            exact add_le_add (ih (below kid List.mem_cons_self))
              (rest fun other member => below other (List.mem_cons_of_mem _ member))
      rw [Tree.leaves_inner, Tree.foot_inner]
      exact (each kids stored.2).trans (Multiset.le_cons_self _ _)

/-! ## The invariant -/

/-- The object stores the subtree, the topmost node uses at least `least`
slots, and nothing else is in memory. -/
structure Intact (bounds : Bounds) (least : Nat) (tree : BTree K D) [LinearOrder K]
    (height : Nat) (sub : Tree K D) : Prop where
  root : tree.mRoot = some sub.ptr
  stored : tree.Represents height sub
  wellFormed : WellFormed bounds least height sub
  sorted : Sorted sub.pairs
  nodup : sub.foot.Nodup
  allocated : ∀ ptr, tree.heap ptr ≠ none → ptr ∈ sub.foot
  unused : ∀ ptr, tree.brk ≤ ptr → tree.heap ptr = none
  chained : tree.Chained sub.leaves
  leaves : tree.mStats.leaves = sub.leaves.length
  innernodes : tree.mStats.innernodes = sub.innerCount

/-- The object stores nothing. -/
structure Vacant (tree : BTree K D) : Prop where
  root : tree.mRoot = none
  head : tree.mHeadleaf = none
  tail : tree.mTailleaf = none
  stats : tree.mStats = {}
  unused : ∀ ptr, tree.heap ptr = none

/-- Either nothing is stored, or a tree whose root is in use; and the pairs are
counted. -/
structure Invariant [LinearOrder K] (bounds : Bounds) (tree : BTree K D) : Prop where
  shape : tree.Vacant ∨ ∃ height sub, tree.Intact bounds 1 height sub
  itemcount : tree.mStats.itemcount = tree.contents.length

/-- The object stores the subtree and nothing else. Nothing is said of the order
of the keys or of how full the nodes are. -/
structure Stored (tree : BTree K D) (height : Nat) (sub : Tree K D) : Prop where
  root : tree.mRoot = some sub.ptr
  stored : tree.Represents height sub
  nodup : sub.foot.Nodup
  allocated : ∀ ptr, tree.heap ptr ≠ none → ptr ∈ sub.foot
  unused : ∀ ptr, tree.brk ≤ ptr → tree.heap ptr = none
  chained : tree.Chained sub.leaves
  leaves : tree.mStats.leaves = sub.leaves.length
  innernodes : tree.mStats.innernodes = sub.innerCount

/-- The memory of the object is that of a tree, or nothing. -/
def IsTree (tree : BTree K D) : Prop := tree.Vacant ∨ ∃ height sub, tree.Stored height sub

theorem Intact.leaves_nodup [LinearOrder K] {bounds : Bounds} {least : Nat}
    (intact : Intact bounds least tree height sub) : sub.leaves.Nodup :=
  Multiset.coe_nodup.mp (Multiset.nodup_of_le intact.stored.leaves_le_foot intact.nodup)

/-- The number of pairs is kept apart from the rest. -/
theorem Intact.setItemcount [LinearOrder K] {bounds : Bounds} {least : Nat}
    (intact : Intact bounds least tree height sub) (itemcount : Nat) :
    Intact bounds least { tree with mStats.itemcount := itemcount } height sub where
  root := intact.root
  stored := intact.stored.congr rfl fun _ _ => rfl
  wellFormed := intact.wellFormed
  sorted := intact.sorted
  nodup := intact.nodup
  allocated := intact.allocated
  unused := intact.unused
  chained := intact.chained.congr (fun _ _ => rfl) rfl rfl
  leaves := intact.leaves
  innernodes := intact.innernodes

theorem Vacant.empty (sizes : NodeSizes) (checks : Assertion → Bool) :
    (BTree.empty sizes checks : BTree K D).Vacant :=
  ⟨rfl, rfl, rfl, rfl, fun _ => rfl⟩

theorem Vacant.leafBlocks_eq (vacant : tree.Vacant) : tree.leafBlocks = [] := by
  simp [leafBlocks, vacant.root]

theorem Represents.leafBlocks_eq (stored : tree.Represents height sub)
    (root : tree.mRoot = some sub.ptr) : tree.leafBlocks = sub.blocks := by
  obtain ⟨node, found, isLevel, -⟩ := stored.exists_node
  simp only [leafBlocks, root, found, isLevel]
  exact stored.blocksBelow_eq

theorem Stored.leafBlocks_eq (whole : tree.Stored height sub) : tree.leafBlocks = sub.blocks :=
  whole.stored.leafBlocks_eq whole.root

theorem Represents.contents_eq (stored : tree.Represents height sub)
    (root : tree.mRoot = some sub.ptr) : tree.contents = sub.pairs := by
  rw [contents, stored.leafBlocks_eq root, Tree.pairs]

theorem Stored.contents_eq (whole : tree.Stored height sub) : tree.contents = sub.pairs :=
  whole.stored.contents_eq whole.root

theorem Intact.whole [LinearOrder K] {bounds : Bounds} {least : Nat}
    (intact : Intact bounds least tree height sub) : tree.Stored height sub where
  root := intact.root
  stored := intact.stored
  nodup := intact.nodup
  allocated := intact.allocated
  unused := intact.unused
  chained := intact.chained
  leaves := intact.leaves
  innernodes := intact.innernodes

/-- With the order and the fill of the nodes, the tree is intact. -/
theorem Stored.intact [LinearOrder K] {bounds : Bounds} {least : Nat}
    (whole : tree.Stored height sub) (formed : WellFormed bounds least height sub)
    (sorted : Sorted sub.pairs) : Intact bounds least tree height sub where
  root := whole.root
  stored := whole.stored
  wellFormed := formed
  sorted := sorted
  nodup := whole.nodup
  allocated := whole.allocated
  unused := whole.unused
  chained := whole.chained
  leaves := whole.leaves
  innernodes := whole.innernodes

theorem Intact.leafBlocks_eq [LinearOrder K] {bounds : Bounds} {least : Nat}
    (intact : Intact bounds least tree height sub) : tree.leafBlocks = sub.blocks :=
  intact.whole.leafBlocks_eq

theorem Intact.contents_eq [LinearOrder K] {bounds : Bounds} {least : Nat}
    (intact : Intact bounds least tree height sub) : tree.contents = sub.pairs :=
  intact.whole.contents_eq

theorem Invariant.isTree [LinearOrder K] {bounds : Bounds} (holds : Invariant bounds tree) :
    tree.IsTree := by
  rcases holds.shape with vacant | ⟨height, sub, intact⟩
  · exact .inl vacant
  · exact .inr ⟨height, sub, intact.whole⟩

theorem Invariant.sorted [LinearOrder K] {bounds : Bounds} (holds : Invariant bounds tree) :
    Sorted tree.contents := by
  rcases holds.shape with vacant | ⟨height, sub, intact⟩
  · simp [contents, vacant.leafBlocks_eq, Sorted]
  · rw [intact.contents_eq]
    exact intact.sorted

end BTree

end PersistentBTree.Memory
