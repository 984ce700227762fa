import PersistentBTree.Memory.CopyProperties
import PersistentBTree.Memory.StructureProperties

/-! When a copy is equal to its source and fit for further calls. Whether a node
is within the sizes of an object is a matter of the shape of the tree, so it can
be asked of the source. -/

set_option autoImplicit false

namespace PersistentBTree.Memory

open Imperative Multimap

variable {K D : Type} {tree source after : BTree K D} {bounds : Bounds} {height : Nat}
  {sub twin : Tree K D}

namespace BTree

/-- The pairs, leaf by leaf, the inner nodes, the chain of leaves and the statistics
are those of `source`, and every node is within the sizes of the object that holds
the copy. -/
structure CopyOf (source after : BTree K D) : Prop where
  shape : source.Vacant ∧ after.Vacant ∨ ∃ height sub twin, source.Stored height sub ∧
    after.Stored height twin ∧ twin.bare = sub.bare
  leaves : after.leafBlocks.map Prod.snd = source.leafBlocks.map Prod.snd
  contents : after.contents = source.contents
  stats : after.mStats = source.mStats
  filled : after.Filled

/-- The nodes of the tree are within these sizes, the children of every inner node
fit into the array that is allocated for them, and the tree counts a pair if there
is a root. -/
structure HeldBy (source : BTree K D) (sizes : NodeSizes) : Prop where
  filled : BTree.Filled { source with sizes }
  children : ∀ ptr inner, source.heap ptr = some (.inner inner) →
    inner.slotuse + 1 ≤ uadd sizes.innerslotmax 1
  counted : source.mRoot ≠ none → source.mStats.itemcount ≠ 0

end BTree

/-! ## Fill and shape -/

namespace Tree

/-- Every node is within the bounds. -/
def Within (bounds : Bounds) : Tree K D → Prop
  | .leaf _ pairs => bounds.leafMin ≤ pairs.length ∧ pairs.length ≤ bounds.leafMax
  | .inner _ keys kids => (bounds.innerMin ≤ keys.length ∧ keys.length ≤ bounds.innerMax) ∧
      ∀ kid ∈ kids, kid.Within bounds

@[simp] theorem within_leaf (ptr : Ptr) (pairs : List (K × D)) : (leaf ptr pairs).Within bounds ↔
    bounds.leafMin ≤ pairs.length ∧ pairs.length ≤ bounds.leafMax := by
  rw [Within]

@[simp] theorem within_inner (ptr : Ptr) (keys : List K) (kids : Forest K D) :
    (inner ptr keys kids).Within bounds ↔
      (bounds.innerMin ≤ keys.length ∧ keys.length ≤ bounds.innerMax) ∧
        ∀ kid ∈ kids, kid.Within bounds := by
  rw [Within]

/-- The topmost node may use fewer slots. -/
def RootWithin (bounds : Bounds) : Tree K D → Prop
  | .leaf _ pairs => pairs.length ≤ bounds.leafMax
  | .inner _ keys kids => keys.length ≤ bounds.innerMax ∧ ∀ kid ∈ kids, kid.Within bounds

theorem within_bare : (tree : Tree K D) → (tree.bare.Within bounds ↔ tree.Within bounds)
  | .leaf _ _ => by simp
  | .inner _ _ kids => by
      rw [bare_inner, within_inner, within_inner, List.forall_mem_map]
      exact and_congr_right fun _ => forall₂_congr fun kid _ => within_bare kid

theorem rootWithin_bare (tree : Tree K D) : tree.bare.RootWithin bounds ↔ tree.RootWithin bounds := by
  cases tree with
  | leaf => simp [RootWithin]
  | inner ptr keys kids =>
      rw [bare_inner, RootWithin, RootWithin, List.forall_mem_map]
      exact and_congr_right fun _ => forall₂_congr fun kid _ => within_bare kid

theorem rootWithin_eq_of_bare {tree other : Tree K D} (same : tree.bare = other.bare) :
    tree.RootWithin bounds ↔ other.RootWithin bounds := by
  rw [← rootWithin_bare, same, rootWithin_bare]

end Tree

namespace BTree

/-- The bounds that `Filled` asks for. -/
def limits (sizes : NodeSizes) : Bounds :=
  ⟨sizes.minleafslots, sizes.leafslotmax, sizes.mininnerslots, sizes.innerslotmax⟩

theorem filled_iff : tree.Filled ↔ ∀ ptr node, tree.heap ptr = some node →
    Admits (limits tree.sizes) (tree.mRoot = some ptr) node := by
  refine forall₃_congr fun ptr node _ => ?_
  cases node <;> exact Iff.rfl

theorem Represents.within_iff (stored : tree.Represents height sub) :
    (∀ ptr ∈ sub.foot, ∀ node, tree.heap ptr = some node → Admits bounds False node) ↔
      sub.Within bounds := by
  induction height generalizing sub with
  | zero =>
      obtain ⟨ptr, pairs, rfl⟩ := stored.exists_leaf
      obtain ⟨leaf, found, stores⟩ := stored
      simp [found, Admits, stores.used, and_comm]
  | succ height ih =>
      obtain ⟨ptr, keys, kids, rfl⟩ := stored.exists_inner
      obtain ⟨⟨inner, found, -, stores⟩, below⟩ := stored
      have top : (∀ node, tree.heap ptr = some node → Admits bounds False node) ↔
          bounds.innerMin ≤ keys.length ∧ keys.length ≤ bounds.innerMax := by
        simp [found, Admits, stores.used, and_comm]
      rw [Tree.foot_inner, Multiset.forall_mem_cons, Tree.within_inner, top]
      refine and_congr_right fun _ => ⟨fun each kid member => ?_, fun each other inFoot => ?_⟩
      · exact (ih (below kid member)).mp fun other inKid =>
          each other (Forest.mem_foot.mpr ⟨kid, member, inKid⟩)
      · obtain ⟨kid, member, inKid⟩ := Forest.mem_foot.mp inFoot
        exact (ih (below kid member)).mpr (each kid member) other inKid

/-- Whether the nodes of a tree are within the bounds can be seen from its
shape. -/
theorem Stored.rootWithin_iff (whole : tree.Stored height sub) :
    (∀ ptr node, tree.heap ptr = some node → Admits bounds (tree.mRoot = some ptr) node) ↔
      sub.RootWithin bounds := by
  have inTree : ∀ ptr node, tree.heap ptr = some node → ptr ∈ sub.foot := fun ptr node found =>
    whole.allocated ptr (by simp [found])
  have nodup := whole.nodup
  cases height with
  | zero =>
      obtain ⟨ptr, pairs, rfl⟩ := whole.stored.exists_leaf
      obtain ⟨leaf, found, stores⟩ := whole.stored
      rw [Tree.RootWithin, ← stores.used]
      constructor
      · intro each
        exact (each ptr _ found).1
      · intro most other node otherFound
        obtain rfl : other = ptr := by simpa using inTree other node otherFound
        obtain rfl := Option.some.inj (found.symm.trans otherFound)
        exact ⟨most, fun notRoot => absurd whole.root notRoot⟩
  | succ height =>
      obtain ⟨ptr, keys, kids, rfl⟩ := whole.stored.exists_inner
      obtain ⟨⟨inner, found, -, stores⟩, below⟩ := whole.stored
      rw [Tree.foot_inner, Multiset.nodup_cons] at nodup
      have root : tree.mRoot = some ptr := whole.root
      rw [Tree.RootWithin, ← stores.used]
      constructor
      · intro each
        refine ⟨(each ptr _ found).1, fun kid member => (below kid member).within_iff.mp ?_⟩
        intro other inKid node otherFound
        refine (each other node otherFound).mono fun _ isRoot => ?_
        rw [root, Option.some.injEq] at isRoot
        exact nodup.1 (isRoot ▸ Forest.mem_foot.mpr ⟨kid, member, inKid⟩)
      · intro ⟨most, kidsWithin⟩ other node otherFound
        have inFoot := inTree other node otherFound
        rw [Tree.foot_inner, Multiset.mem_cons] at inFoot
        rcases inFoot with rfl | inFoot
        · obtain rfl := Option.some.inj (found.symm.trans otherFound)
          exact ⟨most, fun notRoot => absurd root notRoot⟩
        · obtain ⟨kid, member, inKid⟩ := Forest.mem_foot.mp inFoot
          exact ((below kid member).within_iff.mpr (kidsWithin kid member) other inKid node
            otherFound).mono fun _ => not_false

theorem Stored.filled_iff (whole : tree.Stored height sub) :
    tree.Filled ↔ sub.RootWithin (limits tree.sizes) :=
  BTree.filled_iff.trans whole.rootWithin_iff

theorem Stored.filled_sizes_iff (whole : tree.Stored height sub) (sizes : NodeSizes) :
    BTree.Filled { tree with sizes } ↔ sub.RootWithin (limits sizes) :=
  BTree.filled_iff.trans whole.rootWithin_iff

end BTree

theorem Tree.Within.fits {sizes : NodeSizes} : {tree : Tree K D} →
    tree.Within (BTree.limits sizes) → tree.Branches (uadd sizes.innerslotmax 1) → tree.Fits sizes
  | .leaf _ _, within, _ => (Tree.fits_leaf ..).mpr ((Tree.within_leaf ..).mp within).2
  | .inner _ _ _, within, branches => by
      rw [Tree.within_inner] at within
      rw [Tree.branches_inner] at branches
      exact (Tree.fits_inner ..).mpr ⟨within.1.2, branches.1, fun kid member =>
        (within.2 kid member).fits (branches.2 kid member)⟩

theorem Tree.RootWithin.fits {sizes : NodeSizes} (within : sub.RootWithin (BTree.limits sizes))
    (branches : sub.Branches (uadd sizes.innerslotmax 1)) : sub.Fits sizes := by
  cases sub with
  | leaf => exact (Tree.fits_leaf ..).mpr within
  | inner =>
      rw [Tree.branches_inner] at branches
      exact (Tree.fits_inner ..).mpr ⟨within.1, branches.1, fun kid member =>
        (within.2 kid member).fits (branches.2 kid member)⟩

/-! ## Copies -/

namespace BTree

/-- A stored copy is equal to its source when its nodes are filled. -/
theorem Stored.copyOf_iff (whole : source.Stored height sub) (copied : after.Stored height twin)
    (same : twin.bare = sub.bare) (stats : after.mStats = source.mStats) :
    source.CopyOf after ↔ BTree.Filled { source with sizes := after.sizes } := by
  rw [whole.filled_sizes_iff, ← Tree.rootWithin_eq_of_bare same, ← copied.filled_iff]
  constructor
  · exact CopyOf.filled
  · intro filled
    refine ⟨.inr ⟨height, sub, twin, whole, copied, same⟩, ?_, ?_, stats, filled⟩
    · rw [copied.leafBlocks_eq, whole.leafBlocks_eq, Tree.blocks_eq_of_bare same]
    · rw [copied.contents_eq, whole.contents_eq, ← Tree.pairs_bare, same, Tree.pairs_bare]

theorem Vacant.copyOf (vacant : source.Vacant) (nothing : after.Vacant) : source.CopyOf after where
  shape := .inl ⟨vacant, nothing⟩
  leaves := by rw [vacant.leafBlocks_eq, nothing.leafBlocks_eq]
  contents := by rw [contents, contents, vacant.leafBlocks_eq, nothing.leafBlocks_eq]
  stats := by rw [vacant.stats, nothing.stats]
  filled ptr node found := by
    rw [nothing.unused ptr] at found
    cases found

/-- Nothing is not an equal copy of a tree with a root. -/
theorem Stored.not_copyOf (whole : source.Stored height sub) (nothing : after.mRoot = none) :
    ¬ source.CopyOf after := by
  intro copy
  rcases copy.shape with ⟨vacant, -⟩ | ⟨_, _, _, -, copied, -⟩
  · cases vacant.root.symm.trans whole.root
  · rw [copied.root] at nothing
    cases nothing

end BTree

theorem BTree.Vacant.heldBy (vacant : source.Vacant) (sizes : NodeSizes) :
    source.HeldBy sizes := by
  refine ⟨fun ptr node found => ?_, fun ptr node found => ?_, fun root => absurd vacant.root root⟩
  · cases (vacant.unused ptr).symm.trans found
  · cases (vacant.unused ptr).symm.trans found

theorem BTree.Stored.heldBy_iff (whole : source.Stored height sub)
    (some_ : source.mStats.itemcount ≠ 0) (sizes : NodeSizes) :
    source.HeldBy sizes ∧ ¬ source.Wide ↔
      (sub.Fits sizes ∧ sub.Narrow) ∧ BTree.Filled { source with sizes } := by
  rw [whole.narrow_iff]
  constructor
  · intro ⟨held, narrow⟩
    have within := (whole.filled_sizes_iff sizes).mp held.filled
    exact ⟨⟨within.fits (whole.branches_iff.mpr held.children), narrow⟩, held.filled⟩
  · intro ⟨⟨fits, narrow⟩, filled⟩
    exact ⟨⟨filled, whole.branches_iff.mp fits.branches, fun _ => some_⟩, narrow⟩

/-- A tree with a root and no pairs is not held by any object. -/
theorem BTree.Stored.not_heldBy (whole : source.Stored height sub)
    (none_ : source.mStats.itemcount = 0) (sizes : NodeSizes) : ¬ source.HeldBy sizes := by
  intro held
  refine held.counted ?_ none_
  simp [whole.root]

/-- Assignment makes an equal copy exactly when the nodes fit the sizes of the
object that is written. -/
theorem assign_copyOf_iff (isTree : tree.IsTree) (isSource : source.IsTree) :
    Runs (assign source) tree (fun _ after => source.CopyOf after) ↔
      ¬ tree.Wide ∧ source.HeldBy tree.sizes ∧ ¬ source.Wide := by
  rcases isSource with vacant | ⟨height, sub, whole⟩
  · have counted : source.mStats.itemcount = 0 := by rw [vacant.stats]
    rw [(assign_none_runs isTree counted).runs_iff_and fun _ after cleared =>
      iff_true_intro (vacant.copyOf cleared.1)]
    simp only [vacant.heldBy, vacant.not_wide, not_false_eq_true, and_true]
  · by_cases counted : source.mStats.itemcount = 0
    · rw [(assign_none_runs isTree counted).runs_iff_and fun _ after cleared =>
        iff_false_intro (whole.not_copyOf cleared.1.root)]
      simp only [whole.not_heldBy counted, false_and, and_false]
    · rw [whole.heldBy_iff counted, ← and_assoc]
      refine (assign_some_runs isTree whole counted).runs_iff_and fun _ after copied => ?_
      obtain ⟨sizes, -, stats, twin, stored, same⟩ := copied
      rw [whole.copyOf_iff stored same stats, sizes]

/-- The copy constructor makes an equal copy exactly when the nodes fit the sizes
that happen to be in the new object. -/
theorem copyConstruct_copyOf_iff (isSource : source.IsTree) (sizes : NodeSizes)
    (checks : Assertion → Bool) :
    Runs (copyConstruct source) (BTree.uninitialised sizes checks source)
        (fun _ after => source.CopyOf after) ↔ source.HeldBy sizes ∧ ¬ source.Wide := by
  rcases isSource with vacant | ⟨height, sub, whole⟩
  · have counted : (BTree.uninitialised sizes checks source).mStats.itemcount = 0 := by
      rw [BTree.uninitialised, vacant.stats]
    have same : (BTree.uninitialised sizes checks source).Vacant :=
      ⟨rfl, rfl, rfl, vacant.stats, fun _ => rfl⟩
    refine iff_of_true ((copyConstruct_none_runs counted).mono fun _ after unchanged => ?_)
      ⟨vacant.heldBy sizes, vacant.not_wide⟩
    rw [unchanged]
    exact vacant.copyOf same
  · by_cases counted : source.mStats.itemcount = 0
    · refine iff_of_false (fun runs => ?_) fun held => whole.not_heldBy counted sizes held.1
      have fresh : (BTree.uninitialised sizes checks source).mStats.itemcount = 0 := counted
      obtain ⟨⟨⟩, after, returned, copy⟩ := runs
      have unchanged := (copyConstruct_none_runs fresh).holds returned
      exact whole.not_copyOf (by rw [unchanged]; rfl) copy
    · rw [whole.heldBy_iff counted]
      refine (copyConstruct_some_runs whole counted).runs_iff_and fun _ after copied => ?_
      obtain ⟨sizesAfter, stats, twin, stored, same⟩ := copied
      rw [whole.copyOf_iff stored same stats, sizesAfter]

end PersistentBTree.Memory
