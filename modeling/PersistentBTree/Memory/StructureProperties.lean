import PersistentBTree.Memory.ReachableProperties
import PersistentBTree.Memory.Structure

/-! The nodes of every reachable tree form a B+ tree with exact separators and a
linked chain of leaves. -/

set_option autoImplicit false

namespace PersistentBTree.Memory

open Imperative Multimap

variable {K D : Type} [LinearOrder K] {bounds : Bounds} {tree : BTree K D} {height least : Nat}
  {sub : Tree K D}

namespace BTree

omit [LinearOrder K] in
theorem Represents.keysBelow_eq (stored : tree.Represents height sub) :
    tree.keysBelow height sub.ptr = sub.pairs.map Prod.fst := by
  rw [keysBelow, stored.blocksBelow_eq, Tree.pairs]

/-- Neighbouring children are separated by the last key of the left one. -/
private theorem separates_of_stores {node : InnerNode K} {capacity : Nat} {keys : List K}
    {kids : Forest K D} {slot : Nat}
    (stores : node.Stores capacity keys (kids.map Tree.ptr))
    (below : ∀ kid ∈ kids, tree.Represents height kid) (matching : keys.map some = separators kids)
    (sorted : Sorted (Forest.pairs kids)) (bound : slot < keys.length) :
    tree.Separates height node slot := by
  obtain ⟨frontKeys, key, backKeys, rfl, rfl⟩ := exists_split_at keys bound
  have count := stores.count
  simp only [List.length_map, List.length_append, List.length_cons] at count
  obtain ⟨front, kid, rest, rfl, size⟩ : ∃ front kid rest, kids = front ++ kid :: rest ∧
      front.length = frontKeys.length := exists_split_at kids (by omega)
  simp only [List.length_append, List.length_cons] at count
  cases rest with
  | nil =>
      simp only [List.length_nil] at count
      omega
  | cons next back =>
      obtain ⟨-, isLast, -⟩ := separators_between matching size
      obtain ⟨lower, pair, kidPairs, rfl⟩ := lastKeyOf_eq_some isLast
      have held := stores.children
      rw [List.map_append, List.map_cons] at held
      have heldNext := held
      rw [List.map_cons, List.append_cons] at heldNext
      have first := held.read
      have second := heldNext.read
      simp only [List.length_map, List.length_append, List.length_singleton, size] at first second
      simp only [Forest.pairs_append, Forest.pairs_cons] at sorted
      obtain ⟨-, restSorted, -⟩ := sorted_append.mp sorted
      obtain ⟨kidSorted, -, across⟩ := sorted_append.mp restSorted
      refine ⟨pair.1, kid.ptr, next.ptr, stores.keys.read, first, second, ?_⟩
      rw [(below kid (by simp)).keysBelow_eq, (below next (by simp)).keysBelow_eq]
      have inKid : pair ∈ kid.pairs := by simp [kidPairs]
      refine ⟨List.mem_map_of_mem inKid, fun other member => ?_, fun other member => ?_⟩
      · obtain ⟨smaller, inPairs, rfl⟩ := List.mem_map.mp member
        exact kidSorted.le_lastKeyOf isLast smaller inPairs
      · obtain ⟨larger, inPairs, rfl⟩ := List.mem_map.mp member
        exact across pair inKid larger (List.mem_append_left _ inPairs)

theorem Represents.layered (stored : tree.Represents height sub)
    (formed : WellFormed bounds least height sub) (sorted : Sorted sub.pairs) :
    tree.Layered height sub.ptr := by
  induction height generalizing sub least with
  | zero =>
      obtain ⟨ptr, pairs, rfl⟩ := stored.exists_leaf
      obtain ⟨node, found, stores⟩ := stored
      exact ⟨node, found, by rw [stores.pairs_eq, stores.used]⟩
  | succ height ih =>
      obtain ⟨ptr, keys, kids, rfl⟩ := stored.exists_inner
      obtain ⟨⟨node, found, isLevel, stores⟩, below⟩ := stored
      obtain ⟨-, -, count, matching, kidsFormed⟩ := formed
      rw [Tree.pairs_inner] at sorted
      refine ⟨node, found, isLevel, fun slot bound => ?_, fun slot bound => ?_⟩
      · have inKids : slot < kids.length := by
          rw [stores.used] at bound
          omega
        obtain ⟨front, kid, back, rfl, rfl⟩ := exists_split_at kids inKids
        have held := stores.children
        rw [List.map_append, List.map_cons] at held
        have read := held.read
        rw [List.length_map] at read
        rw [Forest.pairs_append, Forest.pairs_cons] at sorted
        have kidSorted := (sorted_append.mp (sorted_append.mp sorted).2.1).1
        exact ⟨kid.ptr, read, ih (below kid (by simp)) (kidsFormed kid (by simp)) kidSorted⟩
      · exact separates_of_stores stores below matching sorted (by rwa [← stores.used])

/-- An object that keeps its invariant has a sound representation. -/
theorem Invariant.sound (positive : 1 ≤ bounds.leafMin) (holds : tree.Invariant bounds) :
    tree.Sound := by
  rcases holds.shape with vacant | ⟨height, sub, intact⟩
  · have nothing := vacant.leafBlocks_eq
    refine ⟨?_, holds.sorted, ?_, ?_, ?_, ?_, ?_, ?_, ?_⟩ <;>
      simp [contents, nothing, vacant.root, vacant.head, vacant.tail]
  · have leaves : tree.leafBlocks.map Prod.fst = sub.leaves := by rw [intact.leafBlocks_eq]; rfl
    have some_ : tree.contents ≠ [] := by
      rw [intact.contents_eq]
      exact intact.wellFormed.pairs_ne_nil_of_used positive intact.wellFormed.used_ge
    have leavesSome : sub.leaves ≠ [] := by
      intro none_
      have noBlocks : sub.blocks = [] := List.map_eq_nil_iff.mp none_
      rw [intact.contents_eq, Tree.pairs, noBlocks] at some_
      exact some_ rfl
    have chained := intact.chained
    refine ⟨fun root isRoot => ?_, holds.sorted, fun front leaf back split => ?_, ?_, ?_, ?_, ?_, ?_,
      ?_⟩
    · rw [intact.root] at isRoot
      cases isRoot
      exact ⟨height, intact.stored.layered intact.wellFormed intact.sorted⟩
    · rw [leaves] at split
      rw [split] at chained
      exact chained.exists_leaf
    · rw [leaves]
      exact intact.leaves_nodup
    · rw [leaves, chained.2.1]
    · rw [leaves, chained.2.2]
    · simp [intact.root, some_]
    · simp [chained.2.1, leavesSome, some_]
    · simp [chained.2.2, leavesSome, some_]

/-! ## How full the nodes are -/

/-- The used slots of a node are within the bounds; the topmost node may use
less. -/
def Admits (bounds : Bounds) (isTop : Prop) : Node K D → Prop
  | .leaf leaf => leaf.slotuse ≤ bounds.leafMax ∧ (¬ isTop → bounds.leafMin ≤ leaf.slotuse)
  | .inner inner => inner.slotuse ≤ bounds.innerMax ∧ (¬ isTop → bounds.innerMin ≤ inner.slotuse)

omit [LinearOrder K] in
theorem Admits.mono {isTop wider : Prop} {node : Node K D} (admits : Admits bounds isTop node)
    (implies : ¬ wider → ¬ isTop) : Admits bounds wider node := by
  cases node with
  | leaf => exact admits.imp_right fun least notTop => least (implies notTop)
  | inner => exact admits.imp_right fun least notTop => least (implies notTop)

omit [LinearOrder K] in
/-- A child uses at least as many slots as any node but the root must. -/
private theorem Represents.admits_ptr (stored : tree.Represents height sub)
    (formed : WellFormed bounds (bounds.least height) height sub) {node : Node K D}
    (found : tree.heap sub.ptr = some node) : Admits bounds False node := by
  cases height with
  | zero =>
      obtain ⟨ptr, pairs, rfl⟩ := stored.exists_leaf
      obtain ⟨leaf, atTop, stores⟩ := stored
      obtain rfl := Option.some.inj (atTop.symm.trans found)
      exact ⟨stores.used ▸ formed.2, fun _ => stores.used ▸ formed.1⟩
  | succ height =>
      obtain ⟨ptr, keys, kids, rfl⟩ := stored.exists_inner
      obtain ⟨⟨inner, atTop, isLevel, stores⟩, -⟩ := stored
      obtain rfl := Option.some.inj (atTop.symm.trans found)
      exact ⟨stores.used ▸ formed.2.1, fun _ => stores.used ▸ formed.1⟩

omit [LinearOrder K] in
theorem Represents.admits (stored : tree.Represents height sub)
    (formed : WellFormed bounds least height sub) {ptr : Ptr} {node : Node K D}
    (within : ptr ∈ sub.foot) (found : tree.heap ptr = some node) :
    Admits bounds (ptr = sub.ptr) node := by
  induction height generalizing sub least with
  | zero =>
      obtain ⟨top, pairs, rfl⟩ := stored.exists_leaf
      obtain ⟨leaf, atTop, stores⟩ := stored
      rw [Tree.foot_leaf, Multiset.mem_singleton] at within
      subst within
      obtain rfl := Option.some.inj (atTop.symm.trans found)
      exact ⟨stores.used ▸ formed.2, fun notTop => absurd rfl notTop⟩
  | succ height ih =>
      obtain ⟨top, keys, kids, rfl⟩ := stored.exists_inner
      obtain ⟨⟨inner, atTop, isLevel, stores⟩, below⟩ := stored
      obtain ⟨-, most, -, -, kidsFormed⟩ := formed
      rw [Tree.foot_inner, Multiset.mem_cons] at within
      rcases within with rfl | within
      · obtain rfl := Option.some.inj (atTop.symm.trans found)
        exact ⟨stores.used ▸ most, fun notTop => absurd rfl notTop⟩
      · obtain ⟨kid, member, inKid⟩ := Forest.mem_foot.mp within
        by_cases isTop : ptr = kid.ptr
        · subst isTop
          exact ((below kid member).admits_ptr (kidsFormed kid member) found).mono fun _ => id
        · exact (ih (below kid member) (kidsFormed kid member) inKid).mono fun _ => isTop

/-- Every node is filled within the bounds when they are the bounds of the
sizes. -/
theorem Invariant.filled (holds : tree.Invariant tree.sizes.bounds)
    (ordered : tree.sizes.minleafslots ≤ tree.sizes.mininnerslots) : tree.Filled := by
  intro ptr node found
  rcases holds.shape with vacant | ⟨height, sub, intact⟩
  · rw [vacant.unused ptr] at found
    cases found
  · have within := intact.allocated ptr (by simp [found])
    have inside := intact.stored.admits intact.wellFormed within found
    have notTop : tree.mRoot ≠ some ptr → ¬ ptr = sub.ptr := by
      rintro notRoot rfl
      exact notRoot intact.root
    cases node with
    | leaf leaf =>
        refine ⟨inside.1, fun notRoot => ?_⟩
        have fewest := inside.2 (notTop notRoot)
        rwa [NodeSizes.bounds, Nat.min_eq_left ordered] at fewest
    | inner inner => exact ⟨inside.1, fun notRoot => inside.2 (notTop notRoot)⟩

end BTree

end PersistentBTree.Memory
