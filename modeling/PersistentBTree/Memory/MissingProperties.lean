import PersistentBTree.Memory.Erase
import PersistentBTree.Memory.Invariant
import PersistentBTree.Memory.SearchProperties

/-! The descent of `erase(iterator)` looks for a leaf. Below a node that does not
hold this leaf it finds nothing, and it leaves the tree as it was. -/

set_option autoImplicit false

namespace PersistentBTree.Memory

open Imperative Multimap

variable {K D : Type} [LinearOrder K] [Inhabited K] {tree : BTree K D} {bounds : Bounds}
  {height : Nat} {sub : Tree K D} {iter : Iterator}

/-! ## Parts of a tree -/

section Parts

omit [Inhabited K]

/-- A stored subtree whose topmost node is in use. -/
structure BTree.Part (tree : BTree K D) (bounds : Bounds) (height : Nat) (sub : Tree K D) :
    Prop where
  stored : tree.Represents height sub
  formed : WellFormed bounds 1 height sub
  sorted : Sorted sub.pairs

/-- A null pointer, or a node of this level. -/
def BTree.Beside (tree : BTree K D) (bounds : Bounds) (height : Nat) (side : Option Ptr) : Prop :=
  ∀ ptr, side = some ptr → ∃ sub, tree.Part bounds height sub ∧ sub.ptr = ptr

namespace BTree.Part

theorem kid {ptr : Ptr} {keys : List K} {kids : Forest K D} (leafSome : 1 ≤ bounds.leafMin)
    (innerSome : 1 ≤ bounds.innerMin)
    (part : tree.Part bounds (height + 1) (.inner ptr keys kids)) {kid : Tree K D}
    (member : kid ∈ kids) : tree.Part bounds height kid := by
  obtain ⟨front, back, rfl⟩ := List.append_of_mem member
  have formed := part.formed.2.2.2.2 kid member
  have least : 1 ≤ bounds.least height := by
    cases height with
    | zero => exact leafSome
    | succ height => exact innerSome
  have sorted := part.sorted
  rw [Tree.pairs_inner, Forest.pairs_append, Forest.pairs_cons] at sorted
  exact ⟨part.stored.2 kid member, formed.weaken (least.trans formed.used_ge),
    (sorted_append.mp (sorted_append.mp sorted).2.1).1⟩

/-- Every node of a part is the topmost one of some part. -/
theorem exists_of_mem (leafSome : 1 ≤ bounds.leafMin) (innerSome : 1 ≤ bounds.innerMin)
    (part : tree.Part bounds height sub) {ptr : Ptr} (member : ptr ∈ sub.foot) :
    ∃ level inner, tree.Part bounds level inner ∧ inner.ptr = ptr := by
  induction height generalizing sub with
  | zero =>
      obtain ⟨top, pairs, rfl⟩ := part.stored.exists_leaf
      rw [Tree.foot_leaf, Multiset.mem_singleton] at member
      exact ⟨0, _, part, member.symm⟩
  | succ height ih =>
      obtain ⟨top, keys, kids, rfl⟩ := part.stored.exists_inner
      rw [Tree.foot_inner, Multiset.mem_cons] at member
      rcases member with rfl | below
      · exact ⟨height + 1, _, part, rfl⟩
      · obtain ⟨kid, inKids, inKid⟩ := Forest.mem_foot.mp below
        exact ih (part.kid leafSome innerSome inKids) inKid

/-- The children are in the slots up to `slotuse`. -/
theorem exists_child (leafSome : 1 ≤ bounds.leafMin) (innerSome : 1 ≤ bounds.innerMin) {ptr : Ptr}
    {keys : List K} {kids : Forest K D}
    (part : tree.Part bounds (height + 1) (.inner ptr keys kids)) {slot : Nat}
    (bound : slot ≤ keys.length) :
    ∃ node kid, tree.heap ptr = some (.inner node) ∧ node.slotuse = keys.length ∧
      node.childid.read slot = some kid.ptr ∧ kid ∈ kids ∧ tree.Part bounds height kid := by
  obtain ⟨⟨node, found, -, stores⟩, -⟩ := part.stored
  have count := part.formed.2.2.1
  obtain ⟨front, kid, back, rfl, rfl⟩ := exists_split_at kids
    (show slot < kids.length by omega)
  have held := stores.children
  rw [List.map_append, List.map_cons] at held
  have read := held.read
  rw [List.length_map] at read
  have member : kid ∈ front ++ kid :: back := by simp
  exact ⟨node, kid, found, stores.used, read, member, part.kid leafSome innerSome member⟩

end BTree.Part

/-! ## The neighbours of a child -/

theorem leftOf_beside (leafSome : 1 ≤ bounds.leafMin) (innerSome : 1 ≤ bounds.innerMin) {ptr : Ptr}
    {keys : List K} {kids : Forest K D}
    (part : tree.Part bounds (height + 1) (.inner ptr keys kids)) {slot : Nat}
    (bound : slot ≤ keys.length) {left leftparent : Option Ptr}
    (beside : tree.Beside bounds (height + 1) left) :
    Runs (leftOf ptr slot left leftparent) tree fun mine after =>
      after = tree ∧ tree.Beside bounds height mine.1 := by
  unfold leftOf
  split
  · cases left with
    | none => exact (runs_pure ..).mpr ⟨rfl, nofun⟩
    | some other =>
        obtain ⟨neighbour, isPart, rfl⟩ := beside other rfl
        obtain ⟨address, otherKeys, otherKids, rfl⟩ := isPart.stored.exists_inner
        obtain ⟨node, kid, found, used, read, -, kidPart⟩ :=
          isPart.exists_child leafSome innerSome (Nat.sub_le otherKeys.length 1)
        have least : 1 ≤ otherKeys.length := isPart.formed.1
        simp only [runs_bind, runs_getInner, runs_readSlot, runs_pure]
        refine ⟨node, found, kid.ptr, ?_, trivial, ?_⟩
        · rwa [used, usub, if_pos least]
        · rintro _ ⟨⟩
          exact ⟨kid, kidPart, rfl⟩
  · obtain ⟨node, kid, found, -, read, -, kidPart⟩ :=
      part.exists_child leafSome innerSome ((Nat.sub_le slot 1).trans bound)
    simp only [runs_bind, runs_getInner, runs_readSlot, runs_pure]
    refine ⟨node, found, kid.ptr, read, trivial, ?_⟩
    rintro _ ⟨⟩
    exact ⟨kid, kidPart, rfl⟩

theorem rightOf_beside (leafSome : 1 ≤ bounds.leafMin) (innerSome : 1 ≤ bounds.innerMin) {ptr : Ptr}
    {keys : List K} {kids : Forest K D}
    (part : tree.Part bounds (height + 1) (.inner ptr keys kids)) {slot : Nat}
    (bound : slot ≤ keys.length) {right rightparent : Option Ptr}
    (beside : tree.Beside bounds (height + 1) right) :
    Runs (rightOf ptr slot right rightparent) tree fun mine after =>
      after = tree ∧ tree.Beside bounds height mine.1 := by
  obtain ⟨node, -, found, used, -⟩ := part.exists_child leafSome innerSome bound
  unfold rightOf
  rw [runs_bind]
  refine (runs_getInner ..).mpr ⟨node, found, ?_⟩
  split
  · cases right with
    | none => exact (runs_pure ..).mpr ⟨rfl, nofun⟩
    | some other =>
        obtain ⟨neighbour, isPart, rfl⟩ := beside other rfl
        obtain ⟨address, otherKeys, otherKids, rfl⟩ := isPart.stored.exists_inner
        obtain ⟨node, kid, found, -, read, -, kidPart⟩ :=
          isPart.exists_child leafSome innerSome (Nat.zero_le otherKeys.length)
        simp only [runs_bind, runs_getInner, runs_readSlot, runs_pure]
        refine ⟨node, found, kid.ptr, read, trivial, ?_⟩
        rintro _ ⟨⟩
        exact ⟨kid, kidPart, rfl⟩
  · rename_i notLast
    rw [used] at notLast
    obtain ⟨node', kid, found', -, read, -, kidPart⟩ :=
      part.exists_child leafSome innerSome (Nat.lt_of_le_of_ne bound notLast)
    obtain rfl := Node.inner.inj (Option.some.inj (found.symm.trans found'))
    simp only [runs_bind, runs_readSlot, runs_pure]
    refine ⟨kid.ptr, read, trivial, ?_⟩
    rintro _ ⟨⟩
    exact ⟨kid, kidPart, rfl⟩

end Parts

/-! ## The search -/

/-- The loop over the children finds nothing when none of the calls does. -/
private theorem searchChildren_missing {inner : Ptr} {node : InnerNode K} {keys : List K} {key : K}
    {descend : Nat → M K D (Result K)} (found : tree.heap inner = some (.inner node))
    (holds : node.slotkey.Holds keys) (used : node.slotuse = keys.length)
    (readKey : iter.key.run tree = .ok (key, tree))
    (descends : ∀ slot ≤ keys.length, Runs (descend slot) tree fun result after =>
      result = .missing ∧ after = tree) {remaining slot : Nat}
    (total : remaining + slot = keys.length + 1) (few : keys.length ≤ 2 ^ 30) :
    Runs (searchChildren iter inner descend remaining slot) tree fun result after =>
      result = none ∧ after = tree := by
  induction remaining generalizing slot with
  | zero => exact (runs_pure ..).mpr ⟨rfl, rfl⟩
  | succ remaining ih =>
      rw [searchChildren, runs_bind]
      refine (descends slot (by omega)).mono ?_
      rintro result after ⟨rfl, rfl⟩
      rw [if_pos (by rfl), runs_bind]
      refine (runs_getInner ..).mpr ⟨node, found, ?_⟩
      have rest : Runs (addInt slot 1 >>= searchChildren iter inner descend remaining) after
          fun result final => result = none ∧ final = after := by
        rw [runs_bind, runs_addInt]
        exact ⟨by omega, ih (by omega)⟩
      split
      · rename_i inside
        rw [used] at inside
        rw [runs_bind, runs_readSlot]
        refine ⟨keys[slot], holds.read_getElem inside, ?_⟩
        rw [runs_bind]
        refine ⟨key, after, readKey, ?_⟩
        dsimp only
        split
        · exact (runs_pure ..).mpr ⟨rfl, rfl⟩
        · exact rest
      · exact rest

/-- Below a node that does not hold the leaf of the iterator nothing is found
and nothing changes. -/
theorem eraseIterDescend_missing (leafSome : 1 ≤ bounds.leafMin) (innerSome : 1 ≤ bounds.innerMin)
    (searchable : tree.Searchable) {leaf : Ptr} (isLeaf : iter.currnode = some leaf) {key : K}
    (readKey : iter.key.run tree = .ok (key, tree)) (part : tree.Part bounds height sub)
    (outside : leaf ∉ sub.leaves) {left right leftparent rightparent parent : Option Ptr}
    {parentslot : Nat} (leftSide : tree.Beside bounds height left)
    (rightSide : tree.Beside bounds height right) :
    Runs (eraseIterDescend (height + 1) iter sub.ptr left right leftparent rightparent parent
      parentslot) tree fun result after => result = .missing ∧ after = tree := by
  induction height generalizing sub left right leftparent rightparent parent parentslot with
  | zero =>
      obtain ⟨ptr, pairs, rfl⟩ := part.stored.exists_leaf
      obtain ⟨node, found, -⟩ := part.stored
      have elsewhere : some ptr ≠ iter.currnode := by
        rw [isLeaf]
        rintro ⟨⟩
        exact outside (by simp)
      change Runs (eraseIterDescend 1 iter ptr left right leftparent rightparent parent parentslot)
        tree _
      rw [eraseIterDescend, runs_bind]
      refine (runs_getNode ..).mpr ⟨_, found, ?_⟩
      simp only [if_pos elsewhere]
      exact (runs_pure ..).mpr ⟨rfl, rfl⟩
  | succ height ih =>
      obtain ⟨ptr, keys, kids, rfl⟩ := part.stored.exists_inner
      obtain ⟨⟨node, found, -, stores⟩, -⟩ := part.stored
      have sorted := part.sorted
      rw [Tree.pairs_inner] at sorted
      rw [eraseIterDescend, runs_bind]
      refine (runs_getNode ..).mpr ⟨_, found, ?_⟩
      simp only [runs_bind]
      refine ⟨key, tree, readKey, ?_⟩
      rw [stores.used]
      have few : keys.length ≤ 2 ^ 30 := stores.used ▸ searchable ptr _ found
      refine findLower_runs stores.keys (separators_sorted part.formed.2.2.2.1 sorted)
        (finds_of_le List.countP_le_length few) fun front back split _ _ => ?_
      have bound : front.length ≤ keys.length := by
        rw [split, List.length_append]
        exact Nat.le_add_right _ _
      refine (searchChildren_missing found stores.keys stores.used readKey (fun slot inside => ?_)
        (Nat.sub_add_cancel (bound.trans (Nat.le_succ _))) few).mono ?_
      · obtain ⟨node', kid, found', -, read, inKids, kidPart⟩ :=
          part.exists_child leafSome innerSome inside
        obtain rfl := Node.inner.inj (Option.some.inj (found.symm.trans found'))
        have kidOutside : leaf ∉ kid.leaves := fun inKid => outside (by
          rw [Tree.leaves_inner, Forest.leaves, Forest.blocks, List.map_flatMap]
          exact List.mem_flatMap.mpr ⟨kid, inKids, inKid⟩)
        rw [descendTo, runs_bind]
        refine (leftOf_beside leafSome innerSome part inside leftSide).mono ?_
        rintro ⟨myleft, myleftparent⟩ after ⟨rfl, leftMine⟩
        rw [runs_bind]
        refine (rightOf_beside leafSome innerSome part inside rightSide).mono ?_
        rintro ⟨myright, myrightparent⟩ final ⟨rfl, rightMine⟩
        rw [runs_bind]
        exact (runs_readSlot ..).mpr ⟨kid.ptr, read, ih kidPart kidOutside leftMine rightMine⟩
      · rintro result after ⟨rfl, rfl⟩
        exact (runs_pure ..).mpr ⟨rfl, rfl⟩

end PersistentBTree.Memory
