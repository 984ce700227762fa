import PersistentBTree.Tables.EraseDescentProperties

/-! Where the descents of `erase_one` and `erase(iterator)` return the same. In an inner node
they test for the root in different ways, and `erase_one_descend` takes a node with both
neighbours for it. -/

set_option autoImplicit false

namespace PersistentBTree.Tables.NullSafe

open Imperative Pages Multimap
open Memory (Tree Forest Bounds WellFormed)

variable {K D : Type} [LinearOrder K] {table : Table (Slots K D)} {bounds : Bounds}
  {height : Nat} {key : K} {iter : Iterator} {sub kid : Tree K D} {front back kids : Forest K D}
  {ptr : Memory.Ptr} {keys : List K} {place below : Place} {leaves : List PageId}

/-- The node over the leaf with the key has no neighbour on one side at least, and there is a
leaf behind the two that are merged. The flags say whether the node has neighbours. -/
def MergesAtEdge (table : Table (Slots K D)) (key : K) :
    (height : Nat) → (n : PageId) → (left right : Bool) → Prop
  | 0, _, _, _ => True
  | 1, n, left, right => (left && right) = false ∧
      (table.nodeAt (childAt table n (max (table.lowerSlot n key) 1 : Nat))).nextleaf ≠ -1
  | height + 2, n, left, right =>
      let slot := table.lowerSlot n key
      MergesAtEdge table key (height + 1) (childAt table n slot) (left || decide (slot ≠ 0))
        (right || decide (slot ≠ (table.nodeAt n).slotuse))

/-- The child that the search for the key selects, and what the call for it is given. -/
structure Onward (table : Table (Slots K D)) (bounds : Bounds) (key : K) (iter : Iterator)
    (leaves : List PageId) (height : Nat) (ptr : Memory.Ptr) (front : Forest K D) (kid : Tree K D)
    (back : Forest K D) (place below : Place) : Prop where
  length : front.length = table.lowerSlot ptr key
  path : OnPath table bounds key iter leaves height kid
  goes : (placeOf (arrays K D) ptr (table.lowerSlot ptr key) place).run table =
    .ok ((kid.ptr, below), table)
  descends : Descends table bounds height ptr front kid back place below

theorem OnPath.onward (path : OnPath table bounds key iter leaves (height + 1) (.inner ptr keys kids))
    (positive : Positive bounds) (beside : Beside table bounds (height + 1) place) :
    ∃ front kid back below, kids = front ++ kid :: back ∧
      Onward table bounds key iter leaves height ptr front kid back place below := by
  obtain ⟨front, kid, back, rfl, length, kidPath⟩ := path.below positive
  obtain ⟨found, _, returned, rfl, isKid, descends⟩ :=
    placeOf_runs path.represents path.formed path.nodup positive beside
  obtain ⟨child, below⟩ := found
  subst isKid
  exact ⟨front, kid, back, below, rfl, length, kidPath, length ▸ returned, descends⟩

/-- A node of another level than the root is not the root. -/
theorem OnPath.notRoot (path : OnPath table bounds key iter leaves height sub)
    (above : height < (table.nodeAt table.mRootId).level) :
    (table.store.file (sub.ptr : PageId)).id ≠ table.mRootId := by
  intro same
  rw [← same, path.ids sub.ptr sub.ptr_mem_foot, path.represents.level_eq] at above
  exact lt_irrefl height above

namespace Onward

theorem childAt_slot
    (path : OnPath table bounds key iter leaves (height + 1) (.inner ptr keys (front ++ kid :: back)))
    (onward : Onward table bounds key iter leaves height ptr front kid back place below) :
    childAt table ptr (table.lowerSlot ptr key : Nat) = kid.ptr := by
  rw [← onward.length]
  exact childAt_eq path.represents

theorem mergesAtEdge_iff
    (path : OnPath table bounds key iter leaves (height + 2) (.inner ptr keys (front ++ kid :: back)))
    (onward : Onward table bounds key iter leaves (height + 1) ptr front kid back place below) :
    MergesAtEdge table key (height + 2) ptr place.left.isSome place.right.isSome ↔
      MergesAtEdge table key (height + 1) kid.ptr below.left.isSome below.right.isSome := by
  obtain ⟨used, count⟩ := slotuse_eq path.represents
  rw [List.length_append, List.length_cons, onward.length] at count
  have first : decide (table.lowerSlot ptr key ≠ 0) = decide (front ≠ []) := by
    apply decide_eq_decide.mpr
    rw [← onward.length, ne_eq, List.length_eq_zero_iff]
  have last : decide (table.lowerSlot ptr key ≠ (table.nodeAt ptr).slotuse) =
      decide (back ≠ []) := by
    apply decide_eq_decide.mpr
    rw [ne_eq, ne_eq, ← List.length_eq_zero_iff, used]
    omega
  rw [onward.descends.left, onward.descends.right, ← first, ← last, ← onward.childAt_slot path]
  exact Iff.rfl

/-- The leaf behind which the merge looks is the second child at least. -/
theorem rightMerged_eq
    (path : OnPath table bounds key iter leaves 1 (.inner ptr keys (front ++ kid :: back)))
    (onward : Onward table bounds key iter leaves 0 ptr front kid back place below) :
    rightMerged kid.ptr below = childAt table ptr (max (table.lowerSlot ptr key) 1 : Nat) := by
  have here := onward.path.represents
  obtain ⟨left, right, parent, -, merging, -⟩ :=
    onward.descends.placed.merging here.allocated here.level_eq true
  obtain ⟨before, behind, first, second, split, size, -, isRight⟩ :=
    onward.descends.adjacent left right parent merging
  have represents := path.represents
  rw [split, ← List.singleton_append, ← List.append_assoc] at represents
  rw [← merging.right_eq, isRight, ← childAt_eq represents, ← onward.length, ← size,
    List.length_append, List.length_singleton]

end Onward

/-! ## Both descents -/

/-- Both descents into the node return the same. -/
def BothReturn (table : Table (Slots K D)) (key : K) (iter : Iterator) (height : Nat) (n : PageId)
    (place : Place) : Prop :=
  ∃ result after, Done height n place table result after ∧
    (eraseOneDescend (arrays K D) samePage direct (height + 1) key n place).run table =
      .ok (result, after) ∧
    (eraseIterDescend (arrays K D) samePage direct (height + 1) iter n place).run table =
      .ok (result, after)

theorem bothReturn_leaf (path : OnPath table bounds key iter leaves 0 kid)
    (placed : LeafPlaced table kid.ptr place) (unset : Unset table)
    (notRoot : (table.store.file kid.ptr).id ≠ table.mRootId)
    (merges : table.minnodeslots = 0 ∨ (table.nodeAt (rightMerged kid.ptr place)).nextleaf ≠ -1) :
    BothReturn table key iter 0 kid.ptr place := by
  obtain ⟨ptr, pairs, rfl⟩ := path.formed.exists_leaf
  obtain ⟨result, after, returned, done⟩ :=
    (@eraseInLeaf_runsIf _ _ _ _ _ _ iter.currslot placed unset notRoot).runs merges
  refine ⟨result, after, done, ?_, ?_⟩
  · exact (descendByKey_leaf path).trans returned
  · exact (eraseIterDescend_leaf path).trans returned

section Settled

variable {result : Result K} {middle : Table (Slots K D)}
  (path : OnPath table bounds key iter leaves (height + 1) (.inner ptr keys (front ++ kid :: back)))
  (onward : Onward table bounds key iter leaves height ptr front kid back place below)
  (done : Done height kid.ptr below table result middle)

include path onward done

/-- What the descent into the child leaves is what its parent continues from. -/
theorem Onward.settled :
    Branch middle height ptr ∧ (middle.nodeAt ptr).slotuse = (table.nodeAt ptr).slotuse ∧
      table.lowerSlot ptr key ≤ (table.nodeAt ptr).slotuse ∧ 1 ≤ (table.nodeAt ptr).slotuse ∧
      (result.fixmerge = true →
        ((middle.nodeAt (childAt middle ptr (table.lowerSlot ptr key : Nat))).slotuse = 0 ↔
          table.lowerSlot ptr key ≠ 0)) := by
  have branch := branch_of_represents path.represents path.nodup
  have above : height < (table.nodeAt ptr).level := branch.level ▸ Nat.lt_succ_self height
  have some_ : 1 ≤ keys.length := path.formed.1
  refine ⟨branch.frame done.frame, done.frame.slotuse ptr above,
    lowerSlot_le_upperSlot.trans upperSlot_le, (slotuse_eq path.represents).1 ▸ some_, ?_⟩
  intro merged
  have emptied := done.emptied merged
  rw [onward.descends.parentslot, onward.length] at emptied
  have isChild : childAt middle ptr (table.lowerSlot ptr key : Nat) = kid.ptr :=
    (congrFun (done.frame.childs ptr above) _).trans (onward.childAt_slot path)
  rw [isChild]
  exact emptied

/-- The parent takes out the child that was emptied, if there is one, before it is mended. -/
theorem Onward.settles (parentIn : ∀ n ∈ place.parent, middle.store.Allocated n) :
    ∃ myres after, (∀ isRoot, (eraseInInner (arrays K D) samePage direct isRoot ptr
        (table.lowerSlot ptr key) result place).run middle = (fixNode samePage direct isRoot
          (trimRoot (arrays K D) ptr) false ptr myres place).run after) ∧ Plain myres ∧
      Frame (height + 1) table after ∧ after.store.Allocated ptr ∧
      (after.nodeAt ptr).slotuse =
        (table.nodeAt ptr).slotuse - (if 0 < table.minnodeslots then 1 else 0) ∧
      childAt after ptr 0 = childAt table ptr 0 := by
  obtain ⟨branch, used, inside, some_, emptied⟩ := onward.settled path done
  obtain ⟨myres, after, goesOn, plain, frame, left, first⟩ := @eraseInInner_settles K D middle height
    result place _ ptr _ branch (used ▸ inside) (used ▸ some_) done.lastkey emptied parentIn
  have above : height < (table.nodeAt ptr).level := by
    rw [path.represents.2.1]
    exact Nat.lt_succ_self height
  refine ⟨myres, after, goesOn, plain, (done.frame.mono (Nat.le_succ height)).trans frame, ?_, ?_, ?_⟩
  · exact (frame.allocated ptr branch.level.ge).mpr branch.inUse
  · rw [left, used, done.fixmerge]
    simp only [decide_eq_true_eq]
  · exact first.trans (congrFun (done.frame.childs ptr above) 0)

end Settled

end PersistentBTree.Tables.NullSafe
