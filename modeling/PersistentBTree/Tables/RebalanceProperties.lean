import PersistentBTree.Tables.Arrays
import PersistentBTree.Tables.Rebalance

/-! What the merge and shift helpers leave in the nodes of a table whose slots work. -/

set_option autoImplicit false

namespace PersistentBTree.Tables

open Imperative Pages

variable {K D S : Type}

/-- The node with other slots, of which `slotuse` are in use. -/
def Node.refilled (node : Node S) (slotuse : Nat) (slots : S) : Node S :=
  { node with slotuse, slots }

namespace Slots

/-- The pairs of a page, of which `count` from `dest` on are those of `source` from `l` on. -/
def splicePairs (source target : Slots K D) (l : Int) (count : Nat) (dest : Int) : Slots K D :=
  { target with
    key := splice source.key target.key l count dest
    data := splice source.data target.data l count dest }

/-- The same for keys and children, whose numbers differ. -/
def spliceChilds (source target : Slots K D) (l : Int) (keys childs : Nat) (dest : Int) :
    Slots K D :=
  { target with
    key := splice source.key target.key l keys dest
    child := splice source.child target.child l childs dest }

def writeKey (slots : Slots K D) (slot : Int) (key : K) : Slots K D :=
  { slots with key := Function.update slots.key slot key }

def pair (slots : Slots K D) (slot : Int) : K × D := (slots.key slot, slots.data slot)

theorem pair_splicePairs {source target : Slots K D} {l dest : Int} {count : Nat} :
    (source.splicePairs target l count dest).pair = splice source.pair target.pair l count dest := by
  funext slot
  simp only [pair, splicePairs, splice]
  split <;> rfl

end Slots

namespace Table

variable {table : Table (Slots K D)} {n : PageId} {node : Node (Slots K D)} {used : Nat}
  {slots : Slots K D}

theorem pairs_of_nodeAt (atN : table.nodeAt n = node.refilled used slots) :
    table.pairs n = firstCells slots.pair used := by
  unfold pairs pairAt cells
  rw [atN]
  rfl

theorem keys_of_nodeAt (atN : table.nodeAt n = node.refilled used slots) :
    table.keys n = firstCells slots.key used := by
  unfold keys cells
  rw [atN]
  rfl

theorem childs_of_nodeAt (atN : table.nodeAt n = node.refilled used slots) :
    table.childs n = firstCells slots.child (used + 1) := by
  unfold childs cells
  rw [atN]
  rfl

end Table

/-- Two nodes and their parent. -/
structure Family (table : Table S) (left right parent : PageId)
    (leftNode rightNode parentNode : Node S) : Prop where
  apart : left ≠ right
  parentLeft : parent ≠ left
  parentRight : parent ≠ right
  leftIn : table.store.Allocated left
  rightIn : table.store.Allocated right
  parentIn : table.store.Allocated parent
  atLeft : table.nodeAt left = leftNode
  atRight : table.nodeAt right = rightNode
  atParent : table.nodeAt parent = parentNode

section Helpers

variable [LinearOrder K] {table : Table (Slots K D)} {left right parent : PageId}
  {leftNode rightNode parentNode : Node (Slots K D)} {parentslot shift : Nat}

/-- Merging leaves stops if there is no leaf behind them: it follows the link of the right
one unless this is 0. -/
theorem mergeLeaves_runsIf (family : Family table left right parent leftNode rightNode parentNode)
    (id : (table.store.file left).id = left) (nextLeft : rightNode.nextleaf ≠ left)
    (nextRight : rightNode.nextleaf ≠ right) :
    RunsIf (rightNode.nextleaf = 0 ∨ table.store.Allocated rightNode.nextleaf)
      (mergeLeaves (arrays K D) left right parent) table fun _ after =>
        after.nodeAt left = { leftNode.refilled (leftNode.slotuse + rightNode.slotuse)
            (rightNode.slots.splicePairs leftNode.slots 0 rightNode.slotuse leftNode.slotuse) with
          nextleaf := rightNode.nextleaf } ∧
        after.nodeAt right = rightNode.refilled 0 rightNode.slots ∧
        after.nodeAt rightNode.nextleaf = (if rightNode.nextleaf = 0 then
            table.nodeAt rightNode.nextleaf
          else { table.nodeAt rightNode.nextleaf with prevleaf := left }) ∧
        after.mTailleafId = (if rightNode.nextleaf = 0 then left else table.mTailleafId) ∧
        table.Touches [left, right, rightNode.nextleaf] after := by
  obtain ⟨apart, -, -, leftIn, rightIn, -, rfl, rfl, -⟩ := family
  have rightLeft := apart.symm
  have leftNext := nextLeft.symm
  have rightNext := nextRight.symm
  have count : (((table.nodeAt right).slotuse : Int) - 0).toNat = (table.nodeAt right).slotuse := by
    omega
  unfold mergeLeaves copyLeafKeys copyLeafData
  refine .after ((runs_slotuse _).mpr ⟨leftIn, .after ((runs_slotuse _).mpr ⟨rightIn, ?_⟩)⟩)
  refine .after (copyLoop_runs (moves_moveKey right left) rightIn leftIn (.inl rightLeft) ?_)
  refine .after (copyLoop_runs (moves_moveData right left) rightIn leftIn (.inl rightLeft) ?_)
  refine .after ((runs_setSlotuse ..).mpr ⟨leftIn, .after ((runs_getNode _).mpr ⟨rightIn, ?_⟩)⟩)
  simp only [Table.nodeAt_setUsed_of_ne rightLeft, Table.nodeAt_setCells_of_ne rightLeft]
  refine .after ((runs_setNextleaf ..).mpr ⟨leftIn, .after ((runs_pageId _).mpr ?_)⟩)
  simp only [Table.id_setNext, Table.id_setUsed, Table.id_setCells, id]
  by_cases isZero : (table.nodeAt right).nextleaf = 0
  · have zeroLeft : (0 : PageId) ≠ left := isZero ▸ nextLeft
    have zeroRight : (0 : PageId) ≠ right := isZero ▸ nextRight
    simp only [isZero, ne_eq, not_true_eq_false, if_false, if_true, true_or]
    refine .of_runs ?_ trivial
    simp only [runs_bind, runs_modify, runs_setSlotuse, runs_pure, count,
      Table.nodeAt_setCells_of_ne, Table.nodeAt_setUsed_of_ne, Table.nodeAt_setNext_of_ne,
      Table.nodeAt_setCells_self, Table.nodeAt_setUsed_self, Table.nodeAt_setNext_self,
      Table.nodeAt_setTail, ne_eq, apart, rightLeft, zeroLeft, zeroRight, not_false_eq_true,
      Table.cells, keyColumn, dataColumn]
    refine ⟨rightIn, rfl, rfl, trivial, rfl, ?_⟩
    refine Table.Touches.setNode (.setTail ?_ _) (by simp) _
    repeat refine Table.Touches.setNode ?_ (by simp) _
    exact Table.Touches.refl _ _
  · simp only [isZero, ne_eq, not_false_eq_true, if_false, if_true, false_or]
    by_cases nextIn : table.store.Allocated (table.nodeAt right).nextleaf
    · refine .of_runs ?_ nextIn
      simp only [runs_bind, runs_setPrevleaf, runs_setSlotuse, runs_pure, count,
        Table.nodeAt_setCells_of_ne, Table.nodeAt_setUsed_of_ne, Table.nodeAt_setNext_of_ne,
        Table.nodeAt_setPrev_of_ne, Table.nodeAt_setCells_self, Table.nodeAt_setUsed_self,
        Table.nodeAt_setNext_self, Table.nodeAt_setPrev_self, ne_eq, apart, rightLeft, nextLeft,
        nextRight, leftNext, rightNext, not_false_eq_true, Table.cells, keyColumn, dataColumn]
      refine ⟨nextIn, rightIn, rfl, rfl, trivial, rfl, ?_⟩
      repeat refine Table.Touches.setNode ?_ (by simp) _
      exact Table.Touches.refl _ _
    · exact .inr ⟨nextIn, Faults.bind (Faults.bind (faults_getNode nextIn))⟩

theorem mergeInner_runs (family : Family table left right parent leftNode rightNode parentNode) :
    Runs (mergeInner (arrays K D) left right parent parentslot) table fun _ after =>
      after.nodeAt left = leftNode.refilled (leftNode.slotuse + 1 + rightNode.slotuse)
        (rightNode.slots.spliceChilds
          (leftNode.slots.writeKey leftNode.slotuse (parentNode.slots.key parentslot)) 0
          rightNode.slotuse (rightNode.slotuse + 1) (leftNode.slotuse + 1)) ∧
      after.nodeAt right = rightNode.refilled 0 rightNode.slots ∧
      after.mTailleafId = table.mTailleafId ∧ table.Touches [left, right] after := by
  obtain ⟨apart, parentLeft, parentRight, leftIn, rightIn, parentIn, rfl, rfl, rfl⟩ := family
  have rightLeft := apart.symm
  unfold mergeInner copyInnerKeys copyInnerChilds
  simp only [runs_bind, runs_slotuse, runs_getKey, runs_setKey, runs_setSlotuse]
  refine ⟨leftIn, parentIn, leftIn, leftIn, rightIn, ?_⟩
  refine copyLoop_runs (moves_moveKey right left) rightIn leftIn (.inl rightLeft) ?_
  refine copyLoop_runs (moves_moveChild right left) rightIn leftIn (.inl rightLeft) ?_
  have keyCount : ((table.nodeAt right).slotuse - 0 : Int).toNat = (table.nodeAt right).slotuse := by
    omega
  have childCount : ((table.nodeAt right).slotuse + 1 - 0 : Int).toNat =
      (table.nodeAt right).slotuse + 1 := by omega
  simp only [runs_pure, keyCount, childCount, Table.nodeAt_setCells_of_ne,
    Table.nodeAt_setUsed_of_ne, Table.nodeAt_setCells_self, Table.nodeAt_setUsed_self, ne_eq, apart,
    rightLeft, not_false_eq_true, Table.cells, keyColumn, childColumn]
  refine ⟨leftIn, rightIn, rfl, rfl, rfl, ?_⟩
  repeat refine Table.Touches.setNode ?_ (by simp) _
  exact Table.Touches.refl _ _

theorem shiftLeftLeaf_runs (family : Family table left right parent leftNode rightNode parentNode)
    (isShift : ((rightNode.slotuse : Int) - leftNode.slotuse) / 2 = shift) :
    Runs (shiftLeftLeaf (arrays K D) left right parent parentslot) table fun _ after =>
      after.nodeAt left = leftNode.refilled (leftNode.slotuse + shift)
        (rightNode.slots.splicePairs leftNode.slots 0 shift leftNode.slotuse) ∧
      after.nodeAt right = rightNode.refilled (rightNode.slotuse - shift)
        (rightNode.slots.splicePairs rightNode.slots shift (rightNode.slotuse - shift) 0) ∧
      after.nodeAt parent = parentNode.refilled parentNode.slotuse
        (if parentslot < parentNode.slotuse then
          parentNode.slots.writeKey parentslot
            ((rightNode.slots.splicePairs leftNode.slots 0 shift leftNode.slotuse).key
              (leftNode.slotuse + shift - 1))
        else parentNode.slots) ∧
      after.mTailleafId = table.mTailleafId ∧ table.Touches [left, right, parent] after := by
  obtain ⟨apart, parentLeft, parentRight, leftIn, rightIn, parentIn, rfl, rfl, rfl⟩ := family
  have rightLeft := apart.symm
  have leftParent := parentLeft.symm
  have rightParent := parentRight.symm
  unfold shiftLeftLeaf copyLeafKeys copyLeafData
  simp only [runs_bind, runs_slotuse, isShift]
  refine ⟨leftIn, rightIn, ?_⟩
  refine copyLoop_runs (moves_moveKey right left) rightIn leftIn (.inl rightLeft) ?_
  refine copyLoop_runs (moves_moveData right left) rightIn leftIn (.inl rightLeft) ?_
  simp only [runs_setSlotuse]
  refine ⟨leftIn, ?_⟩
  refine copyLoop_runs (moves_moveKey right right) rightIn rightIn (.inr (.inl (by omega))) ?_
  refine copyLoop_runs (moves_moveData right right) rightIn rightIn (.inr (.inl (by omega))) ?_
  refine ⟨rightIn, parentIn, ?_⟩
  have shiftNat : ((shift : Int) - 0).toNat = shift := by omega
  have leftNat : (((table.nodeAt left).slotuse : Int) + shift).toNat =
      (table.nodeAt left).slotuse + shift := by omega
  have rightNat : (((table.nodeAt right).slotuse : Int) - shift).toNat =
      (table.nodeAt right).slotuse - shift := by omega
  simp only [runs_ite, runs_bind, runs_getKey, runs_setKey, runs_pure, shiftNat, leftNat, rightNat,
    Table.nodeAt_setCells_of_ne, Table.nodeAt_setUsed_of_ne, Table.nodeAt_setCells_self,
    Table.nodeAt_setUsed_self, ne_eq, apart, rightLeft, leftParent, rightParent, parentLeft,
    parentRight, not_false_eq_true, Table.mTailleafId_setCells, Table.mTailleafId_setUsed,
    Table.allocated_setCells, Table.allocated_setUsed, Table.cells, keyColumn, dataColumn]
  by_cases inside : parentslot < (table.nodeAt parent).slotuse
  · rw [if_pos inside, if_pos inside]
    refine ⟨leftIn, parentIn, rfl, rfl, rfl, trivial, ?_⟩
    repeat refine Table.Touches.setNode ?_ (by simp) _
    exact Table.Touches.refl _ _
  · rw [if_neg inside, if_neg inside]
    refine ⟨rfl, rfl, rfl, trivial, ?_⟩
    repeat refine Table.Touches.setNode ?_ (by simp) _
    exact Table.Touches.refl _ _

theorem shiftLeftInner_runs (family : Family table left right parent leftNode rightNode parentNode)
    (isShift : ((rightNode.slotuse : Int) - leftNode.slotuse) / 2 = shift) (some_ : 1 ≤ shift) :
    Runs (shiftLeftInner (arrays K D) left right parent parentslot) table fun _ after =>
      after.nodeAt left = leftNode.refilled (leftNode.slotuse + shift)
        (rightNode.slots.spliceChilds
          (leftNode.slots.writeKey leftNode.slotuse (parentNode.slots.key parentslot)) 0
          (shift - 1) shift (leftNode.slotuse + 1)) ∧
      after.nodeAt right = rightNode.refilled (rightNode.slotuse - shift)
        (rightNode.slots.spliceChilds rightNode.slots shift (rightNode.slotuse - shift)
          (rightNode.slotuse + 1 - shift) 0) ∧
      after.nodeAt parent = parentNode.refilled parentNode.slotuse
        (parentNode.slots.writeKey parentslot (rightNode.slots.key (shift - 1))) ∧
      after.mTailleafId = table.mTailleafId ∧ table.Touches [left, right, parent] after := by
  obtain ⟨apart, parentLeft, parentRight, leftIn, rightIn, parentIn, rfl, rfl, rfl⟩ := family
  have rightLeft := apart.symm
  have leftParent := parentLeft.symm
  have rightParent := parentRight.symm
  unfold shiftLeftInner copyInnerKeys copyInnerChilds
  simp only [runs_bind, runs_slotuse, isShift, runs_getKey, runs_setKey, runs_setSlotuse]
  refine ⟨leftIn, rightIn, parentIn, leftIn, leftIn, ?_⟩
  refine copyLoop_runs (moves_moveKey right left) rightIn leftIn (.inl rightLeft) ?_
  refine copyLoop_runs (moves_moveChild right left) rightIn leftIn (.inl rightLeft) ?_
  refine ⟨leftIn, rightIn, parentIn, ?_⟩
  refine copyLoop_runs (moves_moveKey right right) rightIn rightIn (.inr (.inl (by omega))) ?_
  refine copyLoop_runs (moves_moveChild right right) rightIn rightIn (.inr (.inl (by omega))) ?_
  have keyCount : ((shift : Int) - 1 - 0).toNat = shift - 1 := by omega
  have childCount : ((shift : Int) - 0).toNat = shift := by omega
  have leftNat : (((table.nodeAt left).slotuse : Int) + 1 + (shift - 1)).toNat =
      (table.nodeAt left).slotuse + shift := by omega
  have rightNat : (((table.nodeAt right).slotuse : Int) - shift).toNat =
      (table.nodeAt right).slotuse - shift := by omega
  have rightCount : (((table.nodeAt right).slotuse : Int) + 1 - shift).toNat =
      (table.nodeAt right).slotuse + 1 - shift := by omega
  simp only [keyCount, childCount, leftNat, rightNat, rightCount,
    Table.nodeAt_setCells_of_ne, Table.nodeAt_setUsed_of_ne, Table.nodeAt_setCells_self,
    Table.nodeAt_setUsed_self, ne_eq, apart, rightLeft, leftParent, rightParent, parentLeft,
    parentRight, not_false_eq_true, Table.mTailleafId_setCells, Table.mTailleafId_setUsed,
    Table.allocated_setCells, Table.allocated_setUsed, Table.cells, keyColumn, childColumn]
  refine ⟨rightIn, rfl, rfl, rfl, trivial, ?_⟩
  repeat refine Table.Touches.setNode ?_ (by simp) _
  exact Table.Touches.refl _ _

theorem shiftRightLeaf_runs (family : Family table left right parent leftNode rightNode parentNode)
    (isShift : ((leftNode.slotuse : Int) - rightNode.slotuse) / 2 = shift)
    (below : shift ≤ leftNode.slotuse) :
    Runs (shiftRightLeaf (arrays K D) left right parent parentslot) table fun _ after =>
      after.nodeAt left = leftNode.refilled (leftNode.slotuse - shift)
        (leftNode.slots.splicePairs leftNode.slots (leftNode.slotuse - shift) shift 0) ∧
      after.nodeAt right = rightNode.refilled (rightNode.slotuse + shift)
        (rightNode.slots.splicePairs rightNode.slots 0 rightNode.slotuse shift) ∧
      after.nodeAt parent = parentNode.refilled parentNode.slotuse
        (parentNode.slots.writeKey parentslot
          ((leftNode.slots.splicePairs leftNode.slots (leftNode.slotuse - shift) shift 0).key
            (leftNode.slotuse - shift - 1))) ∧
      after.mTailleafId = table.mTailleafId ∧ table.Touches [left, right, parent] after := by
  obtain ⟨apart, parentLeft, parentRight, leftIn, rightIn, parentIn, rfl, rfl, rfl⟩ := family
  have rightLeft := apart.symm
  have leftParent := parentLeft.symm
  have rightParent := parentRight.symm
  unfold shiftRightLeaf copyBackwardsLeafKeys copyBackwardsLeafData copyLeafKeys copyLeafData
  simp only [runs_bind, runs_slotuse, isShift]
  refine ⟨leftIn, rightIn, ?_⟩
  refine copyBackwardsLoop_runs (moves_moveKey right right) rightIn rightIn (.inr (by omega)) ?_
  refine copyBackwardsLoop_runs (moves_moveData right right) rightIn rightIn (.inr (by omega)) ?_
  simp only [runs_setSlotuse]
  refine ⟨rightIn, ?_⟩
  refine copyLoop_runs (moves_moveKey left left) leftIn leftIn (.inr (.inl (by omega))) ?_
  refine copyLoop_runs (moves_moveData left left) leftIn leftIn (.inr (.inl (by omega))) ?_
  have count : (((table.nodeAt left).slotuse : Int) -
      ((table.nodeAt left).slotuse - shift)).toNat = shift := by omega
  have rightCount : (((table.nodeAt right).slotuse : Int) - 0).toNat =
      (table.nodeAt right).slotuse := by omega
  have place : ((table.nodeAt right).slotuse : Int) + shift - ((table.nodeAt right).slotuse - 0) =
      shift := by omega
  have leftNat : (((table.nodeAt left).slotuse : Int) - shift).toNat =
      (table.nodeAt left).slotuse - shift := by omega
  have rightNat : (((table.nodeAt right).slotuse : Int) + shift).toNat =
      (table.nodeAt right).slotuse + shift := by omega
  simp only [runs_getKey, runs_setKey, count, rightCount, place, leftNat, rightNat,
    Table.nodeAt_setCells_of_ne, Table.nodeAt_setUsed_of_ne, Table.nodeAt_setCells_self,
    Table.nodeAt_setUsed_self, ne_eq, apart, rightLeft, leftParent, rightParent, parentLeft,
    parentRight, not_false_eq_true, Table.mTailleafId_setCells, Table.mTailleafId_setUsed,
    Table.allocated_setCells, Table.allocated_setUsed, Table.cells, keyColumn, dataColumn]
  refine ⟨leftIn, leftIn, parentIn, rfl, rfl, rfl, trivial, ?_⟩
  repeat refine Table.Touches.setNode ?_ (by simp) _
  exact Table.Touches.refl _ _

theorem shiftRightInner_runs (family : Family table left right parent leftNode rightNode parentNode)
    (isShift : ((leftNode.slotuse : Int) - rightNode.slotuse) / 2 = shift)
    (some_ : 1 ≤ shift) (below : shift ≤ leftNode.slotuse) :
    Runs (shiftRightInner (arrays K D) left right parent parentslot) table fun _ after =>
      after.nodeAt left = leftNode.refilled (leftNode.slotuse - shift)
        (leftNode.slots.spliceChilds leftNode.slots (leftNode.slotuse - shift + 1) (shift - 1)
          shift 0) ∧
      after.nodeAt right = rightNode.refilled (rightNode.slotuse + shift)
        ((rightNode.slots.spliceChilds rightNode.slots 0 rightNode.slotuse (rightNode.slotuse + 1)
          shift).writeKey (shift - 1) (parentNode.slots.key parentslot)) ∧
      after.nodeAt parent = parentNode.refilled parentNode.slotuse
        (parentNode.slots.writeKey parentslot ((leftNode.slots.spliceChilds leftNode.slots
          (leftNode.slotuse - shift + 1) (shift - 1) shift 0).key (leftNode.slotuse - shift))) ∧
      after.mTailleafId = table.mTailleafId ∧ table.Touches [left, right, parent] after := by
  obtain ⟨apart, parentLeft, parentRight, leftIn, rightIn, parentIn, rfl, rfl, rfl⟩ := family
  have rightLeft := apart.symm
  have leftParent := parentLeft.symm
  have rightParent := parentRight.symm
  unfold shiftRightInner copyBackwardsInnerKeys copyBackwardsInnerChilds copyInnerKeys
    copyInnerChilds
  simp only [runs_bind, runs_slotuse, isShift]
  refine ⟨leftIn, rightIn, ?_⟩
  refine copyBackwardsLoop_runs (moves_moveKey right right) rightIn rightIn (.inr (by omega)) ?_
  refine copyBackwardsLoop_runs (moves_moveChild right right) rightIn rightIn (.inr (by omega)) ?_
  simp only [runs_setSlotuse, runs_getKey, runs_setKey]
  refine ⟨rightIn, parentIn, rightIn, ?_⟩
  refine copyLoop_runs (moves_moveKey left left) leftIn leftIn (.inr (.inl (by omega))) ?_
  refine copyLoop_runs (moves_moveChild left left) leftIn leftIn (.inr (.inl (by omega))) ?_
  have keyCount : (((table.nodeAt left).slotuse : Int) -
      ((table.nodeAt left).slotuse - shift + 1)).toNat = shift - 1 := by omega
  have childCount : (((table.nodeAt left).slotuse : Int) + 1 -
      ((table.nodeAt left).slotuse - shift + 1)).toNat = shift := by omega
  have rightKeys : (((table.nodeAt right).slotuse : Int) - 0).toNat =
      (table.nodeAt right).slotuse := by omega
  have rightChilds : (((table.nodeAt right).slotuse : Int) + 1 - 0).toNat =
      (table.nodeAt right).slotuse + 1 := by omega
  have keyPlace : ((table.nodeAt right).slotuse : Int) + shift - ((table.nodeAt right).slotuse - 0) =
      shift := by omega
  have childPlace : ((table.nodeAt right).slotuse : Int) + 1 + shift -
      ((table.nodeAt right).slotuse + 1 - 0) = shift := by omega
  have leftNat : (((table.nodeAt left).slotuse : Int) - shift).toNat =
      (table.nodeAt left).slotuse - shift := by omega
  have rightNat : (((table.nodeAt right).slotuse : Int) + shift).toNat =
      (table.nodeAt right).slotuse + shift := by omega
  simp only [keyCount, childCount, rightKeys, rightChilds, keyPlace, childPlace, leftNat, rightNat,
    Table.nodeAt_setCells_of_ne, Table.nodeAt_setUsed_of_ne, Table.nodeAt_setCells_self,
    Table.nodeAt_setUsed_self, ne_eq, apart, rightLeft, leftParent, rightParent, parentLeft,
    parentRight, not_false_eq_true, Table.mTailleafId_setCells, Table.mTailleafId_setUsed,
    Table.allocated_setCells, Table.allocated_setUsed, Table.cells, keyColumn, childColumn]
  refine ⟨leftIn, parentIn, leftIn, rfl, rfl, rfl, trivial, ?_⟩
  repeat refine Table.Touches.setNode ?_ (by simp) _
  exact Table.Touches.refl _ _

end Helpers

end PersistentBTree.Tables
