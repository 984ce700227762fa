import PersistentBTree.Tables.Agreement
import PersistentBTree.Tables.RebalanceProperties
import Mathlib.Tactic.IntervalCases

/-! The merge and shift helpers of a table beside those of the tree in memory they were
ported from. -/

set_option autoImplicit false

namespace PersistentBTree.Tables

open Imperative Pages Memory

variable {K D : Type}

inductive Helper where
  | mergeLeaves | mergeInner | shiftLeftLeaf | shiftLeftInner | shiftRightLeaf | shiftRightInner

namespace Helper

/-- The helper of `btree.h`. -/
def inMemory [Inhabited K] (left right parent : Ptr) (parentslot : Nat) :
    Helper → Memory.M K D (Memory.Result K)
  | .mergeLeaves => Memory.mergeLeaves (some left) (some right) (some parent)
  | .mergeInner => Memory.mergeInner (some left) (some right) (some parent) parentslot
  | .shiftLeftLeaf => Memory.shiftLeftLeaf (some left) (some right) (some parent) parentslot
  | .shiftLeftInner => Memory.shiftLeftInner (some left) (some right) (some parent) parentslot
  | .shiftRightLeaf => Memory.shiftRightLeaf (some left) (some right) (some parent) parentslot
  | .shiftRightInner => Memory.shiftRightInner (some left) (some right) (some parent) parentslot

/-- The helper of `persistentbtree.h`, on a table whose slots work. -/
def onTable [LinearOrder K] (left right parent : PageId) (parentslot : Nat) :
    Helper → M (Slots K D) Unit
  | .mergeLeaves => do let _ ← Tables.mergeLeaves (arrays K D) left right parent
  | .mergeInner => do let _ ← Tables.mergeInner (arrays K D) left right parent parentslot
  | .shiftLeftLeaf => do let _ ← Tables.shiftLeftLeaf (arrays K D) left right parent parentslot
  | .shiftLeftInner => Tables.shiftLeftInner (arrays K D) left right parent parentslot
  | .shiftRightLeaf => Tables.shiftRightLeaf (arrays K D) left right parent parentslot
  | .shiftRightInner => Tables.shiftRightInner (arrays K D) left right parent parentslot

/-- The pairs, or the children and separators, are the same ones from left to right. -/
def KeepsOrder (before after : Table (Slots K D)) (left right parent : PageId) (parentslot : Nat) :
    Helper → Prop
  | .mergeLeaves | .shiftLeftLeaf | .shiftRightLeaf =>
      after.pairs left ++ after.pairs right = before.pairs left ++ before.pairs right
  | .mergeInner =>
      after.keys left = before.keys left ++
          before.cells (keyColumn K D) parent parentslot :: before.keys right ∧
        after.childs left = before.childs left ++ before.childs right
  | .shiftLeftInner | .shiftRightInner =>
      after.keys left ++ after.cells (keyColumn K D) parent parentslot :: after.keys right =
          before.keys left ++
            before.cells (keyColumn K D) parent parentslot :: before.keys right ∧
        after.childs left ++ after.childs right = before.childs left ++ before.childs right

/-- When the helper of a table does the same: leaves are merged in front of another one,
and whatever is moved to the right is there already. -/
def Fits (table : Table (Slots K D)) (left right : PageId) (helper : Helper) : Prop :=
  let leftUse := (table.nodeAt left).slotuse
  let shiftnum := (leftUse - (table.nodeAt right).slotuse) / 2
  match helper with
  | .mergeLeaves => (table.nodeAt right).nextleaf ≠ -1 ∧ ((table.nodeAt right).nextleaf = 0 →
      (table.nodeAt 0).prevleaf = left ∧ table.mTailleafId = left)
  | .shiftRightLeaf =>
      Repeated (table.pairAt left) (table.pairAt right) (leftUse - shiftnum) shiftnum
  | .shiftRightInner =>
      Repeated (table.cells (keyColumn K D) left) (table.cells (keyColumn K D) right)
          (leftUse - shiftnum + 1) (shiftnum - 1) ∧
        Repeated (table.cells (childColumn K D) left) (table.cells (childColumn K D) right)
          (leftUse - shiftnum + 1) shiftnum
  | .mergeInner | .shiftLeftLeaf | .shiftLeftInner => True

end Helper

/-- A table with the content of a tree with assertions, and two neighbours in it. The leaf
behind the right one is another one, inner nodes have a separator between them, and no array
has as many cells as there are values of `unsigned int`. -/
structure Siblings (page : Ptr → PageId) (tree : BTree K D) (table : Table (Slots K D))
    (left right parent : Ptr) (parentslot : Nat) : Prop where
  agrees : Agrees page tree table
  sound : table.store.Sound
  debug : tree.checks = debugBuild
  apart : left ≠ right
  behind : ∀ leaf, tree.heap right = some (.leaf leaf) →
    leaf.nextleaf ≠ some left ∧ leaf.nextleaf ≠ some right
  between : ∀ inner parentNode, tree.heap left = some (.inner inner) →
    tree.heap parent = some (.inner parentNode) → parentslot < parentNode.slotuse
  leafArrays : ∀ leaf, tree.heap left = some (.leaf leaf) → leaf.slotkey.length < 2 ^ 32
  innerArrays : ∀ inner, tree.heap right = some (.inner inner) → inner.slotkey.length < 2 ^ 32

/-- The helper leaves in the table what its counterpart left in the tree. -/
def Alike [LinearOrder K] (helper : Helper) (page : Ptr → PageId) (table : Table (Slots K D))
    (left right parent : Ptr) (parentslot : Nat) (after : BTree K D) : Prop :=
  Runs (helper.onTable (page left) (page right) (page parent) parentslot) table fun _ final =>
    Agrees page after final ∧
      helper.KeepsOrder table final (page left) (page right) (page parent) parentslot

section Alike

variable [LinearOrder K] [Inhabited K] {page : Ptr → PageId} {tree after : BTree K D}
  {table : Table (Slots K D)} {left right parent : Ptr} {parentslot : Nat}
  {result : Memory.Result K}

omit [LinearOrder K] [Inhabited K] in
theorem Agrees.family (agrees : Agrees page tree table)
    {leftNode rightNode parentNode : Memory.Node K D} (atLeft : tree.heap left = some leftNode)
    (atRight : tree.heap right = some rightNode) (atParent : tree.heap parent = some parentNode)
    (apart : left ≠ right) (parentLeft : parent ≠ left) (parentRight : parent ≠ right) :
    Family table (page left) (page right) (page parent) (table.nodeAt (page left))
      (table.nodeAt (page right)) (table.nodeAt (page parent)) where
  apart := agrees.page_ne atLeft atRight apart
  parentLeft := agrees.page_ne atParent atLeft parentLeft
  parentRight := agrees.page_ne atParent atRight parentRight
  leftIn := agrees.allocated _ _ atLeft
  rightIn := agrees.allocated _ _ atRight
  parentIn := agrees.allocated _ _ atParent
  atLeft := rfl
  atRight := rfl
  atParent := rfl

theorem mergeLeaves_alike_iff (siblings : Siblings page tree table left right parent parentslot)
    (returned : (Helper.mergeLeaves.inMemory left right parent parentslot).run tree =
      .ok (result, after)) :
    Alike .mergeLeaves page table left right parent parentslot after ↔
      Helper.mergeLeaves.Fits table (page left) (page right) := by
  obtain ⟨leftNode, rightNode, parentNode, keys, data, atLeft, atRight, atParent, isParent,
    copiedKeys, copiedData, followed⟩ :=
    mergeLeaves_returned siblings.debug siblings.apart returned
  have agreesLeft := siblings.agrees.leaf atLeft
  have agreesRight := siblings.agrees.leaf atRight
  have parentLeft : parent ≠ left := by
    rintro rfl
    obtain rfl := Option.some.inj (atParent.symm.trans atLeft)
    cases isParent
  have parentRight : parent ≠ right := by
    rintro rfl
    obtain rfl := Option.some.inj (atParent.symm.trans atRight)
    cases isParent
  have family := siblings.agrees.family atLeft atRight atParent siblings.apart parentLeft parentRight
  have leftIn := siblings.agrees.allocated _ _ atLeft
  have rightIn := siblings.agrees.allocated _ _ atRight
  have nextleaf := agreesRight.nextleaf
  simp only [Alike, Helper.onTable, Helper.Fits, runs_bind, runs_pure]
  cases isNext : rightNode.nextleaf with
  | none =>
      rw [isNext, linked] at nextleaf
      have nowhere : ¬ table.store.Allocated (table.nodeAt (page right)).nextleaf := by
        rw [nextleaf]
        exact fun inUse => absurd inUse.1 (by decide)
      have outcome := mergeLeaves_runsIf family (siblings.sound.id_of_allocated family.leftIn)
        (fun same => nowhere (by rw [same]; exact leftIn))
        (fun same => nowhere (by rw [same]; exact rightIn))
      constructor
      · intro runs
        refine absurd (outcome.faults ?_) runs.not_faults
        rintro (isZero | inUse)
        · rw [nextleaf] at isZero
          cases isZero
        · exact nowhere inUse
      · exact fun fits => absurd nextleaf fits.1
  | some next =>
      rw [isNext, linked] at nextleaf
      obtain ⟨nextNode, atNext, rearranged⟩ := followed next isNext
        (fun same => (siblings.behind _ atRight).1 (same ▸ isNext))
        (fun same => (siblings.behind _ atRight).2 (same ▸ isNext))
      have agreesNext := siblings.agrees.leaf atNext
      have nextIn := siblings.agrees.allocated _ _ atNext
      have nextLeft := siblings.agrees.page_ne atNext atLeft rearranged.parentLeft
      have nextRight := siblings.agrees.page_ne atNext atRight rearranged.parentRight
      have outcome := mergeLeaves_runsIf family (siblings.sound.id_of_allocated family.leftIn)
        (nextleaf ▸ nextLeft) (nextleaf ▸ nextRight)
      rw [nextleaf] at outcome ⊢
      refine (outcome.runs (.inr nextIn)).iff ?_
      rintro - final ⟨finalLeft, finalRight, finalNext, tail, touches⟩
      rw [agreesLeft.slotuse, agreesRight.slotuse] at finalLeft
      have leftAfter : LeafAgrees page { leftNode with
            slotuse := leftNode.slotuse + rightNode.slotuse, nextleaf := rightNode.nextleaf
            slotkey := keys, slotdata := data } (final.nodeAt (page left)) := by
        rw [finalLeft]
        refine ⟨agreesLeft.level, rfl, agreesLeft.prevleaf, ?_, ?_, ?_⟩
        · rw [isNext]
          rfl
        · exact Shows.append copiedKeys agreesLeft.keys agreesRight.keys rfl
        · exact Shows.append copiedData agreesLeft.data agreesRight.data rfl
      have rightAfter : LeafAgrees page { rightNode with slotuse := 0 }
          (final.nodeAt (page right)) := by
        rw [finalRight]
        exact agreesRight.take rfl (Nat.zero_le _)
      have order : Helper.mergeLeaves.KeepsOrder table final (page left) (page right) (page parent)
          parentslot := by
        have refilled : final.nodeAt (page left) =
            Node.refilled { table.nodeAt (page left) with nextleaf := page next }
              (leftNode.slotuse + rightNode.slotuse)
              ((table.nodeAt (page right)).slots.splicePairs (table.nodeAt (page left)).slots 0
                rightNode.slotuse leftNode.slotuse) :=
          finalLeft
        rw [Helper.KeepsOrder, Table.pairs_of_nodeAt refilled, Table.pairs_of_nodeAt finalRight,
          Slots.pair_splicePairs, ← firstCells_append, ← agreesLeft.slotuse, ← agreesRight.slotuse]
        exact List.append_nil _
      have present : page next ≠ -1 := by
        intro isNone
        rw [isNone] at nextIn
        exact absurd nextIn.1 (by decide)
      by_cases isZero : page next = 0
      · rw [if_pos isZero] at finalNext tail
        constructor
        · intro reached
          obtain ⟨later, _⟩ := reached
          have linkedBack := (later.leaf rearranged.atParent).prevleaf
          rw [finalNext, isZero] at linkedBack
          exact ⟨present, fun _ => ⟨linkedBack,
            (siblings.agrees.tail_of_rearranged rearranged later).symm.trans tail⟩⟩
        · intro reached
          obtain ⟨_, fits⟩ := reached
          obtain ⟨linkedBack, isTail⟩ := fits isZero
          refine ⟨(siblings.agrees.iff_of_rearranged atLeft atRight atNext rearranged touches
            (tail.trans isTail.symm)).mpr ⟨leftAfter, rightAfter, ?_⟩, order⟩
          rw [finalNext]
          exact ⟨agreesNext.level, agreesNext.slotuse, isZero ▸ linkedBack, agreesNext.nextleaf,
            agreesNext.keys, agreesNext.data⟩
      · rw [if_neg isZero] at finalNext tail
        refine iff_of_true ⟨(siblings.agrees.iff_of_rearranged atLeft atRight atNext rearranged
          touches tail).mpr ⟨leftAfter, rightAfter, ?_⟩, order⟩
          ⟨present, fun absent => absurd absent isZero⟩
        rw [finalNext]
        exact ⟨agreesNext.level, agreesNext.slotuse, rfl, agreesNext.nextleaf, agreesNext.keys,
          agreesNext.data⟩

theorem mergeInner_alike (siblings : Siblings page tree table left right parent parentslot)
    (returned : (Helper.mergeInner.inMemory left right parent parentslot).run tree =
      .ok (result, after)) :
    Alike .mergeInner page table left right parent parentslot after := by
  obtain ⟨leftNode, rightNode, parentNode, decision, opened, keys, childs, atLeft, atRight, atParent,
    found, written, copiedKeys, copiedChilds, rearranged⟩ :=
    mergeInner_returned siblings.debug siblings.apart returned
  have agreesLeft := siblings.agrees.inner atLeft
  have agreesRight := siblings.agrees.inner atRight
  have agreesParent := siblings.agrees.inner atParent
  have family := siblings.agrees.family atLeft atRight atParent siblings.apart
    rearranged.parentLeft rearranged.parentRight
  simp only [Alike, Helper.onTable, runs_bind, runs_pure]
  refine (mergeInner_runs family).mono ?_
  rintro - final ⟨finalLeft, finalRight, tail, touches⟩
  have finalParent : final.nodeAt (page parent) = table.nodeAt (page parent) :=
    touches.nodes _ (by simp [family.parentLeft, family.parentRight])
  have key : (table.nodeAt (page parent)).slots.key parentslot = decision :=
    (agreesParent.read found (siblings.between _ _ atLeft atParent)).symm
  rw [siblings.agrees.iff_of_rearranged atLeft atRight atParent rearranged
    (touches.mono (by simp +contextual)) tail]
  constructor
  · rw [finalLeft, finalRight, finalParent, agreesLeft.slotuse, agreesRight.slotuse, key]
    refine ⟨agreesLeft.refill rfl ?keys ?childs, agreesRight.take rfl (Nat.zero_le _), agreesParent⟩
    case keys =>
      refine Shows.append copiedKeys (fun i below => ?_) agreesRight.keys rfl
      exact Shows.write written (fun other => agreesLeft.keys i (by omega)) rfl rfl
    case childs =>
      intro i below
      refine Shows.append copiedChilds (fun i below => agreesLeft.childs i (by omega))
        (fun i below => agreesRight.childs i (by omega)) rfl i (by omega)
  · constructor
    · rw [Table.keys_of_nodeAt finalLeft, Table.keys, Table.keys, firstCells_append_cons,
        firstCells_append]
      rfl
    · rw [Table.childs_of_nodeAt finalLeft, Table.childs, Table.childs, firstCells_append]
      rfl

theorem shiftLeftLeaf_alike (siblings : Siblings page tree table left right parent parentslot)
    (returned : (Helper.shiftLeftLeaf.inMemory left right parent parentslot).run tree =
      .ok (result, after)) :
    Alike .shiftLeftLeaf page table left right parent parentslot after := by
  obtain ⟨leftNode, rightNode, parentNode, shift, last, keys, data, rightKeys, rightData, parentKeys,
    atLeft, atRight, atParent, donor, isShift, copiedKeys, copiedData, droppedKeys, droppedData,
    found, written, rearranged⟩ := shiftLeftLeaf_returned siblings.debug siblings.apart returned
  have agreesLeft := siblings.agrees.leaf atLeft
  have agreesRight := siblings.agrees.leaf atRight
  have agreesParent := siblings.agrees.inner atParent
  have family := siblings.agrees.family atLeft atRight atParent siblings.apart
    rearranged.parentLeft rearranged.parentRight
  have below : shift ≤ rightNode.slotuse := by omega
  have isShiftOnTable : (((table.nodeAt (page right)).slotuse : Int) -
      (table.nodeAt (page left)).slotuse) / 2 = shift := by
    rw [agreesLeft.slotuse, agreesRight.slotuse]
    omega
  simp only [Alike, Helper.onTable, runs_bind, runs_pure]
  refine (shiftLeftLeaf_runs family isShiftOnTable).mono ?_
  rintro - final ⟨finalLeft, finalRight, finalParent, tail, touches⟩
  rw [agreesLeft.slotuse] at finalLeft finalParent
  rw [agreesRight.slotuse] at finalRight
  have keysAfter := Shows.append copiedKeys agreesLeft.keys
    (fun i low => agreesRight.keys i (by omega)) rfl
  rw [siblings.agrees.iff_of_rearranged atLeft atRight atParent rearranged touches tail]
  constructor
  · rw [finalLeft, finalRight, finalParent]
    refine ⟨agreesLeft.refill rfl keysAfter ?data, agreesRight.refill rfl ?rightKeys ?rightData,
      ?parent⟩
    case data =>
      exact Shows.append copiedData agreesLeft.data (fun i low => agreesRight.data i (by omega)) rfl
    case rightKeys => exact Shows.drop droppedKeys agreesRight.keys rfl rfl
    case rightData => exact Shows.drop droppedData agreesRight.data rfl rfl
    case parent =>
      by_cases inside : parentslot < parentNode.slotuse
      · rw [if_pos inside] at written
        rw [if_pos (agreesParent.slotuse ▸ inside)]
        refine agreesParent.writeKey written ?_
        -- without a pair in the left leaf the tree would have read far outside it
        have stored : 1 ≤ leftNode.slotuse + shift := by
          by_contra none
          have outside := Buffer.lt_of_read found
          have small := siblings.leafArrays _ atLeft
          rw [Buffer.length_copy copiedKeys, usub_of_gt (by omega)] at outside
          omega
        rw [usub_of_le stored] at found
        have shown := keysAfter (leftNode.slotuse + shift - 1) (by omega)
        rw [Shows, found] at shown
        rw [show ((leftNode.slotuse : Int) + shift - 1) = (leftNode.slotuse + shift - 1 : Nat) by
          omega]
        exact (Option.some.inj shown).symm
      · rw [if_neg inside] at written
        rw [if_neg (agreesParent.slotuse ▸ inside), agreesParent.slotuse]
        subst written
        exact agreesParent.take rfl (Nat.le_refl _)
  · rw [Helper.KeepsOrder, Table.pairs_of_nodeAt finalLeft, Table.pairs_of_nodeAt finalRight,
      Slots.pair_splicePairs, Slots.pair_splicePairs, order_shiftLeft below, ← agreesLeft.slotuse,
      ← agreesRight.slotuse]
    rfl

theorem shiftLeftInner_alike (siblings : Siblings page tree table left right parent parentslot)
    (returned : (Helper.shiftLeftInner.inMemory left right parent parentslot).run tree =
      .ok (result, after)) :
    Alike .shiftLeftInner page table left right parent parentslot after := by
  obtain ⟨leftNode, rightNode, parentNode, shift, decision, opened, keys, childs, risen, rightKeys,
    rightChilds, parentKeys, atLeft, atRight, atParent, donor, isShift, found, written, copiedKeys,
    copiedChilds, foundRisen, writtenRisen, droppedKeys, droppedChilds, rearranged⟩ :=
    shiftLeftInner_returned siblings.debug siblings.apart returned
  have agreesLeft := siblings.agrees.inner atLeft
  have agreesRight := siblings.agrees.inner atRight
  have agreesParent := siblings.agrees.inner atParent
  have family := siblings.agrees.family atLeft atRight atParent siblings.apart
    rearranged.parentLeft rearranged.parentRight
  have below : shift ≤ rightNode.slotuse := by omega
  -- with nothing to shift the tree would have read far outside the right node
  have some_ : 1 ≤ shift := by
    by_contra none
    have outside := Buffer.lt_of_read foundRisen
    have small := siblings.innerArrays _ atRight
    rw [usub_of_gt (by omega)] at outside
    omega
  have use : leftNode.slotuse + 1 + (shift - 1) = leftNode.slotuse + shift := by omega
  rw [usub_of_le some_] at copiedKeys foundRisen rearranged
  rw [use] at rearranged
  have key : (table.nodeAt (page parent)).slots.key parentslot = decision :=
    (agreesParent.read found (siblings.between _ _ atLeft atParent)).symm
  have keyRisen : (table.nodeAt (page right)).slots.key (shift - 1) = risen := by
    rw [agreesRight.read foundRisen (by omega), Nat.cast_sub some_]
    rfl
  have isShiftOnTable : (((table.nodeAt (page right)).slotuse : Int) -
      (table.nodeAt (page left)).slotuse) / 2 = shift := by
    rw [agreesLeft.slotuse, agreesRight.slotuse]
    omega
  simp only [Alike, Helper.onTable]
  refine (shiftLeftInner_runs family isShiftOnTable some_).mono ?_
  rintro - final ⟨finalLeft, finalRight, finalParent, tail, touches⟩
  rw [agreesLeft.slotuse, key] at finalLeft
  rw [agreesRight.slotuse] at finalRight
  rw [keyRisen] at finalParent
  rw [siblings.agrees.iff_of_rearranged atLeft atRight atParent rearranged touches tail]
  constructor
  · rw [finalLeft, finalRight, finalParent]
    refine ⟨agreesLeft.refill rfl ?keys ?childs, agreesRight.refill rfl ?rightKeys ?rightChilds,
      agreesParent.writeKey writtenRisen rfl⟩
    case keys =>
      intro i low
      refine Shows.append copiedKeys (fun i low => ?_) (fun i low => agreesRight.keys i (by omega))
        rfl i (by omega)
      exact Shows.write written (fun other => agreesLeft.keys i (by omega)) rfl rfl
    case childs =>
      intro i low
      exact Shows.append copiedChilds (fun i low => agreesLeft.childs i (by omega))
        (fun i low => agreesRight.childs i (by omega)) rfl i (by omega)
    case rightKeys => exact Shows.drop droppedKeys agreesRight.keys rfl rfl
    case rightChilds =>
      intro i low
      exact Shows.drop droppedChilds (fun i low => agreesRight.childs i (by omega)) rfl rfl i
        (by omega)
  · constructor
    · have keyAfter : final.cells (keyColumn K D) (page parent) parentslot =
          (table.nodeAt (page right)).slots.key (shift - 1) := by
        rw [keyRisen, Table.cells, finalParent]
        exact Function.update_self ..
      rw [Table.keys_of_nodeAt finalLeft, Table.keys_of_nodeAt finalRight, keyAfter, Table.keys,
        Table.keys, agreesLeft.slotuse, agreesRight.slotuse, Table.cells, Table.cells, Table.cells,
        ← order_shiftLeft_between some_ below, ← key]
      rfl
    · rw [Table.childs_of_nodeAt finalLeft, Table.childs_of_nodeAt finalRight, Table.childs,
        Table.childs, agreesLeft.slotuse, agreesRight.slotuse,
        Nat.add_right_comm leftNode.slotuse shift 1, ← Nat.sub_add_comm below]
      exact @order_shiftLeft _ _ _ (leftNode.slotuse + 1) _ _ (by omega)

theorem shiftRightLeaf_alike_iff
    (siblings : Siblings page tree table left right parent parentslot)
    (returned : (Helper.shiftRightLeaf.inMemory left right parent parentslot).run tree =
      .ok (result, after)) :
    Alike .shiftRightLeaf page table left right parent parentslot after ↔
      Helper.shiftRightLeaf.Fits table (page left) (page right) := by
  obtain ⟨leftNode, rightNode, parentNode, shift, last, movedKeys, movedData, keys, data, parentKeys,
    atLeft, atRight, atParent, donor, isShift, raisedKeys, raisedData, copiedKeys, copiedData, found,
    written, rearranged⟩ := shiftRightLeaf_returned siblings.debug siblings.apart returned
  have agreesLeft := siblings.agrees.leaf atLeft
  have agreesRight := siblings.agrees.leaf atRight
  have agreesParent := siblings.agrees.inner atParent
  have family := siblings.agrees.family atLeft atRight atParent siblings.apart
    rearranged.parentLeft rearranged.parentRight
  have below : shift ≤ leftNode.slotuse := by omega
  have isShiftOnTable : (((table.nodeAt (page left)).slotuse : Int) -
      (table.nodeAt (page right)).slotuse) / 2 = shift := by
    rw [agreesLeft.slotuse, agreesRight.slotuse]
    omega
  -- what the tree leaves in the two leaves
  have leftAfter := agreesLeft.take (rfl : leftNode.slotuse - shift = _) (Nat.sub_le _ _)
  have rightAfter : LeafAgrees page { rightNode with
        slotuse := rightNode.slotuse + shift, slotkey := keys, slotdata := data }
      ((table.nodeAt (page right)).refilled (rightNode.slotuse + shift)
        ((table.nodeAt (page left)).slots.splicePairs
          ((table.nodeAt (page right)).slots.splicePairs (table.nodeAt (page right)).slots 0
            rightNode.slotuse shift) (leftNode.slotuse - shift : Nat) shift 0)) :=
    agreesRight.refill rfl
      (Shows.prepend raisedKeys copiedKeys (by omega) agreesRight.keys agreesLeft.keys rfl)
      (Shows.prepend raisedData copiedData (by omega) agreesRight.data agreesLeft.data rfl)
  have useful : (leftNode.slotuse : Int) - shift = (leftNode.slotuse - shift : Nat) := by omega
  simp only [Alike, Helper.onTable, Helper.Fits]
  refine (shiftRightLeaf_runs family isShiftOnTable (agreesLeft.slotuse ▸ below)).iff ?_
  rintro - final ⟨finalLeft, finalRight, finalParent, tail, touches⟩
  rw [agreesLeft.slotuse, useful] at finalLeft finalParent
  rw [agreesRight.slotuse] at finalRight
  rw [siblings.agrees.iff_of_rearranged atLeft atRight atParent rearranged touches tail,
    agreesLeft.slotuse, agreesRight.slotuse, isShift, finalLeft, finalRight, finalParent]
  simp only [NodeAgrees, leftAfter.iff_of_refilled, rightAfter.iff_of_refilled,
    Slots.pair_splicePairs]
  have unmoved : ∀ i : Nat, i < shift → splice (table.nodeAt (page right)).slots.pair
      (table.nodeAt (page right)).slots.pair 0 rightNode.slotuse shift i =
        (table.nodeAt (page right)).slots.pair i :=
    fun i low => splice_below (by omega)
  have decides := @repeated_iff _ (table.nodeAt (page left)).slots.pair _ _
    (leftNode.slotuse - shift) shift (leftNode.slotuse - shift) (rightNode.slotuse + shift)
    (by omega) (by omega) unmoved
  constructor
  · intro ⟨⟨leftSame, rightSame, _⟩, _⟩
    exact decides.mp ⟨leftSame, rightSame⟩
  · intro repeated
    obtain ⟨leftSame, rightSame⟩ := decides.mpr repeated
    refine ⟨⟨leftSame, rightSame, agreesParent.writeKey written ?_⟩, ?_⟩
    · have lastSame := congrArg Prod.fst (leftSame (leftNode.slotuse - shift - 1) (by omega))
      rw [agreesLeft.read found (by omega), ← Nat.cast_pred (by omega)]
      rw [← Slots.pair_splicePairs] at lastSame
      exact lastSame
    · rw [Helper.KeepsOrder, Table.pairs_of_nodeAt finalLeft, Table.pairs_of_nodeAt finalRight,
        Slots.pair_splicePairs, Slots.pair_splicePairs, firstCells_eq_iff.mpr leftSame,
        firstCells_eq_iff.mpr rightSame, order_shiftRight below, ← agreesLeft.slotuse,
        ← agreesRight.slotuse]
      rfl

theorem shiftRightInner_alike_iff
    (siblings : Siblings page tree table left right parent parentslot)
    (returned : (Helper.shiftRightInner.inMemory left right parent parentslot).run tree =
      .ok (result, after)) :
    Alike .shiftRightInner page table left right parent parentslot after ↔
      Helper.shiftRightInner.Fits table (page left) (page right) := by
  obtain ⟨leftNode, rightNode, parentNode, shift, decision, movedKeys, movedChilds, opened, keys,
    childs, risen, parentKeys, atLeft, atRight, atParent, donor, isShift, raisedKeys, raisedChilds,
    found, written, copiedKeys, copiedChilds, foundRisen, writtenRisen, rearranged⟩ :=
    shiftRightInner_returned siblings.debug siblings.apart returned
  have agreesLeft := siblings.agrees.inner atLeft
  have agreesRight := siblings.agrees.inner atRight
  have agreesParent := siblings.agrees.inner atParent
  have family := siblings.agrees.family atLeft atRight atParent siblings.apart
    rearranged.parentLeft rearranged.parentRight
  have below : shift ≤ leftNode.slotuse := by omega
  -- with nothing to shift the tree would have copied keys from behind the left node
  have some_ : 1 ≤ shift := by
    have bounds := Buffer.bounds_of_copy copiedKeys
    omega
  rw [usub_of_le some_] at written
  have key : (table.nodeAt (page parent)).slots.key parentslot = decision :=
    (agreesParent.read found (siblings.between _ _ atLeft atParent)).symm
  have isShiftOnTable : (((table.nodeAt (page left)).slotuse : Int) -
      (table.nodeAt (page right)).slotuse) / 2 = shift := by
    rw [agreesLeft.slotuse, agreesRight.slotuse]
    omega
  -- what the tree leaves in the two nodes
  have leftAfter := agreesLeft.take (rfl : leftNode.slotuse - shift = _) (Nat.sub_le _ _)
  have rightAfter : InnerAgrees page { rightNode with
        slotuse := rightNode.slotuse + shift, slotkey := keys, childid := childs }
      ((table.nodeAt (page right)).refilled (rightNode.slotuse + shift)
        ((table.nodeAt (page left)).slots.spliceChilds
          (((table.nodeAt (page right)).slots.spliceChilds (table.nodeAt (page right)).slots 0
            rightNode.slotuse (rightNode.slotuse + 1) shift).writeKey (shift - 1 : Nat) decision)
          (leftNode.slotuse - shift + 1 : Nat) (shift - 1) shift 0)) := by
    refine agreesRight.refill rfl ?keys ?childs
    case keys =>
      intro i high
      refine Shows.copy copiedKeys (fun _ _ => agreesLeft.keys _ (by omega)) (fun outside => ?_) rfl
        (by omega) rfl
      refine Shows.write written (fun other => ?_) rfl rfl
      exact Shows.raise raisedKeys agreesRight.keys (by omega) high
    case childs =>
      intro i high
      exact Shows.prepend raisedChilds copiedChilds (by omega)
        (fun i low => agreesRight.childs i (by omega)) (fun i low => agreesLeft.childs i (by omega))
        rfl i (by omega)
  simp only [Alike, Helper.onTable, Helper.Fits]
  refine (shiftRightInner_runs family isShiftOnTable some_ (agreesLeft.slotuse ▸ below)).iff ?_
  rintro - final ⟨finalLeft, finalRight, finalParent, tail, touches⟩
  have useful : (leftNode.slotuse : Int) - shift = (leftNode.slotuse - shift : Nat) := by omega
  have useful' : (leftNode.slotuse : Int) - shift + 1 = (leftNode.slotuse - shift + 1 : Nat) := by omega
  have useful'' : (shift : Int) - 1 = (shift - 1 : Nat) := by omega
  rw [agreesLeft.slotuse, useful'] at finalLeft finalParent
  rw [agreesRight.slotuse, useful'', key] at finalRight
  rw [siblings.agrees.iff_of_rearranged atLeft atRight atParent rearranged touches tail,
    agreesLeft.slotuse, agreesRight.slotuse, isShift, finalLeft, finalRight, finalParent]
  simp only [NodeAgrees, leftAfter.iff_of_refilled, rightAfter.iff_of_refilled]
  have keysDecide := @repeated_iff _ (table.nodeAt (page left)).slots.key
    (table.nodeAt (page right)).slots.key
    (Function.update (splice (table.nodeAt (page right)).slots.key
      (table.nodeAt (page right)).slots.key 0 rightNode.slotuse shift) (shift - 1 : Nat) decision)
    (leftNode.slotuse - shift + 1) (shift - 1) (leftNode.slotuse - shift)
    (rightNode.slotuse + shift) (by omega) (by omega) fun i low => by
      rw [Function.update_of_ne (by omega), splice_below (by omega)]
  have childsDecide := @repeated_iff _ (table.nodeAt (page left)).slots.child
    (table.nodeAt (page right)).slots.child
    (splice (table.nodeAt (page right)).slots.child (table.nodeAt (page right)).slots.child 0
      (rightNode.slotuse + 1) shift)
    (leftNode.slotuse - shift + 1) shift (leftNode.slotuse - shift + 1)
    (rightNode.slotuse + shift + 1) (by omega) (by omega) fun i low => splice_below (by omega)
  constructor
  · intro ⟨⟨leftSame, rightSame, _⟩, _⟩
    exact ⟨keysDecide.mp ⟨leftSame.1, rightSame.1⟩, childsDecide.mp ⟨leftSame.2, rightSame.2⟩⟩
  · intro ⟨keysRepeated, childsRepeated⟩
    obtain ⟨leftKeys, rightKeys⟩ := keysDecide.mpr keysRepeated
    obtain ⟨leftChilds, rightChilds⟩ := childsDecide.mpr childsRepeated
    have stays : splice (table.nodeAt (page left)).slots.key (table.nodeAt (page left)).slots.key
        (leftNode.slotuse - shift + 1 : Nat) (shift - 1) 0 (leftNode.slotuse - shift : Nat) =
          (table.nodeAt (page left)).slots.key (leftNode.slotuse - shift : Nat) :=
      splice_above (by omega)
    rw [useful] at finalParent
    refine ⟨⟨⟨leftKeys, leftChilds⟩, ⟨rightKeys, rightChilds⟩, ?parent⟩, ?keys, ?childs⟩
    case parent =>
      refine agreesParent.writeKey writtenRisen ?_
      rw [useful, agreesLeft.read foundRisen (by omega)]
      exact stays
    case keys =>
      have keyAfter : final.cells (keyColumn K D) (page parent) parentslot =
          (table.nodeAt (page left)).slots.key (leftNode.slotuse - shift : Nat) := by
        rw [Table.cells, finalParent, ← stays]
        exact Function.update_self ..
      have keysLeft := (Table.keys_of_nodeAt finalLeft).trans (firstCells_eq_iff.mpr leftKeys)
      have keysRight := (Table.keys_of_nodeAt finalRight).trans (firstCells_eq_iff.mpr rightKeys)
      rw [keysLeft, keysRight, keyAfter, Table.keys, Table.keys, agreesLeft.slotuse,
        agreesRight.slotuse, order_shiftRight_between some_ below, ← key]
      rfl
    case childs =>
      have childsLeft := (Table.childs_of_nodeAt finalLeft).trans
        (firstCells_eq_iff.mpr leftChilds)
      have childsRight := (Table.childs_of_nodeAt finalRight).trans
        (firstCells_eq_iff.mpr rightChilds)
      rw [childsLeft, childsRight, Table.childs, Table.childs, agreesLeft.slotuse,
        agreesRight.slotuse, ← Nat.sub_add_comm below, Nat.add_right_comm rightNode.slotuse shift 1,
        order_shiftRight (by omega)]
      rfl

/-- A helper of a table does what its counterpart does exactly when it fits. -/
theorem alike_iff (helper : Helper) (siblings : Siblings page tree table left right parent parentslot)
    (returned : (helper.inMemory left right parent parentslot).run tree = .ok (result, after)) :
    Alike helper page table left right parent parentslot after ↔
      helper.Fits table (page left) (page right) := by
  cases helper with
  | mergeLeaves => exact mergeLeaves_alike_iff siblings returned
  | mergeInner => exact iff_of_true (mergeInner_alike siblings returned) trivial
  | shiftLeftLeaf => exact iff_of_true (shiftLeftLeaf_alike siblings returned) trivial
  | shiftLeftInner => exact iff_of_true (shiftLeftInner_alike siblings returned) trivial
  | shiftRightLeaf => exact shiftRightLeaf_alike_iff siblings returned
  | shiftRightInner => exact shiftRightInner_alike_iff siblings returned

end Alike

/-- The helpers of a table always do what those in memory do. -/
def RebalancesAlike (K D : Type) [LinearOrder K] [Inhabited K] : Prop :=
  ∀ (helper : Helper) (page : Ptr → PageId) (tree : BTree K D) (table : Table (Slots K D))
    (left right parent : Ptr) (parentslot : Nat) (result : Memory.Result K) (after : BTree K D),
    Siblings page tree table left right parent parentslot →
    (helper.inMemory left right parent parentslot).run tree = .ok (result, after) →
    Alike helper page table left right parent parentslot after

/-! ## Two small leaves -/

/-- A tree with the keys 1, 2, 3 in one leaf and 4 in the other one. -/
def fourKeys : BTree Nat Nat :=
  { (BTree.empty (setNodeSize 4 4) debugBuild : BTree Nat Nat) with
    mRoot := some 2
    mHeadleaf := some 0
    mTailleaf := some 1
    heap
      | 0 => some (.leaf ⟨3, none, some 1, [some 1, some 2, some 3], [some 10, some 20, some 30]⟩)
      | 1 => some (.leaf ⟨1, some 0, none, [some 4, none], [some 40, none]⟩)
      | 2 => some (.inner ⟨1, 1, [some 3], [some 0, some 1]⟩)
      | _ => none
    brk := 3 }

/-- The table with the same content. -/
def fourKeysTable : Table (Slots Nat Nat) :=
  let stored (slot : Int) := slot.toNat + 1
  let leftSlots : Slots Nat Nat := ⟨stored, fun slot => 10 * stored slot, fun _ => 0⟩
  let rightSlots : Slots Nat Nat := ⟨fun _ => 4, fun _ => 40, fun _ => 0⟩
  let parentSlots : Slots Nat Nat := ⟨fun _ => 3, fun _ => 0, id⟩
  let zero := Node.zero leftSlots
  let empty : Table (Slots Nat Nat) :=
    { store := (Store.created zero).append.append.append
      nSlots := 4
      nodeslotmax := 4
      minnodeslots := 2
      mRootId := 2
      mHeadleafId := 0
      mTailleafId := 1
      mStats := { itemcount := 4, leaves := 2, innernodes := 1 } }
  ((empty.setNode 0 ⟨0, 0, 3, -1, 1, leftSlots⟩).setNode 1 ⟨0, 0, 1, 0, -1, rightSlots⟩).setNode 2
    ⟨1, 0, 1, 0, 0, parentSlots⟩

private theorem fourKeys_agrees : Agrees Int.ofNat fourKeys fourKeysTable where
  nodes := by
    intro ptr node found
    match ptr with
    | 0 =>
        cases found
        refine ⟨rfl, rfl, rfl, rfl, ?_, ?_⟩ <;> intro i below <;> interval_cases i <;> rfl
    | 1 =>
        cases found
        refine ⟨rfl, rfl, rfl, rfl, ?_, ?_⟩ <;> intro i below <;> interval_cases i <;> rfl
    | 2 =>
        cases found
        refine ⟨rfl, rfl, ?_, ?_⟩ <;> intro i below <;> interval_cases i <;> rfl
    | _ + 3 => cases found
  allocated := by
    intro ptr node found
    match ptr with
    | 0 | 1 | 2 => decide
    | _ + 3 => cases found
  apart _ _ _ _ _ _ same := Int.ofNat.inj same
  mRoot := rfl
  mHeadleaf := rfl
  mTailleaf := rfl

private theorem fourKeys_siblings : Siblings Int.ofNat fourKeys fourKeysTable 0 1 2 0 where
  agrees := fourKeys_agrees
  sound := Table.sound_setNode (Table.sound_setNode (Table.sound_setNode
    (.append (.append (.append (.created _))))))
  debug := rfl
  apart := by decide
  behind _ found := by
    cases found
    decide
  between _ _ found _ := by cases found
  leafArrays _ found := by
    cases found
    decide
  innerArrays _ found := by cases found

private theorem fourKeys_shifted : ∃ result after,
    (Helper.shiftRightLeaf.inMemory 0 1 2 0).run fourKeys = .ok (result, after) :=
  ⟨_, _, rfl⟩

/-- Moving a pair to the right loses one. -/
theorem alike_iff_fourKeys : ∃ result after,
    (Helper.shiftRightLeaf.inMemory 0 1 2 0).run fourKeys = .ok (result, after) ∧
      (Alike .shiftRightLeaf Int.ofNat fourKeysTable 0 1 2 0 after ↔
        Helper.shiftRightLeaf.Fits fourKeysTable 0 1) := by
  obtain ⟨result, after, returned⟩ := fourKeys_shifted
  exact ⟨result, after, returned, alike_iff .shiftRightLeaf fourKeys_siblings returned⟩

theorem not_rebalancesAlike_fourKeys : ¬ RebalancesAlike Nat Nat := by
  intro rebalancesAlike
  obtain ⟨result, after, returned⟩ := fourKeys_shifted
  have alike := rebalancesAlike _ _ _ _ _ _ _ _ _ _ fourKeys_siblings returned
  have fits := (shiftRightLeaf_alike_iff fourKeys_siblings returned).mp alike
  have same := (fits 0 Nat.one_pos).1
  revert same
  decide

end PersistentBTree.Tables
