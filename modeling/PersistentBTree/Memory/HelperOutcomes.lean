import PersistentBTree.Memory.Rebalance
import PersistentBTree.Memory.Represents

/-! What the merge and shift helpers leave when they return with all their assertions
compiled in, whatever the tree is. -/

set_option autoImplicit false

namespace PersistentBTree.Memory

open Imperative

variable {K D : Type} {tree after : BTree K D} {left right parent : Ptr} {parentslot : Nat}

theorem runs_btreeAssert_iff (debug : tree.checks = debugBuild) {which : Assertion}
    {condition : M K D Bool} {post : Unit → BTree K D → Prop} :
    Runs (btreeAssert which condition) tree post ↔
      Runs condition tree fun holds final => holds = true ∧ post () final := by
  simp only [btreeAssert, runs_bind, runs_get, debug, debugBuild, if_true]
  constructor
  · intro runs
    refine runs.mono fun holds final rest => ?_
    cases holds <;> simp_all
  · intro runs
    refine runs.mono fun holds final rest => ?_
    simp [rest.1, rest.2]

theorem inner_ne_leaf {inner leaf : Ptr} {innerNode : InnerNode K} {leafNode : LeafNode K D}
    (atInner : tree.heap inner = some (.inner innerNode))
    (atLeaf : tree.heap leaf = some (.leaf leafNode)) : inner ≠ leaf := by
  intro same
  rw [same, atLeaf] at atInner
  cases atInner

theorem ne_of_above {upper lower : Ptr} {upperNode lowerNode : Node K D}
    (atUpper : tree.heap upper = some upperNode) (atLower : tree.heap lower = some lowerNode)
    (above : lowerNode.level < upperNode.level) : upper ≠ lower := by
  intro same
  rw [same, atLower] at atUpper
  cases atUpper
  exact lt_irrefl _ above

/-- Three different nodes were replaced, and nothing else. -/
structure Rearranged (tree after : BTree K D) (left right parent : Ptr)
    (leftNode rightNode parentNode : Node K D) : Prop where
  apart : left ≠ right
  parentLeft : parent ≠ left
  parentRight : parent ≠ right
  atLeft : after.heap left = some leftNode
  atRight : after.heap right = some rightNode
  atParent : after.heap parent = some parentNode
  others : ∀ ptr, ptr ≠ left → ptr ≠ right → ptr ≠ parent → after.heap ptr = tree.heap ptr
  mRoot : after.mRoot = tree.mRoot
  mHeadleaf : after.mHeadleaf = tree.mHeadleaf
  mTailleaf : after.mTailleaf = tree.mTailleaf

variable [Inhabited K]

theorem shiftLeftLeaf_returned (debug : tree.checks = debugBuild) (apart : left ≠ right)
    {result : Result K}
    (returned : (shiftLeftLeaf (some left) (some right) (some parent) parentslot).run tree =
      .ok (result, after)) :
    ∃ leftNode rightNode parentNode shift last keys data rightKeys rightData parentKeys,
      tree.heap left = some (.leaf leftNode) ∧ tree.heap right = some (.leaf rightNode) ∧
      tree.heap parent = some (.inner parentNode) ∧
      leftNode.slotuse < rightNode.slotuse ∧
      (rightNode.slotuse - leftNode.slotuse) / 2 = shift ∧
      rightNode.slotkey.copy 0 shift leftNode.slotkey leftNode.slotuse = some keys ∧
      rightNode.slotdata.copy 0 shift leftNode.slotdata leftNode.slotuse = some data ∧
      rightNode.slotkey.copy shift rightNode.slotuse rightNode.slotkey 0 = some rightKeys ∧
      rightNode.slotdata.copy shift rightNode.slotuse rightNode.slotdata 0 = some rightData ∧
      keys.read (usub (leftNode.slotuse + shift) 1) = some last ∧
      (if parentslot < parentNode.slotuse then
        parentNode.slotkey.write parentslot last = some parentKeys
      else parentKeys = parentNode.slotkey) ∧
      Rearranged tree after left right parent
        (.leaf { leftNode with
          slotuse := leftNode.slotuse + shift, slotkey := keys, slotdata := data })
        (.leaf { rightNode with
          slotuse := rightNode.slotuse - shift, slotkey := rightKeys, slotdata := rightData })
        (.inner { parentNode with slotkey := parentKeys }) := by
  have runs : Runs (shiftLeftLeaf (some left) (some right) (some parent) parentslot) tree
    fun _ final => final = after := ⟨result, after, returned, rfl⟩
  simp only [shiftLeftLeaf, assertLevel, assertParentSlot, isLeafNode, level, runs_bind,
    runs_nonNull, runs_btreeAssert_iff debug, runs_getNode, runs_getLeaf, runs_getInner,
    runs_readSlot, runs_copySlots, runs_writeSlot, runs_setLeaf, runs_setInner, runs_pure, runs_get,
    runs_ite, Option.some.injEq, exists_eq_left', Bool.and_eq_true, beq_iff_eq,
    decide_eq_true_eq] at runs
  obtain ⟨-, -, -, -, -, -, -, -, leftNode, atLeft, rightNode, atRight, -, -, donor, parentNode,
    atParent, -, -, -, -, keys, copiedKeys, data, copiedData, rightKeys, droppedKeys, rightData,
    droppedData, last, found, parentNode', atParent', rest⟩ := runs
  have parentLeft := inner_ne_leaf atParent atLeft
  have parentRight := inner_ne_leaf atParent atRight
  obtain rfl : parentNode' = parentNode := by
    simpa [BTree.setNode, parentLeft, parentRight, atParent] using atParent'.symm
  rw [usub_of_le donor.le] at copiedKeys copiedData droppedKeys droppedData found rest
  rw [usub_of_le (show (rightNode.slotuse - leftNode.slotuse) / 2 ≤ rightNode.slotuse by omega)] at rest
  by_cases inside : parentslot < parentNode'.slotuse
  · rw [if_pos inside] at rest
    obtain ⟨parentKeys, written, rfl⟩ := rest
    refine ⟨leftNode, rightNode, parentNode', _, last, keys, data, rightKeys, rightData, parentKeys,
      atLeft, atRight, atParent, donor, rfl, copiedKeys, copiedData, droppedKeys, droppedData, found,
      by rwa [if_pos inside], ?_⟩
    refine ⟨apart, parentLeft, parentRight, ?_, ?_, ?_, ?_, ?_, ?_, ?_⟩ <;>
      simp +contextual [BTree.setNode, apart, parentLeft.symm, parentRight.symm]
  · rw [if_neg inside] at rest
    subst rest
    refine ⟨leftNode, rightNode, parentNode', _, last, keys, data, rightKeys, rightData, _,
      atLeft, atRight, atParent, donor, rfl, copiedKeys, copiedData, droppedKeys, droppedData, found,
      by rw [if_neg inside], ?_⟩
    refine ⟨apart, parentLeft, parentRight, ?_, ?_, ?_, ?_, ?_, ?_, ?_⟩ <;>
      simp +contextual [BTree.setNode, apart, parentLeft, parentRight, atParent]

theorem shiftLeftInner_returned (debug : tree.checks = debugBuild) (apart : left ≠ right)
    {result : Result K}
    (returned : (shiftLeftInner (some left) (some right) (some parent) parentslot).run tree =
      .ok (result, after)) :
    ∃ leftNode rightNode parentNode shift decision opened keys childs risen rightKeys rightChilds
        parentKeys,
      tree.heap left = some (.inner leftNode) ∧ tree.heap right = some (.inner rightNode) ∧
      tree.heap parent = some (.inner parentNode) ∧
      leftNode.slotuse < rightNode.slotuse ∧
      (rightNode.slotuse - leftNode.slotuse) / 2 = shift ∧
      parentNode.slotkey.read parentslot = some decision ∧
      leftNode.slotkey.write leftNode.slotuse decision = some opened ∧
      rightNode.slotkey.copy 0 (usub shift 1) opened (leftNode.slotuse + 1) = some keys ∧
      rightNode.childid.copy 0 shift leftNode.childid (leftNode.slotuse + 1) = some childs ∧
      rightNode.slotkey.read (usub shift 1) = some risen ∧
      parentNode.slotkey.write parentslot risen = some parentKeys ∧
      rightNode.slotkey.copy shift rightNode.slotuse rightNode.slotkey 0 = some rightKeys ∧
      rightNode.childid.copy shift (rightNode.slotuse + 1) rightNode.childid 0 =
        some rightChilds ∧
      Rearranged tree after left right parent
        (.inner { leftNode with
          slotuse := leftNode.slotuse + 1 + usub shift 1, slotkey := keys, childid := childs })
        (.inner { rightNode with
          slotuse := rightNode.slotuse - shift, slotkey := rightKeys, childid := rightChilds })
        (.inner { parentNode with slotkey := parentKeys }) := by
  have runs : Runs (shiftLeftInner (some left) (some right) (some parent) parentslot) tree
    fun _ final => final = after := ⟨result, after, returned, rfl⟩
  simp only [shiftLeftInner, assertLevel, assertParentSlot, level, runs_bind,
    runs_nonNull, runs_btreeAssert_iff debug, runs_getNode, runs_getInner,
    runs_readSlot, runs_copySlots, runs_writeSlot, runs_setInner, runs_pure, runs_get,
    Option.some.injEq, exists_eq_left', beq_iff_eq, decide_eq_true_eq] at runs
  obtain ⟨leftAny, atLeftAny, rightAny, atRightAny, sameLevel, parentAny, atParentAny, leftAgain,
    atLeftAgain, above, leftNode, atLeft, rightNode, atRight, donor, -, -, -, -, -, -, parentNode,
    atParent, decision, found, opened, written, keys, copiedKeys, childs, copiedChilds, risen,
    foundRisen, parentKeys, writtenRisen, rightKeys, droppedKeys, rightChilds, droppedChilds,
    rest⟩ := runs
  obtain rfl := Option.some.inj (atLeftAny.symm.trans atLeftAgain)
  have parentLeft := ne_of_above atParentAny atLeftAny (above ▸ Nat.lt_succ_self _)
  have parentRight := ne_of_above atParentAny atRightAny (sameLevel ▸ above ▸ Nat.lt_succ_self _)
  rw [usub_of_le donor.le] at copiedKeys copiedChilds foundRisen droppedKeys droppedChilds rest
  rw [usub_of_le (show (rightNode.slotuse - leftNode.slotuse) / 2 ≤ rightNode.slotuse by omega)] at rest
  subst rest
  refine ⟨leftNode, rightNode, parentNode, _, decision, opened, keys, childs, risen, rightKeys,
    rightChilds, parentKeys, atLeft, atRight, atParent, donor, rfl, found, written, copiedKeys,
    copiedChilds, foundRisen, writtenRisen, droppedKeys, droppedChilds, ?_⟩
  refine ⟨apart, parentLeft, parentRight, ?_, ?_, ?_, ?_, ?_, ?_, ?_⟩ <;>
    simp +contextual [BTree.setNode, apart, parentLeft.symm, parentRight]

theorem shiftRightLeaf_returned (debug : tree.checks = debugBuild) (apart : left ≠ right)
    {result : Result K}
    (returned : (shiftRightLeaf (some left) (some right) (some parent) parentslot).run tree =
      .ok (result, after)) :
    ∃ leftNode rightNode parentNode shift last movedKeys movedData keys data parentKeys,
      tree.heap left = some (.leaf leftNode) ∧ tree.heap right = some (.leaf rightNode) ∧
      tree.heap parent = some (.inner parentNode) ∧
      rightNode.slotuse < leftNode.slotuse ∧
      (leftNode.slotuse - rightNode.slotuse) / 2 = shift ∧
      rightNode.slotkey.copyBackward 0 rightNode.slotuse rightNode.slotkey
        (rightNode.slotuse + shift) = some movedKeys ∧
      rightNode.slotdata.copyBackward 0 rightNode.slotuse rightNode.slotdata
        (rightNode.slotuse + shift) = some movedData ∧
      leftNode.slotkey.copy (leftNode.slotuse - shift) leftNode.slotuse movedKeys 0 =
        some keys ∧
      leftNode.slotdata.copy (leftNode.slotuse - shift) leftNode.slotuse movedData 0 =
        some data ∧
      leftNode.slotkey.read (leftNode.slotuse - shift - 1) = some last ∧
      parentNode.slotkey.write parentslot last = some parentKeys ∧
      Rearranged tree after left right parent
        (.leaf { leftNode with slotuse := leftNode.slotuse - shift })
        (.leaf { rightNode with
          slotuse := rightNode.slotuse + shift, slotkey := keys, slotdata := data })
        (.inner { parentNode with slotkey := parentKeys }) := by
  have runs : Runs (shiftRightLeaf (some left) (some right) (some parent) parentslot) tree
    fun _ final => final = after := ⟨result, after, returned, rfl⟩
  simp only [shiftRightLeaf, assertLevel, assertParentSlot, isLeafNode, level, runs_bind,
    runs_nonNull, runs_btreeAssert_iff debug, runs_getNode, runs_getLeaf, runs_getInner,
    runs_readSlot, runs_copySlots, runs_writeSlot, runs_setLeaf, runs_setInner, runs_pure, runs_get,
    Option.some.injEq, exists_eq_left', Bool.and_eq_true, beq_iff_eq, decide_eq_true_eq,
    runs_copySlotsBackward] at runs
  obtain ⟨-, -, -, -, -, -, -, -, leftNode, atLeft, rightNode, atRight, -, -, parentNode, atParent,
    -, -, -, donor, -, movedKeys, raisedKeys, movedData, raisedData, keys, copiedKeys, data,
    copiedData, last, found, parentNode', atParent', parentKeys, written, rest⟩ := runs
  have parentLeft := inner_ne_leaf atParent atLeft
  have parentRight := inner_ne_leaf atParent atRight
  obtain rfl : parentNode' = parentNode := by
    simpa [BTree.setNode, parentLeft, parentRight, atParent] using atParent'.symm
  have below : (leftNode.slotuse - rightNode.slotuse) / 2 ≤ leftNode.slotuse := by omega
  have kept : 1 ≤ leftNode.slotuse - (leftNode.slotuse - rightNode.slotuse) / 2 := by omega
  rw [usub_of_le donor.le] at raisedKeys raisedData copiedKeys copiedData found rest
  rw [usub_of_le below] at copiedKeys copiedData found rest
  rw [usub_of_le kept] at found
  subst rest
  refine ⟨leftNode, rightNode, parentNode', _, last, movedKeys, movedData, keys, data, parentKeys,
    atLeft, atRight, atParent, donor, rfl, raisedKeys, raisedData, copiedKeys, copiedData, found,
    written, ?_⟩
  refine ⟨apart, parentLeft, parentRight, ?_, ?_, ?_, ?_, ?_, ?_, ?_⟩ <;>
    simp +contextual [BTree.setNode, apart.symm, parentLeft.symm, parentRight.symm]

theorem shiftRightInner_returned (debug : tree.checks = debugBuild) (apart : left ≠ right)
    {result : Result K}
    (returned : (shiftRightInner (some left) (some right) (some parent) parentslot).run tree =
      .ok (result, after)) :
    ∃ leftNode rightNode parentNode shift decision movedKeys movedChilds opened keys childs risen
        parentKeys,
      tree.heap left = some (.inner leftNode) ∧ tree.heap right = some (.inner rightNode) ∧
      tree.heap parent = some (.inner parentNode) ∧
      rightNode.slotuse < leftNode.slotuse ∧
      (leftNode.slotuse - rightNode.slotuse) / 2 = shift ∧
      rightNode.slotkey.copyBackward 0 rightNode.slotuse rightNode.slotkey
        (rightNode.slotuse + shift) = some movedKeys ∧
      rightNode.childid.copyBackward 0 (rightNode.slotuse + 1) rightNode.childid
        (rightNode.slotuse + 1 + shift) = some movedChilds ∧
      parentNode.slotkey.read parentslot = some decision ∧
      movedKeys.write (usub shift 1) decision = some opened ∧
      leftNode.slotkey.copy (leftNode.slotuse - shift + 1) leftNode.slotuse opened 0 =
        some keys ∧
      leftNode.childid.copy (leftNode.slotuse - shift + 1) (leftNode.slotuse + 1) movedChilds 0 =
        some childs ∧
      leftNode.slotkey.read (leftNode.slotuse - shift) = some risen ∧
      parentNode.slotkey.write parentslot risen = some parentKeys ∧
      Rearranged tree after left right parent
        (.inner { leftNode with slotuse := leftNode.slotuse - shift })
        (.inner { rightNode with
          slotuse := rightNode.slotuse + shift, slotkey := keys, childid := childs })
        (.inner { parentNode with slotkey := parentKeys }) := by
  have runs : Runs (shiftRightInner (some left) (some right) (some parent) parentslot) tree
    fun _ final => final = after := ⟨result, after, returned, rfl⟩
  simp only [shiftRightInner, assertLevel, assertParentSlot, level, runs_bind,
    runs_nonNull, runs_btreeAssert_iff debug, runs_getNode, runs_getInner,
    runs_readSlot, runs_copySlots, runs_writeSlot, runs_setInner, runs_pure, runs_get,
    Option.some.injEq, exists_eq_left', beq_iff_eq, decide_eq_true_eq,
    runs_copySlotsBackward] at runs
  obtain ⟨leftAny, atLeftAny, rightAny, atRightAny, sameLevel, parentAny, atParentAny, leftAgain,
    atLeftAgain, above, leftNode, atLeft, rightNode, atRight, donor, -, -, -, -, -, -, movedKeys,
    raisedKeys, movedChilds, raisedChilds, parentNode, atParent, decision, found, opened, written,
    keys, copiedKeys, childs, copiedChilds, risen, foundRisen, parentKeys, writtenRisen,
    rest⟩ := runs
  obtain rfl := Option.some.inj (atLeftAny.symm.trans atLeftAgain)
  have parentLeft := ne_of_above atParentAny atLeftAny (above ▸ Nat.lt_succ_self _)
  have parentRight := ne_of_above atParentAny atRightAny (sameLevel ▸ above ▸ Nat.lt_succ_self _)
  have below : (leftNode.slotuse - rightNode.slotuse) / 2 ≤ leftNode.slotuse := by omega
  rw [usub_of_le donor.le] at raisedKeys raisedChilds written copiedKeys copiedChilds foundRisen rest
  rw [usub_of_le below] at copiedKeys copiedChilds foundRisen rest
  subst rest
  refine ⟨leftNode, rightNode, parentNode, _, decision, movedKeys, movedChilds, opened, keys,
    childs, risen, parentKeys, atLeft, atRight, atParent, donor, rfl, raisedKeys, raisedChilds,
    found, written, copiedKeys, copiedChilds, foundRisen, writtenRisen, ?_⟩
  refine ⟨apart, parentLeft, parentRight, ?_, ?_, ?_, ?_, ?_, ?_, ?_⟩ <;>
    simp +contextual [BTree.setNode, apart.symm, parentLeft, parentRight.symm]

theorem mergeInner_returned (debug : tree.checks = debugBuild) (apart : left ≠ right)
    {result : Result K}
    (returned : (mergeInner (some left) (some right) (some parent) parentslot).run tree =
      .ok (result, after)) :
    ∃ leftNode rightNode parentNode decision opened keys childs,
      tree.heap left = some (.inner leftNode) ∧ tree.heap right = some (.inner rightNode) ∧
      tree.heap parent = some (.inner parentNode) ∧
      parentNode.slotkey.read parentslot = some decision ∧
      leftNode.slotkey.write leftNode.slotuse decision = some opened ∧
      rightNode.slotkey.copy 0 rightNode.slotuse opened (leftNode.slotuse + 1) = some keys ∧
      rightNode.childid.copy 0 (rightNode.slotuse + 1) leftNode.childid (leftNode.slotuse + 1) =
        some childs ∧
      Rearranged tree after left right parent
        (.inner { leftNode with
          slotuse := leftNode.slotuse + 1 + rightNode.slotuse, slotkey := keys, childid := childs })
        (.inner { rightNode with slotuse := 0 }) (.inner parentNode) := by
  have runs : Runs (mergeInner (some left) (some right) (some parent) parentslot) tree
    fun _ final => final = after := ⟨result, after, returned, rfl⟩
  simp only [mergeInner, assertLevel, assertParentSlot, level, runs_bind,
    runs_nonNull, runs_btreeAssert_iff debug, runs_getNode, runs_getInner,
    runs_readSlot, runs_copySlots, runs_writeSlot, runs_setInner, runs_pure, runs_get,
    Option.some.injEq, exists_eq_left', beq_iff_eq, decide_eq_true_eq] at runs
  obtain ⟨leftAny, atLeftAny, rightAny, atRightAny, sameLevel, parentAny, atParentAny, leftAgain,
    atLeftAgain, above, -, -, -, -, -, leftNode, atLeft, rightNode, atRight, -, parentNode,
    atParent, decision, found, opened, written, keys, copiedKeys, childs, copiedChilds,
    rfl⟩ := runs
  obtain rfl := Option.some.inj (atLeftAny.symm.trans atLeftAgain)
  have parentLeft := ne_of_above atParentAny atLeftAny (above ▸ Nat.lt_succ_self _)
  have parentRight := ne_of_above atParentAny atRightAny (sameLevel ▸ above ▸ Nat.lt_succ_self _)
  refine ⟨leftNode, rightNode, parentNode, decision, opened, keys, childs, atLeft, atRight,
    atParent, found, written, copiedKeys, copiedChilds, ?_⟩
  refine ⟨apart, parentLeft, parentRight, ?_, ?_, ?_, ?_, ?_, ?_, ?_⟩ <;>
    simp +contextual [BTree.setNode, apart, parentLeft, parentRight, atParent]

theorem mergeLeaves_returned (debug : tree.checks = debugBuild) (apart : left ≠ right)
    {result : Result K}
    (returned : (mergeLeaves (some left) (some right) (some parent)).run tree =
      .ok (result, after)) :
    ∃ leftNode rightNode parentNode keys data,
      tree.heap left = some (.leaf leftNode) ∧ tree.heap right = some (.leaf rightNode) ∧
      tree.heap parent = some parentNode ∧ parentNode.level = 1 ∧
      rightNode.slotkey.copy 0 rightNode.slotuse leftNode.slotkey leftNode.slotuse = some keys ∧
      rightNode.slotdata.copy 0 rightNode.slotuse leftNode.slotdata leftNode.slotuse =
        some data ∧
      ∀ next, rightNode.nextleaf = some next → next ≠ left → next ≠ right →
        ∃ nextNode, tree.heap next = some (.leaf nextNode) ∧
          Rearranged tree after left right next
            (.leaf { leftNode with
              slotuse := leftNode.slotuse + rightNode.slotuse, nextleaf := rightNode.nextleaf
              slotkey := keys, slotdata := data })
            (.leaf { rightNode with slotuse := 0 })
            (.leaf { nextNode with prevleaf := some left }) := by
  have runs : Runs (mergeLeaves (some left) (some right) (some parent)) tree
    fun _ final => final = after := ⟨result, after, returned, rfl⟩
  simp only [mergeLeaves, assertLevel, isLeafNode, level, runs_bind, runs_nonNull,
    runs_btreeAssert_iff debug, runs_getNode, runs_getLeaf, runs_copySlots, runs_setLeaf, runs_pure,
    runs_get, Option.some.injEq, exists_eq_left', Bool.and_eq_true, beq_iff_eq,
    decide_eq_true_eq] at runs
  obtain ⟨-, -, -, -, -, parentNode, atParent, isParent, leftNode, atLeft, rightNode, atRight, -,
    keys, copiedKeys, data, copiedData, rest⟩ := runs
  refine ⟨leftNode, rightNode, parentNode, keys, data, atLeft, atRight, atParent, isParent,
    copiedKeys, copiedData, fun next isNext nextLeft nextRight => ?_⟩
  rw [isNext] at rest
  simp only [setBehind, runs_bind, runs_getLeaf, runs_setLeaf] at rest
  obtain ⟨nextNode, atNext, rfl⟩ := rest
  have wasNext : tree.heap next = some (.leaf nextNode) := by
    simpa [BTree.setNode, nextLeft] using atNext
  refine ⟨nextNode, wasNext, ?_⟩
  refine ⟨apart, nextLeft, nextRight, ?_, ?_, ?_, ?_, ?_, ?_, ?_⟩ <;>
    simp +contextual [BTree.setNode, apart, nextLeft.symm, nextRight, isNext]

end PersistentBTree.Memory
