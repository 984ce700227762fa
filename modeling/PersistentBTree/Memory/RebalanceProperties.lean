import PersistentBTree.Memory.Rebalance
import PersistentBTree.Memory.SplitProperties

/-! What the merge and shift helpers do to two adjacent nodes and their
parent. -/

set_option autoImplicit false

namespace PersistentBTree.Memory

open Imperative Multimap

variable {K D : Type} {tree : BTree K D}

/-! ## Assertions -/

theorem BTree.LeafAt.runs_isLeafNode {ptr : Ptr} {pairs : List (K × D)}
    (stored : tree.LeafAt ptr pairs) (post : Bool → BTree K D → Prop) :
    Runs (isLeafNode ptr) tree post ↔ post true tree := by
  obtain ⟨node, found, -⟩ := stored
  simp [isLeafNode, found, Node.level]

theorem BTree.InnerAt.runs_level {ptr : Ptr} {height : Nat} {keys : List K} {children : List Ptr}
    (stored : tree.InnerAt ptr height keys children) (post : Nat → BTree K D → Prop) :
    Runs (level ptr) tree post ↔ post height tree := by
  obtain ⟨node, found, isLevel, -⟩ := stored
  simp [level, found, Node.level, isLevel]

theorem runs_assertLevel {parent : Ptr} {height : Nat} {keys : List K} {children : List Ptr}
    {expected : M K D Nat} {post : Unit → BTree K D → Prop}
    (stored : tree.InnerAt parent height keys children)
    (isExpected : Runs expected tree fun wanted final => wanted = height ∧ final = tree)
    (next : post () tree) : Runs (assertLevel (some parent) expected) tree post := by
  refine runs_btreeAssert (fun _ => ?_) next
  simp only [runs_bind, runs_nonNull, Option.some.injEq, exists_eq_left', stored.runs_level]
  refine isExpected.mono ?_
  rintro wanted final ⟨rfl, rfl⟩
  simp

theorem runs_assertParentSlot {parent child : Ptr} {height : Nat} {keys : List K}
    {front back : List Ptr} {post : Unit → BTree K D → Prop}
    (stored : tree.InnerAt parent height keys (front ++ child :: back)) (next : post () tree) :
    Runs (assertParentSlot (some parent) front.length child) tree post := by
  refine runs_btreeAssert (fun _ => ?_) next
  obtain ⟨node, found, -, stores⟩ := stored
  simp only [runs_bind, runs_nonNull, Option.some.injEq, exists_eq_left', runs_getInner,
    runs_readSlot, runs_pure]
  exact ⟨node, found, child, stores.children.read, by simp, trivial⟩

/-! ## Leaves -/

/-- The leaf `right` was merged into `left`, the leaf before it. -/
structure LeafMerge (before after : BTree K D) (left right : Ptr) (pairs : List (K × D))
    (lefts rights : List Ptr) : Prop where
  merged : after.LeafAt left pairs
  emptied : after.LeafAt right []
  frame : before.Frame after {left, right}
  chained : after.Chained (lefts ++ left :: rights)
  mRoot : after.mRoot = before.mRoot
  mStats : after.mStats = before.mStats
  brk : after.brk = before.brk

/-- Pairs were moved between two leaves and the separator in the parent was
rewritten. -/
structure LeafShift (before after : BTree K D) (left right parent : Ptr)
    (front back : List (K × D)) (keys : List K) (children : List Ptr) : Prop where
  leftAt : after.LeafAt left front
  rightAt : after.LeafAt right back
  parentAt : after.InnerAt parent 1 keys children
  rewritten : before.Rewritten after {left, right, parent}

section Leaves

variable {left right parent : Ptr} {front back : List (K × D)} {lefts rights : List Ptr}
  {keys : List K} {children : List Ptr}

/-- Two leaves that follow each other in the chain. -/
private theorem adjacent_leaves {leftNode rightNode : LeafNode K D}
    (foundLeft : tree.heap left = some (.leaf leftNode))
    (foundRight : tree.heap right = some (.leaf rightNode))
    (chained : tree.Chained (lefts ++ left :: right :: rights))
    (unique : (lefts ++ left :: right :: rights).Nodup) :
    left ≠ right ∧ leftNode.prevleaf = lefts.getLast? ∧ leftNode.nextleaf = some right ∧
      rightNode.prevleaf = some left ∧ rightNode.nextleaf = rights.head? := by
  obtain ⟨leftNode', foundLeft', leftPrev, leftNext⟩ := chained.exists_leaf
  obtain rfl : leftNode = leftNode' := by simpa [foundLeft] using foundLeft'
  have rightChained : tree.Chained ((lefts ++ [left]) ++ right :: rights) := by
    simpa using chained
  obtain ⟨rightNode', foundRight', rightPrev, rightNext⟩ := rightChained.exists_leaf
  obtain rfl : rightNode = rightNode' := by simpa [foundRight] using foundRight'
  have tailUnique := List.nodup_cons.mp (List.nodup_append.mp unique).2.1
  exact ⟨fun same => tailUnique.1 (same ▸ List.mem_cons_self), leftPrev, by simpa using leftNext,
    by simpa using rightPrev, rightNext⟩

/-- The two leaves as they are stored at the end of a merge. -/
private theorem leafMerge_of_nodes {leftNode rightNode new old : LeafNode K D}
    {pairs : List (K × D)} (foundLeft : tree.heap left = some (.leaf leftNode))
    (foundRight : tree.heap right = some (.leaf rightNode))
    (chained : tree.Chained (lefts ++ left :: right :: rights))
    (unique : (lefts ++ left :: right :: rights).Nodup)
    (newStores : new.Stores tree.sizes.leafslotmax pairs)
    (oldStores : old.Stores tree.sizes.leafslotmax [])
    (newLinks : new.links = (leftNode.prevleaf, rightNode.nextleaf)) :
    LeafMerge tree (((tree.setNode left (some (.leaf new))).behind rightNode.nextleaf left).setNode
      right (some (.leaf old))) left right pairs lefts rights := by
  obtain ⟨apart, leftPrev, -, -, rightNext⟩ :=
    adjacent_leaves foundLeft foundRight chained unique
  have tailUnique := List.nodup_cons.mp (List.nodup_append.mp unique).2.1
  have leftBehind : rightNode.nextleaf ≠ some left := by
    rw [rightNext]
    exact fun isHead => tailUnique.1 (List.mem_cons_of_mem _ (List.mem_of_mem_head? isHead))
  have rightBehind : rightNode.nextleaf ≠ some right := by
    rw [rightNext]
    exact fun isHead => (List.nodup_cons.mp tailUnique.2).1 (List.mem_of_mem_head? isHead)
  refine ⟨⟨new, ?_, newStores⟩, ⟨old, BTree.heap_setNode_self .., oldStores⟩, ?_, ?_, rfl, rfl,
    rfl⟩
  · rw [BTree.heap_setNode_of_ne _ _ apart, BTree.heap_behind_of_ne _ _ leftBehind,
      BTree.heap_setNode_self]
  · refine ⟨rfl, rfl, fun other outside => ?_⟩
    simp only [Set.mem_insert_iff, Set.mem_singleton_iff, not_or] at outside
    rw [BTree.content_setNode_of_ne _ _ outside.2, BTree.content_behind,
      BTree.content_setNode_of_ne _ _ outside.1]
  · refine chained.unlink_after unique ?_ ?_ ?_ rfl ?_
    · rw [BTree.links_setNode_of_ne _ _ apart, BTree.links_behind_of_ne _ _ leftBehind,
        BTree.links_setNode_leaf, newLinks, leftPrev, rightNext]
    · intro other isHead
      rw [← rightNext] at isHead
      have otherRight : other ≠ right := fun same => rightBehind (same ▸ isHead)
      have otherLeft : other ≠ left := fun same => leftBehind (same ▸ isHead)
      rw [BTree.links_setNode_of_ne _ _ otherRight, BTree.links_behind_self _ _ isHead,
        BTree.links_setNode_of_ne _ _ otherLeft]
    · intro other otherLeft otherRight notHead
      rw [BTree.links_setNode_of_ne _ _ otherRight,
        BTree.links_behind_of_ne _ _ (by rwa [rightNext]), BTree.links_setNode_of_ne _ _ otherLeft]
    · simp only [BTree.mTailleaf_setNode, BTree.behind, rightNext]

private theorem leafShift_of_nodes {leftNode rightNode newLeft newRight : LeafNode K D}
    {parentNode newParent : InnerNode K}
    (foundLeft : tree.heap left = some (.leaf leftNode))
    (foundRight : tree.heap right = some (.leaf rightNode))
    (foundParent : tree.heap parent = some (.inner parentNode)) (apart : left ≠ right)
    (leftLinks : newLeft.links = leftNode.links) (rightLinks : newRight.links = rightNode.links)
    (leftStores : newLeft.Stores tree.sizes.leafslotmax front)
    (rightStores : newRight.Stores tree.sizes.leafslotmax back) (isLevel : newParent.level = 1)
    (parentStores : newParent.Stores tree.sizes.innerslotmax keys children) :
    LeafShift tree (((tree.setNode left (some (.leaf newLeft))).setNode right
      (some (.leaf newRight))).setNode parent (some (.inner newParent))) left right parent front
      back keys children := by
  have leftParent : left ≠ parent := by
    rintro rfl
    simp [foundLeft] at foundParent
  have rightParent : right ≠ parent := by
    rintro rfl
    simp [foundRight] at foundParent
  refine ⟨⟨newLeft, ?_, leftStores⟩, ⟨newRight, ?_, rightStores⟩,
    ⟨newParent, BTree.heap_setNode_self .., isLevel, parentStores⟩, ?_⟩
  · rw [BTree.heap_setNode_of_ne _ _ leftParent, BTree.heap_setNode_of_ne _ _ apart,
      BTree.heap_setNode_self]
  · rw [BTree.heap_setNode_of_ne _ _ rightParent, BTree.heap_setNode_self]
  · have first := BTree.Rewritten.setLeaf foundLeft leftLinks
    have second := BTree.Rewritten.setLeaf
      ((BTree.heap_setNode_of_ne tree (some (.leaf newLeft)) (Ne.symm apart)).trans foundRight)
      rightLinks
    have third := BTree.Rewritten.setInner (((BTree.heap_setNode_of_ne _ (some (.leaf newRight))
      (Ne.symm rightParent)).trans (BTree.heap_setNode_of_ne tree (some (.leaf newLeft))
      (Ne.symm leftParent))).trans foundParent) newParent
    exact ((first.mono (by simp)).trans (second.mono (by simp))).trans (third.mono (by simp))

variable [Inhabited K] {post : Result K → BTree K D → Prop}

theorem mergeLeaves_runs (leftStored : tree.LeafAt left front)
    (rightStored : tree.LeafAt right back) (parentStored : tree.InnerAt parent 1 keys children)
    (fits : front.length + back.length ≤ tree.sizes.leafslotmax)
    (checked : tree.checks .fits = true → front.length + back.length < tree.sizes.leafslotmax)
    (chained : tree.Chained (lefts ++ left :: right :: rights))
    (unique : (lefts ++ left :: right :: rights).Nodup)
    (next : ∀ after, LeafMerge tree after left right (front ++ back) lefts rights →
      post .merged after) :
    Runs (mergeLeaves (some left) (some right) (some parent)) tree post := by
  have isLeft := leftStored.runs_isLeafNode
  have isRight := rightStored.runs_isLeafNode
  obtain ⟨leftNode, foundLeft, leftStores⟩ := leftStored
  obtain ⟨rightNode, foundRight, rightStores⟩ := rightStored
  have leftUsed := leftStores.used
  have rightUsed := rightStores.used
  obtain ⟨newKeys, keysCopied, keysHold, keysSize⟩ :=
    leftStores.keys.appendAll rightStores.keys (by simpa [leftStores.keyRoom] using fits)
  obtain ⟨newData, dataCopied, dataHold, dataSize⟩ :=
    leftStores.data.appendAll rightStores.data (by simpa [leftStores.dataRoom] using fits)
  simp only [List.length_map, ← leftUsed, ← rightUsed] at keysCopied dataCopied
  obtain ⟨-, -, -, -, rightNext⟩ := adjacent_leaves foundLeft foundRight chained unique
  simp only [mergeLeaves, runs_bind, runs_nonNull, Option.some.injEq, exists_eq_left']
  refine runs_btreeAssert (fun _ => ?_) (runs_assertLevel parentStored (by simp) ?_)
  · simp [isLeft, isRight]
  simp only [runs_getLeaf]
  refine ⟨leftNode, foundLeft, rightNode, foundRight, runs_btreeAssert (fun enabled => ?_) ?_⟩
  · simpa [leftUsed, rightUsed] using checked enabled
  simp only [runs_copySlots, runs_setLeaf]
  refine ⟨newKeys, keysCopied, newData, dataCopied, runs_setBehind ?_ (by simp) ?_⟩
  · intro other isNext
    by_cases same : other = left
    · subst same
      exact ⟨_, BTree.heap_setNode_self ..⟩
    · have member : other ∈ rights := List.mem_of_mem_head? (rightNext.symm.trans isNext)
      obtain ⟨node, found⟩ : ∃ node, tree.heap other = some (.leaf node) :=
        chained.exists_leaf_of_mem (by simp [member])
      exact ⟨node, by rw [BTree.heap_setNode_of_ne _ _ same, found]⟩
  simp only [runs_pure]
  refine next _ (leafMerge_of_nodes foundLeft foundRight chained unique ?_ ?_ rfl)
  · exact ⟨by simp [leftUsed, rightUsed], by simpa using keysHold, by simpa using dataHold,
      keysSize.trans leftStores.keyRoom, dataSize.trans leftStores.dataRoom⟩
  · exact ⟨rfl, Buffer.holds_nil _, Buffer.holds_nil _, rightStores.keyRoom,
      rightStores.dataRoom⟩

/-- The first pairs of the right leaf move to the left one. -/
theorem shiftLeftLeaf_runs {frontKeys backKeys : List K} {key last : K}
    {frontChildren backChildren : List Ptr} {moved : List (K × D)}
    (leftStored : tree.LeafAt left front) (rightStored : tree.LeafAt right (moved ++ back))
    (parentStored : tree.InnerAt parent 1 (frontKeys ++ key :: backKeys)
      (frontChildren ++ left :: right :: backChildren))
    (aligned : frontChildren.length = frontKeys.length)
    (chained : tree.Chained (lefts ++ left :: right :: rights))
    (unique : (lefts ++ left :: right :: rights).Nodup)
    (donor : front.length < moved.length + back.length)
    (half : (moved.length + back.length - front.length) / 2 = moved.length)
    (isLast : lastKeyOf (front ++ moved) = some last)
    (next : ∀ after, LeafShift tree after left right parent (front ++ moved) back
      (frontKeys ++ last :: backKeys) (frontChildren ++ left :: right :: backChildren) →
      post .ok after) :
    Runs (shiftLeftLeaf (some left) (some right) (some parent) frontKeys.length) tree post := by
  have isLeft := leftStored.runs_isLeafNode
  have isRight := rightStored.runs_isLeafNode
  obtain ⟨leftNode, foundLeft, leftStores⟩ := leftStored
  obtain ⟨rightNode, foundRight, rightStores⟩ := rightStored
  have parentSlot : ∀ {post : Unit → BTree K D → Prop}, post () tree →
      Runs (assertParentSlot (some parent) frontKeys.length left) tree post := by
    rw [← aligned]
    exact fun holds => runs_assertParentSlot parentStored holds
  obtain ⟨apart, -, leftNext, rightPrev, -⟩ :=
    adjacent_leaves foundLeft foundRight chained unique
  have leftUsed := leftStores.used
  have rightUsed := rightStores.used
  rw [List.length_append] at rightUsed
  have fits : moved.length + back.length ≤ tree.sizes.leafslotmax := by
    have room := rightStores.keys.length_le
    rw [rightStores.keyRoom] at room
    simpa using room
  have leftParent : parent ≠ left := by
    rintro rfl
    obtain ⟨node, found, -⟩ := parentStored
    simp [foundLeft] at found
  have rightParent : parent ≠ right := by
    rintro rfl
    obtain ⟨node, found, -⟩ := parentStored
    simp [foundRight] at found
  have rightKeys : Buffer.Holds rightNode.slotkey (moved.map Prod.fst ++ back.map Prod.fst) := by
    simpa using rightStores.keys
  have rightData : Buffer.Holds rightNode.slotdata (moved.map Prod.snd ++ back.map Prod.snd) := by
    simpa using rightStores.data
  obtain ⟨newKeys, keysCopied, keysHold, keysSize⟩ :=
    leftStores.keys.append rightKeys (by simp [leftStores.keyRoom]; omega)
  obtain ⟨newData, dataCopied, dataHold, dataSize⟩ :=
    leftStores.data.append rightData (by simp [leftStores.dataRoom]; omega)
  obtain ⟨restKeys, restKeysMoved, restKeysHold, restKeysSize⟩ := rightKeys.dropFront
  obtain ⟨restData, restDataMoved, restDataHold, restDataSize⟩ := rightData.dropFront
  simp only [List.length_map, ← leftUsed, ← rightUsed]
    at keysCopied dataCopied restKeysMoved restDataMoved
  obtain ⟨parentNode, foundParent, parentLevel, parentStores⟩ := parentStored
  obtain ⟨newParent, parentWritten, parentHold, parentSize⟩ := parentStores.keys.write last
  have shiftnum : usub rightNode.slotuse leftNode.slotuse / 2 = moved.length := by
    rw [leftUsed, rightUsed, usub_of_le (by omega), half]
  have staying : usub rightNode.slotuse moved.length = back.length := by
    rw [usub_of_le (by omega)]
    omega
  simp only [shiftLeftLeaf, runs_bind, runs_nonNull, Option.some.injEq, exists_eq_left']
  refine runs_btreeAssert (fun _ => ?_)
    (runs_assertLevel ⟨parentNode, foundParent, parentLevel, parentStores⟩ (by simp) ?_)
  · simp [isLeft, isRight]
  simp only [runs_getLeaf]
  refine ⟨leftNode, foundLeft, rightNode, foundRight, runs_btreeAssert (fun _ => ?_)
    (runs_btreeAssert (fun _ => ?_) (runs_btreeAssert (fun _ => ?_) (parentSlot
      (runs_btreeAssert (fun _ => ?_) ?_))))⟩
  · simp [leftNext]
  · simp [rightPrev]
  · simp [leftUsed, rightUsed, donor]
  · simp only [shiftnum, runs_bind, runs_get, runs_pure, decide_eq_true_eq, and_true]
    omega
  simp only [shiftnum, runs_copySlots, runs_setLeaf, runs_readSlot, runs_getInner]
  refine ⟨newKeys, keysCopied, newData, dataCopied, restKeys, restKeysMoved, restData,
    restDataMoved, last, ?_, parentNode, ?_, ?_⟩
  · rw [leftUsed, ← List.length_append]
    exact read_lastKey (by simpa using keysHold) isLast
  · rw [BTree.heap_setNode_of_ne _ _ rightParent, BTree.heap_setNode_of_ne _ _ leftParent,
      foundParent]
  rw [runs_ite, if_pos (by simp [parentStores.used])]
  simp only [runs_bind, runs_writeSlot, runs_setInner, runs_pure]
  refine ⟨newParent, parentWritten, next _ (leafShift_of_nodes foundLeft foundRight foundParent
    apart rfl rfl ?_ ?_ parentLevel ?_)⟩
  · exact ⟨by simp [leftUsed], by simpa using keysHold, by simpa using dataHold,
      keysSize.trans leftStores.keyRoom, dataSize.trans leftStores.dataRoom⟩
  · exact ⟨staying, restKeysHold, restDataHold,
      restKeysSize.trans rightStores.keyRoom, restDataSize.trans rightStores.dataRoom⟩
  · exact ⟨by simpa using parentStores.used, by simpa using parentStores.count, parentHold,
      parentStores.children, parentSize.trans parentStores.keyRoom, parentStores.childRoom⟩

/-- The last pairs of the left leaf move to the right one. -/
theorem shiftRightLeaf_runs {frontKeys backKeys : List K} {key last : K}
    {frontChildren backChildren : List Ptr} {moved : List (K × D)}
    (leftStored : tree.LeafAt left (front ++ moved)) (rightStored : tree.LeafAt right back)
    (parentStored : tree.InnerAt parent 1 (frontKeys ++ key :: backKeys)
      (frontChildren ++ left :: right :: backChildren))
    (aligned : frontChildren.length = frontKeys.length)
    (chained : tree.Chained (lefts ++ left :: right :: rights))
    (unique : (lefts ++ left :: right :: rights).Nodup)
    (donor : back.length < front.length + moved.length)
    (half : (front.length + moved.length - back.length) / 2 = moved.length)
    (isLast : lastKeyOf front = some last)
    (next : ∀ after, LeafShift tree after left right parent front (moved ++ back)
      (frontKeys ++ last :: backKeys) (frontChildren ++ left :: right :: backChildren) →
      post .ok after) :
    Runs (shiftRightLeaf (some left) (some right) (some parent) frontKeys.length) tree post := by
  have isLeft := leftStored.runs_isLeafNode
  have isRight := rightStored.runs_isLeafNode
  obtain ⟨leftNode, foundLeft, leftStores⟩ := leftStored
  obtain ⟨rightNode, foundRight, rightStores⟩ := rightStored
  have parentSlot : ∀ {post : Unit → BTree K D → Prop}, post () tree →
      Runs (assertParentSlot (some parent) frontKeys.length left) tree post := by
    rw [← aligned]
    exact fun holds => runs_assertParentSlot parentStored holds
  obtain ⟨apart, -, leftNext, rightPrev, -⟩ :=
    adjacent_leaves foundLeft foundRight chained unique
  have leftUsed := leftStores.used
  have rightUsed := rightStores.used
  rw [List.length_append] at leftUsed
  have fits : front.length + moved.length ≤ tree.sizes.leafslotmax := by
    have room := leftStores.keys.length_le
    rw [leftStores.keyRoom] at room
    simpa using room
  have leftParent : parent ≠ left := by
    rintro rfl
    obtain ⟨node, found, -⟩ := parentStored
    simp [foundLeft] at found
  have rightParent : parent ≠ right := by
    rintro rfl
    obtain ⟨node, found, -⟩ := parentStored
    simp [foundRight] at found
  have leftKeys : Buffer.Holds leftNode.slotkey (front.map Prod.fst ++ moved.map Prod.fst) := by
    simpa using leftStores.keys
  have leftData : Buffer.Holds leftNode.slotdata (front.map Prod.snd ++ moved.map Prod.snd) := by
    simpa using leftStores.data
  obtain ⟨upKeys, newKeys, keysShifted, keysCopied, keysHold, keysSize⟩ :=
    rightStores.keys.prepend leftKeys (by simp [rightStores.keyRoom]; omega)
  obtain ⟨upData, newData, dataShifted, dataCopied, dataHold, dataSize⟩ :=
    rightStores.data.prepend leftData (by simp [rightStores.dataRoom]; omega)
  simp only [List.length_map, ← leftUsed, ← rightUsed]
    at keysShifted keysCopied dataShifted dataCopied
  obtain ⟨parentNode, foundParent, parentLevel, parentStores⟩ := parentStored
  obtain ⟨newParent, parentWritten, parentHold, parentSize⟩ := parentStores.keys.write last
  have shiftnum : usub leftNode.slotuse rightNode.slotuse / 2 = moved.length := by
    rw [leftUsed, rightUsed, usub_of_le (by omega), half]
  have staying : usub leftNode.slotuse moved.length = front.length := by
    rw [usub_of_le (by omega)]
    omega
  simp only [shiftRightLeaf, runs_bind, runs_nonNull, Option.some.injEq, exists_eq_left']
  refine runs_btreeAssert (fun _ => ?_)
    (runs_assertLevel ⟨parentNode, foundParent, parentLevel, parentStores⟩ (by simp) ?_)
  · simp [isLeft, isRight]
  simp only [runs_getLeaf]
  refine ⟨leftNode, foundLeft, rightNode, foundRight, runs_btreeAssert (fun _ => ?_)
    (runs_btreeAssert (fun _ => ?_) (parentSlot (runs_btreeAssert (fun _ => ?_)
      (runs_btreeAssert (fun _ => ?_) ?_))))⟩
  · simp [leftNext]
  · simp [rightPrev]
  · simp [leftUsed, rightUsed, donor]
  · simp only [shiftnum, runs_bind, runs_get, runs_pure, decide_eq_true_eq, and_true]
    omega
  simp only [shiftnum, staying, runs_copySlotsBackward, runs_copySlots, runs_setLeaf, runs_readSlot,
    runs_getInner, runs_writeSlot, runs_setInner, runs_pure]
  refine ⟨upKeys, keysShifted, upData, dataShifted, newKeys, keysCopied, newData, dataCopied, last,
    read_lastKey leftKeys.left isLast, parentNode, ?_, newParent, parentWritten, ?_⟩
  · rw [BTree.heap_setNode_of_ne _ _ leftParent, BTree.heap_setNode_of_ne _ _ rightParent,
      foundParent]
  rw [BTree.setNode_comm _ _ apart]
  refine next _ (leafShift_of_nodes foundLeft foundRight foundParent apart rfl rfl ?_ ?_
    parentLevel ?_)
  · exact ⟨rfl, leftKeys.left, leftData.left, leftStores.keyRoom, leftStores.dataRoom⟩
  · exact ⟨by simp [rightUsed, Nat.add_comm], by simpa using keysHold, by simpa using dataHold,
      keysSize.trans rightStores.keyRoom, dataSize.trans rightStores.dataRoom⟩
  · exact ⟨by simpa using parentStores.used, by simpa using parentStores.count, parentHold,
      parentStores.children, parentSize.trans parentStores.keyRoom, parentStores.childRoom⟩

end Leaves

/-! ## Inner nodes -/

/-- The inner node `right` was merged into `left`, its neighbour. -/
structure InnerMerge (before after : BTree K D) (left right : Ptr) (height : Nat) (keys : List K)
    (children : List Ptr) : Prop where
  merged : after.InnerAt left height keys children
  emptied : ∃ node, after.heap right = some (.inner node) ∧ node.level = height ∧
    node.slotuse = 0
  rewritten : before.Rewritten after {left, right}

/-- Children were moved between two inner nodes and the separator in the parent
was rewritten. -/
structure InnerShift (before after : BTree K D) (left right parent : Ptr) (height : Nat)
    (leftKeys : List K) (leftChildren : List Ptr) (rightKeys : List K) (rightChildren : List Ptr)
    (keys : List K) (children : List Ptr) : Prop where
  leftAt : after.InnerAt left height leftKeys leftChildren
  rightAt : after.InnerAt right height rightKeys rightChildren
  parentAt : after.InnerAt parent (height + 1) keys children
  rewritten : before.Rewritten after {left, right, parent}

section Inner

variable {left right parent : Ptr} {height : Nat} {leftKeys rightKeys frontKeys backKeys : List K}
  {key : K} {leftChildren rightChildren frontChildren backChildren children : List Ptr}
  {keys : List K}

theorem BTree.InnerAt.ne_of_level {upper lower : Nat} (parentStored :
      tree.InnerAt parent upper keys children)
    (stored : tree.InnerAt left lower leftKeys leftChildren) (different : upper ≠ lower) :
    parent ≠ left := by
  rintro rfl
  obtain ⟨node, found, isLevel, -⟩ := parentStored
  obtain ⟨node', found', isLevel', -⟩ := stored
  obtain rfl : node = node' := by simpa [found] using found'
  exact different (isLevel.symm.trans isLevel')

private theorem InnerShift.swap {before after : BTree K D} {keys : List K} {children : List Ptr}
    (shift : InnerShift before after left right parent height leftKeys leftChildren rightKeys
      rightChildren keys children) :
    InnerShift before after right left parent height rightKeys rightChildren leftKeys leftChildren
      keys children :=
  ⟨shift.rightAt, shift.leftAt, shift.parentAt, shift.rewritten.mono (by simp)⟩

private theorem innerShift_of_nodes {leftNode rightNode parentNode newLeft newRight newParent :
      InnerNode K} {keys : List K} {children : List Ptr}
    (foundLeft : tree.heap left = some (.inner leftNode))
    (foundRight : tree.heap right = some (.inner rightNode))
    (foundParent : tree.heap parent = some (.inner parentNode)) (apart : left ≠ right)
    (leftParent : parent ≠ left) (rightParent : parent ≠ right)
    (leftLevel : newLeft.level = height) (rightLevel : newRight.level = height)
    (parentLevel : newParent.level = height + 1)
    (leftStores : newLeft.Stores tree.sizes.innerslotmax leftKeys leftChildren)
    (rightStores : newRight.Stores tree.sizes.innerslotmax rightKeys rightChildren)
    (parentStores : newParent.Stores tree.sizes.innerslotmax keys children) :
    InnerShift tree (((tree.setNode left (some (.inner newLeft))).setNode parent
      (some (.inner newParent))).setNode right (some (.inner newRight))) left right parent height
      leftKeys leftChildren rightKeys rightChildren keys children := by
  refine ⟨⟨newLeft, ?_, leftLevel, leftStores⟩, ⟨newRight, BTree.heap_setNode_self ..,
    rightLevel, rightStores⟩, ⟨newParent, ?_, parentLevel, parentStores⟩, ?_⟩
  · rw [BTree.heap_setNode_of_ne _ _ apart, BTree.heap_setNode_of_ne _ _ (Ne.symm leftParent),
      BTree.heap_setNode_self]
  · rw [BTree.heap_setNode_of_ne _ _ rightParent, BTree.heap_setNode_self]
  · have first := BTree.Rewritten.setInner foundLeft newLeft
    have second := BTree.Rewritten.setInner
      ((BTree.heap_setNode_of_ne tree (some (.inner newLeft)) leftParent).trans foundParent)
      newParent
    have third := BTree.Rewritten.setInner (((BTree.heap_setNode_of_ne _ (some (.inner newParent))
      (Ne.symm rightParent)).trans (BTree.heap_setNode_of_ne tree (some (.inner newLeft))
      (Ne.symm apart))).trans foundRight) newRight
    exact ((first.mono (by simp)).trans (second.mono (by simp))).trans (third.mono (by simp))

variable [Inhabited K] {post : Result K → BTree K D → Prop}

theorem mergeInner_runs (inRange : tree.sizes.innerslotmax + 1 < 2 ^ 32)
    (leftStored : tree.InnerAt left height leftKeys leftChildren)
    (rightStored : tree.InnerAt right height rightKeys rightChildren)
    (parentStored : tree.InnerAt parent (height + 1) (frontKeys ++ key :: backKeys)
      (frontChildren ++ left :: right :: backChildren))
    (aligned : frontChildren.length = frontKeys.length) (apart : left ≠ right)
    (fits : leftKeys.length + rightKeys.length < tree.sizes.innerslotmax)
    (next : ∀ after, InnerMerge tree after left right height (leftKeys ++ key :: rightKeys)
      (leftChildren ++ rightChildren) → post .merged after) :
    Runs (mergeInner (some left) (some right) (some parent) frontKeys.length) tree post := by
  have leftLevel := leftStored.runs_level
  have rightLevel := rightStored.runs_level
  have parentSlot : ∀ {post : Unit → BTree K D → Prop}, post () tree →
      Runs (assertParentSlot (some parent) frontKeys.length left) tree post := by
    rw [← aligned]
    exact fun holds => runs_assertParentSlot parentStored holds
  obtain ⟨leftNode, foundLeft, isLeftLevel, leftStores⟩ := leftStored
  obtain ⟨rightNode, foundRight, isRightLevel, rightStores⟩ := rightStored
  have leftUsed := leftStores.used
  have rightUsed := rightStores.used
  obtain ⟨oneMore, firstWritten, firstHolds, firstSize⟩ :=
    leftStores.keys.push (by rw [leftStores.keyRoom]; omega) key
  obtain ⟨newKeys, keysCopied, keysHold, keysSize⟩ :=
    firstHolds.appendAll rightStores.keys (by rw [firstSize, leftStores.keyRoom]; simp; omega)
  obtain ⟨newChildren, childrenCopied, childrenHold, childrenSize⟩ :=
    leftStores.children.appendAll rightStores.children
      (by rw [leftStores.childRoom, uadd_of_lt inRange, leftStores.count, rightStores.count]; omega)
  simp only [List.length_append, List.length_singleton, leftStores.count, rightStores.count,
    ← leftUsed, ← rightUsed] at firstWritten keysCopied childrenCopied
  simp only [mergeInner, runs_bind, runs_nonNull, Option.some.injEq, exists_eq_left']
  refine runs_btreeAssert (fun _ => ?_) (runs_assertLevel parentStored ?_ (parentSlot ?_))
  · simp [leftLevel, rightLevel]
  · simp [leftLevel]
  obtain ⟨parentNode, foundParent, parentLevel, parentStores⟩ := parentStored
  simp only [runs_getInner]
  refine ⟨leftNode, foundLeft, rightNode, foundRight, runs_btreeAssert (fun _ => ?_) ?_⟩
  · simpa [leftUsed, rightUsed] using fits
  simp only [runs_readSlot, runs_writeSlot, runs_copySlots, runs_setInner, runs_pure]
  refine ⟨parentNode, foundParent, key, parentStores.keys.read, oneMore, firstWritten, newKeys,
    keysCopied, newChildren, childrenCopied, next _ ⟨⟨⟨leftNode.level,
      leftNode.slotuse + 1 + rightNode.slotuse, newKeys, newChildren⟩, ?_, isLeftLevel, ?_⟩,
    ⟨_, BTree.heap_setNode_self .., isRightLevel, rfl⟩, ?_⟩⟩
  · rw [BTree.heap_setNode_of_ne _ _ apart, BTree.heap_setNode_self]
  · exact ⟨by simp [leftUsed, rightUsed]; omega, by simp [leftStores.count, rightStores.count]; omega,
      by simpa using keysHold, childrenHold, keysSize.trans (firstSize.trans leftStores.keyRoom),
      childrenSize.trans leftStores.childRoom⟩
  · have first := BTree.Rewritten.setInner foundLeft ⟨leftNode.level,
      leftNode.slotuse + 1 + rightNode.slotuse, newKeys, newChildren⟩
    have second := BTree.Rewritten.setInner ((BTree.heap_setNode_of_ne tree (some (.inner
      ⟨leftNode.level, leftNode.slotuse + 1 + rightNode.slotuse, newKeys, newChildren⟩))
      (Ne.symm apart)).trans foundRight) { rightNode with slotuse := 0 }
    exact (first.mono (by simp)).trans (second.mono (by simp))

/-- The first children of the right node move to the left one. -/
theorem shiftLeftInner_runs {movedKeys : List K} {risen : K} {movedChildren : List Ptr}
    (inRange : tree.sizes.innerslotmax + 1 < 2 ^ 32)
    (leftStored : tree.InnerAt left height leftKeys leftChildren)
    (rightStored : tree.InnerAt right height (movedKeys ++ risen :: rightKeys)
      (movedChildren ++ rightChildren))
    (parentStored : tree.InnerAt parent (height + 1) (frontKeys ++ key :: backKeys)
      (frontChildren ++ left :: right :: backChildren))
    (aligned : frontChildren.length = frontKeys.length) (apart : left ≠ right)
    (movedAligned : movedChildren.length = movedKeys.length + 1)
    (donor : leftKeys.length < movedKeys.length + 1 + rightKeys.length)
    (half : (movedKeys.length + 1 + rightKeys.length - leftKeys.length) / 2 =
      movedKeys.length + 1)
    (next : ∀ after, InnerShift tree after left right parent height
      (leftKeys ++ key :: movedKeys) (leftChildren ++ movedChildren) rightKeys rightChildren
      (frontKeys ++ risen :: backKeys) (frontChildren ++ left :: right :: backChildren) →
      post .ok after) :
    Runs (shiftLeftInner (some left) (some right) (some parent) frontKeys.length) tree post := by
  have leftLevel := leftStored.runs_level
  have rightLevel := rightStored.runs_level
  have parentSlot : ∀ {post : Unit → BTree K D → Prop}, post () tree →
      Runs (assertParentSlot (some parent) frontKeys.length left) tree post := by
    rw [← aligned]
    exact fun holds => runs_assertParentSlot parentStored holds
  have leftParent := parentStored.ne_of_level leftStored (Nat.succ_ne_self height)
  have rightParent := parentStored.ne_of_level rightStored (Nat.succ_ne_self height)
  obtain ⟨leftNode, foundLeft, isLeftLevel, leftStores⟩ := leftStored
  obtain ⟨rightNode, foundRight, isRightLevel, rightStores⟩ := rightStored
  have leftUsed := leftStores.used
  have rightUsed : rightNode.slotuse = movedKeys.length + 1 + rightKeys.length := by
    rw [rightStores.used]
    simp only [List.length_append, List.length_cons]
    omega
  have fits : movedKeys.length + 1 + rightKeys.length ≤ tree.sizes.innerslotmax := by
    have room := rightStores.keys.length_le
    rw [rightStores.keyRoom, ← rightStores.used, rightUsed] at room
    exact room
  have count : rightChildren.length = rightKeys.length + 1 := by
    have total := rightStores.count
    simp only [List.length_append, List.length_cons] at total
    omega
  obtain ⟨oneMore, firstWritten, firstHolds, firstSize⟩ :=
    leftStores.keys.push (by rw [leftStores.keyRoom]; omega) key
  obtain ⟨newKeys, keysCopied, keysHold, keysSize⟩ :=
    firstHolds.append rightStores.keys (by rw [firstSize, leftStores.keyRoom]; simp; omega)
  obtain ⟨newChildren, childrenCopied, childrenHold, childrenSize⟩ :=
    leftStores.children.append rightStores.children
      (by rw [leftStores.childRoom, uadd_of_lt inRange, leftStores.count, movedAligned]; omega)
  have rightKeysHold : Buffer.Holds rightNode.slotkey ((movedKeys ++ [risen]) ++ rightKeys) := by
    simpa using rightStores.keys
  obtain ⟨restKeys, restKeysMoved, restKeysHold, restKeysSize⟩ := rightKeysHold.dropFront
  obtain ⟨restChildren, restMoved, restHold, restSize⟩ := rightStores.children.dropFront
  have allChildren : movedKeys.length + 1 + (rightKeys.length + 1) =
      movedKeys.length + 1 + rightKeys.length + 1 := by omega
  simp only [List.length_append, List.length_singleton, leftStores.count, movedAligned, count,
    allChildren, ← leftUsed, ← rightUsed]
    at firstWritten keysCopied childrenCopied restKeysMoved restMoved
  have shiftnum : usub rightNode.slotuse leftNode.slotuse / 2 = movedKeys.length + 1 := by
    rw [leftUsed, rightUsed, usub_of_le (by omega), half]
  have oneLess : usub (movedKeys.length + 1) 1 = movedKeys.length := by
    rw [usub_of_le (by omega)]
    omega
  have staying : usub rightNode.slotuse (movedKeys.length + 1) = rightKeys.length := by
    rw [usub_of_le (by omega)]
    omega
  simp only [shiftLeftInner, runs_bind, runs_nonNull, Option.some.injEq, exists_eq_left']
  refine runs_btreeAssert (fun _ => ?_) (runs_assertLevel parentStored ?_ ?_)
  · simp [leftLevel, rightLevel]
  · simp [leftLevel]
  obtain ⟨parentNode, foundParent, parentLevel, parentStores⟩ := parentStored
  obtain ⟨newParent, parentWritten, parentHold, parentSize⟩ := parentStores.keys.write risen
  simp only [runs_getInner]
  refine ⟨leftNode, foundLeft, rightNode, foundRight, runs_btreeAssert (fun _ => ?_)
    (parentSlot (runs_btreeAssert (fun _ => ?_) ?_))⟩
  · simp only [runs_pure, decide_eq_true_eq, and_true]
    omega
  · simp only [shiftnum, runs_bind, runs_get, runs_pure, decide_eq_true_eq, and_true]
    omega
  simp only [shiftnum, oneLess, staying, runs_readSlot, runs_writeSlot, runs_copySlots,
    runs_setInner, runs_pure]
  refine ⟨parentNode, foundParent, key, parentStores.keys.read, oneMore, firstWritten, newKeys,
    keysCopied, newChildren, childrenCopied, risen, rightStores.keys.read, newParent,
    parentWritten, restKeys, restKeysMoved, restChildren, restMoved, next _
    (innerShift_of_nodes foundLeft foundRight foundParent apart leftParent rightParent isLeftLevel
      isRightLevel parentLevel ?_ ?_ ?_)⟩
  · exact ⟨by simp [leftUsed]; omega, by simp [leftStores.count, movedAligned]; omega,
      by simpa using keysHold, childrenHold, keysSize.trans (firstSize.trans leftStores.keyRoom),
      childrenSize.trans leftStores.childRoom⟩
  · exact ⟨rfl, count, restKeysHold, restHold, restKeysSize.trans rightStores.keyRoom,
      restSize.trans rightStores.childRoom⟩
  · exact ⟨by simpa using parentStores.used, by simpa using parentStores.count, parentHold,
      parentStores.children, parentSize.trans parentStores.keyRoom, parentStores.childRoom⟩

/-- The last children of the left node move to the right one. -/
theorem shiftRightInner_runs {movedKeys : List K} {risen : K} {movedChildren : List Ptr}
    (inRange : tree.sizes.innerslotmax + 1 < 2 ^ 32)
    (leftStored : tree.InnerAt left height (leftKeys ++ risen :: movedKeys)
      (leftChildren ++ movedChildren))
    (rightStored : tree.InnerAt right height rightKeys rightChildren)
    (parentStored : tree.InnerAt parent (height + 1) (frontKeys ++ key :: backKeys)
      (frontChildren ++ left :: right :: backChildren))
    (aligned : frontChildren.length = frontKeys.length) (apart : left ≠ right)
    (movedAligned : movedChildren.length = movedKeys.length + 1)
    (donor : rightKeys.length < leftKeys.length + (movedKeys.length + 1))
    (half : (leftKeys.length + (movedKeys.length + 1) - rightKeys.length) / 2 =
      movedKeys.length + 1)
    (next : ∀ after, InnerShift tree after left right parent height leftKeys leftChildren
      (movedKeys ++ key :: rightKeys) (movedChildren ++ rightChildren)
      (frontKeys ++ risen :: backKeys) (frontChildren ++ left :: right :: backChildren) →
      post .ok after) :
    Runs (shiftRightInner (some left) (some right) (some parent) frontKeys.length) tree post := by
  have leftLevel := leftStored.runs_level
  have rightLevel := rightStored.runs_level
  have parentSlot : ∀ {post : Unit → BTree K D → Prop}, post () tree →
      Runs (assertParentSlot (some parent) frontKeys.length left) tree post := by
    rw [← aligned]
    exact fun holds => runs_assertParentSlot parentStored holds
  have leftParent := parentStored.ne_of_level leftStored (Nat.succ_ne_self height)
  have rightParent := parentStored.ne_of_level rightStored (Nat.succ_ne_self height)
  obtain ⟨leftNode, foundLeft, isLeftLevel, leftStores⟩ := leftStored
  obtain ⟨rightNode, foundRight, isRightLevel, rightStores⟩ := rightStored
  have rightUsed := rightStores.used
  have leftUsed : leftNode.slotuse = leftKeys.length + (movedKeys.length + 1) := by
    rw [leftStores.used]
    simp only [List.length_append, List.length_cons]
  have fits : leftKeys.length + (movedKeys.length + 1) ≤ tree.sizes.innerslotmax := by
    have room := leftStores.keys.length_le
    rw [leftStores.keyRoom, ← leftStores.used, leftUsed] at room
    exact room
  have count : leftChildren.length = leftKeys.length + 1 := by
    have total := leftStores.count
    simp only [List.length_append, List.length_cons] at total
    omega
  have leftKeysHold : Buffer.Holds leftNode.slotkey ((leftKeys ++ [risen]) ++ movedKeys) := by
    simpa using leftStores.keys
  obtain ⟨upKeys, withKey, newKeys, keysShifted, keyWritten, keysCopied, keysHold, keysSize⟩ :=
    rightStores.keys.prependBehind leftKeysHold (by rw [rightStores.keyRoom]; omega) key
  obtain ⟨upChildren, newChildren, childrenShifted, childrenCopied, childrenHold, childrenSize⟩ :=
    rightStores.children.prepend leftStores.children
      (by rw [rightStores.childRoom, uadd_of_lt inRange, rightStores.count, movedAligned]; omega)
  have allKeys : leftKeys.length + 1 + movedKeys.length =
      leftKeys.length + (movedKeys.length + 1) := by omega
  have allChildren : leftKeys.length + 1 + (movedKeys.length + 1) =
      leftKeys.length + (movedKeys.length + 1) + 1 := by omega
  simp only [List.length_append, List.length_singleton, rightStores.count, movedAligned, count,
    allKeys, allChildren, ← leftUsed, ← rightUsed]
    at keysShifted keysCopied childrenShifted childrenCopied
  have shiftnum : usub leftNode.slotuse rightNode.slotuse / 2 = movedKeys.length + 1 := by
    rw [leftUsed, rightUsed, usub_of_le (by omega), half]
  have oneLess : usub (movedKeys.length + 1) 1 = movedKeys.length := by
    rw [usub_of_le (by omega)]
    omega
  have staying : usub leftNode.slotuse (movedKeys.length + 1) = leftKeys.length := by
    rw [usub_of_le (by omega)]
    omega
  simp only [shiftRightInner, runs_bind, runs_nonNull, Option.some.injEq, exists_eq_left']
  refine runs_btreeAssert (fun _ => ?_) (runs_assertLevel parentStored ?_ ?_)
  · simp [leftLevel, rightLevel]
  · simp [leftLevel]
  obtain ⟨parentNode, foundParent, parentLevel, parentStores⟩ := parentStored
  obtain ⟨newParent, parentWritten, parentHold, parentSize⟩ := parentStores.keys.write risen
  simp only [runs_getInner]
  refine ⟨leftNode, foundLeft, rightNode, foundRight, runs_btreeAssert (fun _ => ?_)
    (parentSlot (runs_btreeAssert (fun _ => ?_) ?_))⟩
  · simp only [runs_pure, decide_eq_true_eq, and_true]
    omega
  · simp only [shiftnum, runs_bind, runs_get, runs_pure, decide_eq_true_eq, and_true]
    omega
  simp only [shiftnum, oneLess, staying, runs_readSlot, runs_writeSlot, runs_copySlots,
    runs_copySlotsBackward, runs_setInner, runs_pure]
  refine ⟨upKeys, keysShifted, upChildren, childrenShifted, parentNode, foundParent, key,
    parentStores.keys.read, withKey, keyWritten, newKeys, keysCopied, newChildren, childrenCopied,
    risen, leftStores.keys.read, newParent, parentWritten, ?_⟩
  refine next _ (InnerShift.swap ?_)
  refine innerShift_of_nodes foundRight foundLeft foundParent (Ne.symm apart) rightParent leftParent
    isRightLevel isLeftLevel parentLevel ?_ ?_ ?_
  · exact ⟨by simp [rightUsed]; omega, by simp [rightStores.count, movedAligned]; omega, keysHold,
      childrenHold, keysSize.trans rightStores.keyRoom, childrenSize.trans rightStores.childRoom⟩
  · exact ⟨rfl, count, leftStores.keys.left, leftStores.children.left, leftStores.keyRoom,
      leftStores.childRoom⟩
  · exact ⟨by simpa using parentStores.used, by simpa using parentStores.count, parentHold,
      parentStores.children, parentSize.trans parentStores.keyRoom, parentStores.childRoom⟩

end Inner

end PersistentBTree.Memory
