import PersistentBTree.Memory.Insert
import PersistentBTree.Memory.SearchProperties

/-! What the node operations of insertion do: allocation, splits, and putting a
pair into a leaf or a child into an inner node. -/

set_option autoImplicit false

namespace PersistentBTree.Memory

open Imperative Multimap

variable {K D : Type} {tree : BTree K D}

theorem read_lastKey {buffer : Buffer K} {pairs : List (K × D)} {last : K}
    (holds : Buffer.Holds buffer (pairs.map Prod.fst)) (isLast : lastKeyOf pairs = some last) :
    Buffer.read buffer (usub pairs.length 1) = some last := by
  obtain ⟨lower, final, rfl, rfl⟩ := lastKeyOf_eq_some isLast
  have position : usub (lower ++ [final]).length 1 = (lower.map Prod.fst).length := by
    rw [usub_of_le (by simp)]
    simp
  simp only [List.map_append, List.map_cons, List.map_nil] at holds
  rw [position, holds.read]

/-! ## Node operations -/

theorem runs_setBehind {next : Option Ptr} {leaf : Ptr} {isLast : M K D Unit}
    {post : Unit → BTree K D → Prop}
    (stored : ∀ ptr, next = some ptr → ∃ node, tree.heap ptr = some (.leaf node))
    (last : next = none → Runs isLast tree fun _ final => final = tree)
    (rest : post () (tree.behind next leaf)) : Runs (setBehind next leaf isLast) tree post := by
  cases next with
  | none =>
      simp only [setBehind, runs_bind, runs_modify]
      refine (last rfl).mono fun _ final same => ?_
      subst same
      simpa [BTree.behind] using rest
  | some ptr =>
      obtain ⟨node, found⟩ := stored ptr rfl
      simp only [setBehind, runs_bind, runs_getLeaf, runs_setLeaf]
      refine ⟨node, found, ?_⟩
      have same : tree.setNode ptr (some (.leaf { node with prevleaf := some leaf })) =
          tree.behind (some ptr) leaf := by
        simp only [BTree.setNode, BTree.behind, Option.some.injEq, reduceCtorEq, ↓reduceIte]
        congr
        funext other
        by_cases equal : other = ptr
        · subst equal; simp [found]
        · simp [equal, Ne.symm equal]
      rwa [same]

theorem insertPair_runs {ptr : Ptr} {node : LeafNode K D} {front back : List (K × D)} {key : K}
    {value : D} {post : Unit → BTree K D → Prop} (found : tree.heap ptr = some (.leaf node))
    (stores : node.Stores tree.sizes.leafslotmax (front ++ back))
    (room : front.length + back.length < tree.sizes.leafslotmax)
    (next : ∀ node' : LeafNode K D, node'.links = node.links →
      node'.Stores tree.sizes.leafslotmax (front ++ (key, value) :: back) →
      post () (tree.setNode ptr (some (.leaf node')))) :
    Runs (insertPair ptr front.length key value) tree post := by
  have used : node.slotuse = front.length + back.length := by simpa using stores.used
  have keys : node.slotkey.Holds (front.map Prod.fst ++ back.map Prod.fst) := by
    simpa using stores.keys
  have data : node.slotdata.Holds (front.map Prod.snd ++ back.map Prod.snd) := by
    simpa using stores.data
  obtain ⟨movedKeys, newKeys, keysMoved, keysWritten, keysHold, keysSize⟩ :=
    keys.insert (by simpa [stores.keyRoom] using room) key
  obtain ⟨movedData, newData, dataMoved, dataWritten, dataHold, dataSize⟩ :=
    data.insert (by simpa [stores.dataRoom] using room) value
  simp only [List.length_map] at keysMoved keysWritten dataMoved dataWritten
  simp only [insertPair, runs_bind, runs_getLeaf]
  refine ⟨node, found, runs_btreeAssert (fun _ => ?_) ?_⟩
  · simp [used]
  · simp only [runs_copySlotsBackward, runs_writeSlot, runs_setLeaf, used]
    refine ⟨_, keysMoved, _, dataMoved, _, keysWritten, _, dataWritten, next _ rfl ?_⟩
    refine ⟨?_, by simpa using keysHold, by simpa using dataHold, keysSize.trans stores.keyRoom,
      dataSize.trans stores.dataRoom⟩
    simp only [List.length_append, List.length_cons]
    omega

/-- Storing a new child behind one of the children of a node that has room. -/
theorem insertChild_runs {ptr newchild child : Ptr} {node : InnerNode K}
    {frontKeys backKeys : List K} {front back : List Ptr} {newkey : K}
    {post : Unit → BTree K D → Prop} (found : tree.heap ptr = some (.inner node))
    (stores : node.Stores tree.sizes.innerslotmax (frontKeys ++ backKeys) (front ++ child :: back))
    (aligned : front.length = frontKeys.length)
    (room : frontKeys.length + backKeys.length < tree.sizes.innerslotmax)
    (inRange : tree.sizes.innerslotmax + 1 < 2 ^ 32)
    (next : ∀ node' : InnerNode K, node'.level = node.level →
      node'.Stores tree.sizes.innerslotmax (frontKeys ++ newkey :: backKeys)
        (front ++ child :: newchild :: back) →
      post () (tree.setNode ptr (some (.inner node')))) :
    Runs (insertChild ptr frontKeys.length newkey newchild) tree post := by
  have used : node.slotuse = frontKeys.length + backKeys.length := by simpa using stores.used
  have count : back.length = backKeys.length := by
    have total := stores.count
    simp only [List.length_append, List.length_cons] at total
    omega
  obtain ⟨movedKeys, newKeys, keysMoved, keysWritten, keysHold, keysSize⟩ :=
    stores.keys.insert (by simpa [stores.keyRoom] using room) newkey
  obtain ⟨movedChildren, newChildren, childrenMoved, childrenWritten, childrenHold,
      childrenSize⟩ :=
    stores.children.insertBehind (by rw [stores.childRoom, uadd_of_lt inRange]; omega) newchild
  rw [aligned, count] at childrenMoved
  rw [aligned] at childrenWritten
  simp only [insertChild, runs_bind, runs_getInner]
  refine ⟨node, found, runs_btreeAssert (fun _ => ?_) ?_⟩
  · simp [used]
  · simp only [runs_copySlotsBackward, runs_writeSlot, runs_setInner, used]
    refine ⟨_, keysMoved, _, ?_, _, keysWritten, _, childrenWritten, next _ rfl ?_⟩
    · rw [Nat.add_assoc, Nat.add_assoc] at *
      exact childrenMoved
    · refine ⟨?_, ?_, keysHold, childrenHold, keysSize.trans stores.keyRoom,
        childrenSize.trans stores.childRoom⟩
      · simp only [List.length_append, List.length_cons]
        omega
      · simp only [List.length_append, List.length_cons]
        omega

/-! ## Allocation and splits -/

/-- The tree with a new leaf at `brk`. -/
def BTree.withLeaf (tree : BTree K D) : BTree K D :=
  { tree.setNode tree.brk (some (.leaf (.initial tree.sizes.leafslotmax))) with
    brk := tree.brk + 1
    mStats.leaves := tree.mStats.leaves + 1 }

/-- The tree with a new inner node at `brk`. -/
def BTree.withInner (tree : BTree K D) (level : Nat) : BTree K D :=
  { tree.setNode tree.brk (some (.inner (.initial level tree.sizes.innerslotmax))) with
    brk := tree.brk + 1
    mStats.innernodes := tree.mStats.innernodes + 1 }

theorem runs_allocateLeaf (post : Ptr → BTree K D → Prop) :
    Runs allocateLeaf tree post ↔ post tree.brk tree.withLeaf := by
  simp [allocateLeaf, allocateNode, BTree.withLeaf]

theorem runs_allocateInner (level : Nat) (post : Ptr → BTree K D → Prop) :
    Runs (allocateInner level) tree post ↔ post tree.brk (tree.withInner level) := by
  simp [allocateInner, allocateNode, BTree.withInner]

theorem BTree.heap_withLeaf_of_ne {ptr : Ptr} (different : ptr ≠ tree.brk) :
    tree.withLeaf.heap ptr = tree.heap ptr :=
  BTree.heap_setNode_of_ne tree _ different

theorem BTree.heap_withInner_of_ne {level : Nat} {ptr : Ptr} (different : ptr ≠ tree.brk) :
    (tree.withInner level).heap ptr = tree.heap ptr :=
  BTree.heap_setNode_of_ne tree _ different

theorem BTree.links_withLeaf_of_ne {ptr : Ptr} (different : ptr ≠ tree.brk) :
    tree.withLeaf.links ptr = tree.links ptr := by
  simp [BTree.links, BTree.heap_withLeaf_of_ne different]

theorem BTree.frame_withLeaf : Frame tree tree.withLeaf {tree.brk} :=
  ⟨rfl, rfl, fun _ outside => BTree.content_setNode_of_ne tree _ outside⟩

theorem BTree.frame_withInner {level : Nat} : Frame tree (tree.withInner level) {tree.brk} :=
  ⟨rfl, rfl, fun _ outside => BTree.content_setNode_of_ne tree _ outside⟩

/-- The leaf at `ptr` was split in two; the right half is a new leaf. -/
structure LeafSplit (before after : BTree K D) (ptr : Ptr) (front back : List (K × D)) : Prop where
  left : after.LeafAt ptr front
  right : after.LeafAt before.brk back
  old : ptr ≠ before.brk
  frame : before.Frame after {ptr, before.brk}
  chained : ∀ lefts rights, before.Chained (lefts ++ ptr :: rights) →
    (lefts ++ ptr :: rights).Nodup → after.Chained (lefts ++ ptr :: before.brk :: rights)
  mRoot : after.mRoot = before.mRoot
  brk : after.brk = before.brk + 1
  mStats : after.mStats = { before.mStats with leaves := before.mStats.leaves + 1 }

namespace LeafSplit

variable {before after : BTree K D} {ptr : Ptr} {front back pairs : List (K × D)}

/-- One of the halves is stored anew, with its links. -/
private theorem set_frame (split : LeafSplit before after ptr front back) {half : Ptr}
    {old node : LeafNode K D} (isHalf : half = ptr ∨ half = before.brk)
    (found : after.heap half = some (.leaf old)) (links : node.links = old.links) :
    before.Frame (after.setNode half (some (.leaf node))) {ptr, before.brk} ∧
      ∀ other, (after.setNode half (some (.leaf node))).links other = after.links other := by
  constructor
  · refine split.frame.trans ((BTree.Frame.setNode after half _).mono ?_)
    rcases isHalf with rfl | rfl <;> simp
  · intro other
    by_cases same : other = half
    · subst same
      rw [BTree.links_setNode_leaf, links, BTree.links_of_leaf found]
    · exact BTree.links_setNode_of_ne after _ same

theorem setLeft (split : LeafSplit before after ptr front back) {old node : LeafNode K D}
    (found : after.heap ptr = some (.leaf old)) (links : node.links = old.links)
    (stores : node.Stores after.sizes.leafslotmax pairs) :
    LeafSplit before (after.setNode ptr (some (.leaf node))) ptr pairs back where
  left := ⟨node, by simp, stores⟩
  right := (BTree.Frame.setNode after ptr _).leafAt (Ne.symm split.old) split.right
  old := split.old
  frame := (split.set_frame (.inl rfl) found links).1
  chained lefts rights chained unique := (split.chained lefts rights chained unique).congr
    (fun other _ => (split.set_frame (.inl rfl) found links).2 other) rfl rfl
  mRoot := split.mRoot
  brk := split.brk
  mStats := split.mStats

theorem setRight (split : LeafSplit before after ptr front back) {old node : LeafNode K D}
    (found : after.heap before.brk = some (.leaf old)) (links : node.links = old.links)
    (stores : node.Stores after.sizes.leafslotmax pairs) :
    LeafSplit before (after.setNode before.brk (some (.leaf node))) ptr front pairs where
  left := (BTree.Frame.setNode after before.brk _).leafAt split.old split.left
  right := ⟨node, by simp, stores⟩
  old := split.old
  frame := (split.set_frame (.inr rfl) found links).1
  chained lefts rights chained unique := (split.chained lefts rights chained unique).congr
    (fun other _ => (split.set_frame (.inr rfl) found links).2 other) rfl rfl
  mRoot := split.mRoot
  brk := split.brk
  mStats := split.mStats

end LeafSplit

theorem runs_isFull_leaf {ptr : Ptr} {node : LeafNode K D}
    (found : tree.heap ptr = some (.leaf node)) (post : Bool → BTree K D → Prop) :
    Runs (isFull ptr) tree post ↔ post (node.slotuse == tree.sizes.leafslotmax) tree := by
  simp [isFull, found, Node.level, Node.slotuse]

theorem runs_isFull_inner {ptr : Ptr} {node : InnerNode K}
    (found : tree.heap ptr = some (.inner node)) (isInner : node.level ≠ 0)
    (post : Bool → BTree K D → Prop) :
    Runs (isFull ptr) tree post ↔ post (node.slotuse == tree.sizes.innerslotmax) tree := by
  simp [isFull, found, Node.level, Node.slotuse, isInner]

/-- The two halves as they are stored and linked in at the end of a split. -/
private theorem leafSplit_of_nodes {ptr : Ptr} {node left right : LeafNode K D}
    {front back : List (K × D)} {next : Option Ptr}
    (found : tree.heap ptr = some (.leaf node)) (unused : tree.heap tree.brk = none)
    (nextleaf : node.nextleaf = next)
    (leftStores : left.Stores tree.sizes.leafslotmax front)
    (rightStores : right.Stores tree.sizes.leafslotmax back)
    (leftLinks : left.links = (node.prevleaf, some tree.brk))
    (rightLinks : right.links = (some ptr, next)) :
    LeafSplit tree (((tree.withLeaf.behind next tree.brk).setNode tree.brk
      (some (.leaf right))).setNode ptr (some (.leaf left))) ptr front back := by
  have ptrOld : ptr ≠ tree.brk := by
    rintro rfl
    simp [unused] at found
  refine ⟨⟨left, by simp, leftStores⟩, ⟨right, ?_, rightStores⟩, ptrOld, ?_, ?_, rfl, rfl, rfl⟩
  · rw [BTree.heap_setNode_of_ne _ _ (Ne.symm ptrOld)]
    simp
  · refine ⟨rfl, rfl, fun other outside => ?_⟩
    simp only [Set.mem_insert_iff, Set.mem_singleton_iff, not_or] at outside
    rw [BTree.content_setNode_of_ne _ _ outside.1, BTree.content_setNode_of_ne _ _ outside.2,
      BTree.content_behind]
    exact BTree.frame_withLeaf.content other outside.2
  · intro lefts rights chained unique
    obtain ⟨node', found', prevleaf, isNext⟩ := chained.exists_leaf
    obtain rfl : node = node' := by simpa [found] using found'
    have nextHead : next = rights.head? := nextleaf.symm.trans isNext
    have old : ∀ other ∈ lefts ++ ptr :: rights, other ≠ tree.brk := by
      rintro other member rfl
      obtain ⟨stored, foundAt⟩ := chained.exists_leaf_of_mem member
      simp [unused] at foundAt
    refine chained.insert_after unique (fun member => old _ member rfl) ?_ ?_ ?_ ?_ rfl ?_
    · rw [BTree.links_setNode_leaf, leftLinks, prevleaf]
    · rw [BTree.links_setNode_of_ne _ _ (Ne.symm ptrOld), BTree.links_setNode_leaf,
        rightLinks, nextHead]
    · intro other isHead
      have member : other ∈ rights := List.mem_of_mem_head? isHead
      have otherOld : other ≠ tree.brk := old other (by simp [member])
      have notPtr : other ≠ ptr := by
        rintro rfl
        exact (List.nodup_cons.mp (List.nodup_append.mp unique).2.1).1 member
      rw [BTree.links_setNode_of_ne _ _ notPtr, BTree.links_setNode_of_ne _ _ otherOld,
        BTree.links_behind_self _ _ (nextHead.trans isHead), BTree.links_withLeaf_of_ne otherOld]
    · intro other notPtr notNew notNext
      rw [BTree.links_setNode_of_ne _ _ notPtr, BTree.links_setNode_of_ne _ _ notNew,
        BTree.links_behind_of_ne _ _ (by rwa [nextHead]), BTree.links_withLeaf_of_ne notNew]
    · simp only [BTree.mTailleaf_setNode, BTree.behind, nextHead]
      rfl

theorem splitLeafNode_runs {ptr : Ptr} {front back : List (K × D)} {lefts rights : List Ptr}
    {newkey : K} {post : K × Ptr → BTree K D → Prop}
    (stored : tree.LeafAt ptr (front ++ back))
    (full : front.length + back.length = tree.sizes.leafslotmax)
    (half : (front.length + back.length) / 2 = front.length)
    (last : lastKeyOf front = some newkey)
    (chained : tree.Chained (lefts ++ ptr :: rights)) (unique : (lefts ++ ptr :: rights).Nodup)
    (unused : tree.heap tree.brk = none)
    (next : ∀ after, LeafSplit tree after ptr front back → post (newkey, tree.brk) after) :
    Runs (splitLeafNode ptr) tree post := by
  obtain ⟨node, found, stores⟩ := stored
  have used : node.slotuse = front.length + back.length := by simpa using stores.used
  have keys : node.slotkey.Holds (front.map Prod.fst ++ back.map Prod.fst) := by
    simpa using stores.keys
  have data : node.slotdata.Holds (front.map Prod.snd ++ back.map Prod.snd) := by
    simpa using stores.data
  obtain ⟨node', found', -, isNext⟩ := chained.exists_leaf
  obtain rfl : node = node' := by simpa [found] using found'
  have roomBack : back.length ≤ tree.sizes.leafslotmax := by omega
  obtain ⟨newKeys, keysCopied, keysHold, keysSize⟩ :=
    keys.copyBack (Buffer.alloc tree.sizes.leafslotmax) (by simpa using roomBack)
  obtain ⟨newData, dataCopied, dataHold, dataSize⟩ :=
    data.copyBack (Buffer.alloc tree.sizes.leafslotmax) (by simpa using roomBack)
  simp only [List.length_map, Buffer.length_alloc] at keysCopied dataCopied keysSize dataSize
  have readLast := read_lastKey keys.left last
  have ptrOld : ptr ≠ tree.brk := by
    rintro rfl
    simp [unused] at found
  simp only [splitLeafNode, runs_bind, runs_getLeaf, runs_allocateLeaf]
  refine runs_btreeAssert (fun _ => ?_) ⟨node, found, .initial tree.sizes.leafslotmax, ?_, ?_⟩
  · simp [runs_isFull_leaf found, used, full]
  · exact BTree.heap_setNode_self ..
  · refine runs_setBehind ?_ ?_ ?_
    · intro other isOther
      have member : other ∈ rights := List.mem_of_mem_head? (isNext.symm.trans isOther)
      obtain ⟨nextNode, foundNext⟩ : ∃ nextNode, tree.heap other = some (.leaf nextNode) :=
        chained.exists_leaf_of_mem (by simp [member])
      refine ⟨nextNode, ?_⟩
      rw [BTree.heap_withLeaf_of_ne, foundNext]
      rintro rfl
      simp [unused] at foundNext
    · intro isLast
      have tail : tree.mTailleaf = some ptr := by
        have empty : rights = [] := List.head?_eq_none_iff.mp (isNext.symm.trans isLast)
        rw [chained.2.2, empty]
        simp
      refine runs_btreeAssert (fun _ => ?_) rfl
      simp [BTree.withLeaf, tail]
    · simp only [runs_copySlots, runs_setLeaf, runs_readSlot, runs_pure, used, half]
      refine ⟨newKeys, keysCopied, newData, dataCopied, newkey, readLast, next _ ?_⟩
      refine leafSplit_of_nodes found unused rfl ?_ ?_ rfl rfl
      · exact ⟨rfl, keys.left, data.left, stores.keyRoom, stores.dataRoom⟩
      · refine ⟨?_, keysHold, dataHold, keysSize, dataSize⟩
        simp [usub_of_le (Nat.le_add_right _ _)]

/-- The inner node at `ptr` was split in two; the right half is a new node. -/
structure InnerSplit (before after : BTree K D) (ptr : Ptr) (level : Nat)
    (leftKeys rightKeys : List K) (leftChildren rightChildren : List Ptr) : Prop where
  left : after.InnerAt ptr level leftKeys leftChildren
  right : after.InnerAt before.brk level rightKeys rightChildren
  old : ptr ≠ before.brk
  frame : before.Frame after {ptr, before.brk}
  links : ∀ other, after.links other = before.links other
  mRoot : after.mRoot = before.mRoot
  mHeadleaf : after.mHeadleaf = before.mHeadleaf
  mTailleaf : after.mTailleaf = before.mTailleaf
  brk : after.brk = before.brk + 1
  mStats : after.mStats = { before.mStats with innernodes := before.mStats.innernodes + 1 }

namespace InnerSplit

variable {before after : BTree K D} {ptr : Ptr} {level : Nat} {leftKeys rightKeys keys : List K}
  {leftChildren rightChildren children : List Ptr}

theorem setLeft (split : InnerSplit before after ptr level leftKeys rightKeys leftChildren
      rightChildren) {node : InnerNode K}
    (stores : node.Stores after.sizes.innerslotmax keys children)
    (isLevel : node.level = level) :
    InnerSplit before (after.setNode ptr (some (.inner node))) ptr level keys rightKeys children
      rightChildren where
  left := ⟨node, by simp, isLevel, stores⟩
  right := (BTree.Frame.setNode after ptr _).innerAt (Ne.symm split.old) split.right
  old := split.old
  frame := split.frame.trans ((BTree.Frame.setNode after ptr _).mono (by simp))
  links other := (BTree.links_setNode_inner split.left.links_eq_none other).trans
    (split.links other)
  mRoot := split.mRoot
  mHeadleaf := split.mHeadleaf
  mTailleaf := split.mTailleaf
  brk := split.brk
  mStats := split.mStats

theorem setRight (split : InnerSplit before after ptr level leftKeys rightKeys leftChildren
      rightChildren) {node : InnerNode K}
    (stores : node.Stores after.sizes.innerslotmax keys children)
    (isLevel : node.level = level) :
    InnerSplit before (after.setNode before.brk (some (.inner node))) ptr level leftKeys keys
      leftChildren children where
  left := (BTree.Frame.setNode after before.brk _).innerAt split.old split.left
  right := ⟨node, by simp, isLevel, stores⟩
  old := split.old
  frame := split.frame.trans ((BTree.Frame.setNode after before.brk _).mono (by simp))
  links other := (BTree.links_setNode_inner split.right.links_eq_none other).trans
    (split.links other)
  mRoot := split.mRoot
  mHeadleaf := split.mHeadleaf
  mTailleaf := split.mTailleaf
  brk := split.brk
  mStats := split.mStats

end InnerSplit

theorem splitInnerNode_runs {ptr : Ptr} {level addslot : Nat} {leftKeys rightKeys : List K}
    {newkey : K} {leftChildren rightChildren : List Ptr} {post : K × Ptr → BTree K D → Prop}
    (stored : tree.InnerAt ptr level (leftKeys ++ newkey :: rightKeys)
      (leftChildren ++ rightChildren))
    (isInner : level ≠ 0) (aligned : leftChildren.length = leftKeys.length + 1)
    (full : leftKeys.length + (rightKeys.length + 1) = tree.sizes.innerslotmax)
    (inRange : tree.sizes.innerslotmax + 1 < 2 ^ 32)
    (middle : (if addslot ≤ tree.sizes.innerslotmax / 2 ∧
        usub tree.sizes.innerslotmax (tree.sizes.innerslotmax / 2 + 1) <
          tree.sizes.innerslotmax / 2
      then tree.sizes.innerslotmax / 2 - 1 else tree.sizes.innerslotmax / 2) = leftKeys.length)
    (unused : tree.heap tree.brk = none)
    (next : ∀ after, InnerSplit tree after ptr level leftKeys rightKeys leftChildren
      rightChildren → post (newkey, tree.brk) after) :
    Runs (splitInnerNode ptr addslot) tree post := by
  obtain ⟨node, found, isLevel, stores⟩ := stored
  have used : node.slotuse = tree.sizes.innerslotmax := by
    rw [← full, stores.used]
    simp
  have count : rightChildren.length = rightKeys.length + 1 := by
    have total := stores.count
    simp only [List.length_append, List.length_cons] at total
    omega
  have keys : node.slotkey.Holds ((leftKeys ++ [newkey]) ++ rightKeys) := by
    simpa using stores.keys
  obtain ⟨newKeys, keysCopied, keysHold, keysSize⟩ :=
    keys.copyBack (Buffer.alloc tree.sizes.innerslotmax) (by simp; omega)
  obtain ⟨newChildren, childrenCopied, childrenHold, childrenSize⟩ :=
    stores.children.copyBack (Buffer.alloc (uadd tree.sizes.innerslotmax 1))
      (by simp [uadd_of_lt inRange]; omega)
  simp only [List.length_append, List.length_singleton, Buffer.length_alloc] at keysCopied keysSize
  simp only [Buffer.length_alloc, aligned, count] at childrenCopied childrenSize
  have ends : leftKeys.length + 1 + rightKeys.length = tree.sizes.innerslotmax := by omega
  have childEnds : leftKeys.length + 1 + (rightKeys.length + 1) =
      tree.sizes.innerslotmax + 1 := by omega
  rw [ends] at keysCopied
  rw [childEnds] at childrenCopied
  have ptrOld : ptr ≠ tree.brk := by
    rintro rfl
    simp [unused] at found
  have noLinks : tree.links tree.brk = none := by simp [BTree.links, unused]
  simp only [splitInnerNode, runs_bind, runs_getInner, runs_allocateInner, runs_copySlots,
    runs_setInner, runs_readSlot, runs_pure]
  refine runs_btreeAssert (fun _ => ?_) ⟨node, found, .initial node.level
    tree.sizes.innerslotmax, BTree.heap_setNode_self .., ?_⟩
  · simp [runs_isFull_inner found (isLevel ▸ isInner), used]
  rw [used, middle]
  refine ⟨newKeys, keysCopied, newChildren, childrenCopied, newkey, stores.keys.read, next _ ?_⟩
  have rightSplit : InnerSplit tree ((tree.withInner node.level).setNode tree.brk (some (.inner
      { (InnerNode.initial node.level tree.sizes.innerslotmax : InnerNode K) with
        slotuse := usub tree.sizes.innerslotmax (leftKeys.length + 1)
        slotkey := newKeys
        childid := newChildren }))) ptr level (leftKeys ++ newkey :: rightKeys) rightKeys
      (leftChildren ++ rightChildren) rightChildren := by
    refine ⟨?_, ⟨_, BTree.heap_setNode_self .., isLevel, ?_⟩, ptrOld, ?_, ?_, rfl, rfl, rfl, rfl,
      rfl⟩
    · refine BTree.InnerAt.congr ⟨node, found, isLevel, stores⟩ rfl ?_
      rw [BTree.content_setNode_of_ne _ _ ptrOld]
      exact BTree.frame_withInner.content ptr ptrOld
    · refine ⟨?_, count, keysHold, childrenHold, keysSize, childrenSize⟩
      change usub tree.sizes.innerslotmax (leftKeys.length + 1) = rightKeys.length
      rw [usub_of_le (by omega)]
      omega
    · refine (BTree.frame_withInner.mono (by simp)).trans
        ((BTree.Frame.setNode _ tree.brk _).mono (by simp))
    · intro other
      rw [BTree.links_setNode_inner (by simp [BTree.links, BTree.withInner, BTree.setNode])]
      exact BTree.links_setNode_inner noLinks other
  exact rightSplit.setLeft ⟨rfl, aligned, stores.keys.left, stores.children.left,
    stores.keyRoom, stores.childRoom⟩ isLevel

/-! ## Inserting into a node -/

/-- A leaf takes the pair in, or the right half of a full leaf becomes a new
one and one of the two halves takes it in. -/
theorem insertIntoLeaf_runs [Inhabited K] {ptr : Ptr} {front back : List (K × D)} {key : K}
    {value : D} {lefts rights : List Ptr} {post : Insertion K → BTree K D → Prop}
    (stored : tree.LeafAt ptr (front ++ back)) (large : 2 ≤ tree.sizes.leafslotmax)
    (fits : front.length + back.length ≤ tree.sizes.leafslotmax)
    (chained : tree.Chained (lefts ++ ptr :: rights)) (unique : (lefts ++ ptr :: rights).Nodup)
    (unused : tree.heap tree.brk = none)
    (whole : ∀ node node' : LeafNode K D, tree.heap ptr = some (.leaf node) →
      node'.links = node.links →
      node'.Stores tree.sizes.leafslotmax (front ++ (key, value) :: back) →
      front.length + back.length < tree.sizes.leafslotmax → ∀ splitkey,
      post ⟨⟨some ptr, front.length⟩, true, splitkey, none⟩
        (tree.setNode ptr (some (.leaf node'))))
    (inLeft : ∀ after newkey moved staying, back = staying ++ moved →
      LeafSplit tree after ptr (front ++ (key, value) :: staying) moved →
      front.length + staying.length = tree.sizes.leafslotmax / 2 →
      front.length + back.length = tree.sizes.leafslotmax →
      lastKeyOf (front ++ (key, value) :: staying) = some newkey →
      post ⟨⟨some ptr, front.length⟩, true, newkey, some tree.brk⟩ after)
    (inRight : ∀ after newkey staying moved, front = staying ++ moved →
      LeafSplit tree after ptr staying (moved ++ (key, value) :: back) →
      staying.length = tree.sizes.leafslotmax / 2 →
      front.length + back.length = tree.sizes.leafslotmax →
      lastKeyOf staying = some newkey →
      post ⟨⟨some tree.brk, moved.length⟩, true, newkey, some tree.brk⟩ after) :
    Runs (insertIntoLeaf ptr front.length key value) tree post := by
  obtain ⟨node, found, stores⟩ := stored
  have used : node.slotuse = front.length + back.length := by simpa using stores.used
  simp only [insertIntoLeaf, runs_bind, runs_isFull_leaf found, used]
  split
  · rename_i isFull
    have full : front.length + back.length = tree.sizes.leafslotmax := by simpa using isFull
    by_cases inFront : tree.sizes.leafslotmax / 2 ≤ front.length
    · obtain ⟨staying, moved, rfl, size⟩ : ∃ staying moved, front = staying ++ moved ∧
          staying.length = tree.sizes.leafslotmax / 2 :=
        ⟨_, _, (List.take_append_drop (tree.sizes.leafslotmax / 2) front).symm, by simpa⟩
      have staysSome : staying ≠ [] := by
        rw [← List.length_pos_iff]
        omega
      obtain ⟨newkey, last⟩ := exists_lastKeyOf staysSome
      simp only [List.length_append] at used full ⊢
      simp only [runs_bind]
      rw [List.append_assoc] at stores
      refine splitLeafNode_runs ⟨node, found, stores⟩ (by simp only [List.length_append]; omega)
        (by simp only [List.length_append]; omega) last chained unique unused
        fun after split => ?_
      obtain ⟨leftNode, foundLeft, leftStores⟩ := split.left
      obtain ⟨rightNode, foundRight, rightStores⟩ := split.right
      simp only [runs_getLeaf]
      refine ⟨leftNode, foundLeft, ?_⟩
      rw [leftStores.used, if_pos (Nat.le_add_right _ _), Nat.add_sub_cancel_left]
      simp only [runs_bind]
      have room : moved.length + back.length < after.sizes.leafslotmax := by
        rw [split.frame.sizes]
        omega
      refine insertPair_runs foundRight rightStores room fun node' links stores' => ?_
      simp only [runs_pure]
      exact inRight _ newkey staying moved rfl (split.setRight foundRight links stores') size
        (by simpa using full) last
    · obtain ⟨staying, moved, rfl, size⟩ : ∃ staying moved, back = staying ++ moved ∧
          front.length + staying.length = tree.sizes.leafslotmax / 2 :=
        ⟨_, _, (List.take_append_drop (tree.sizes.leafslotmax / 2 - front.length) back).symm,
          by simp only [List.length_take]; omega⟩
      have staysSome : staying ≠ [] := by
        rw [← List.length_pos_iff]
        omega
      obtain ⟨newkey, last⟩ := exists_lastKeyOf staysSome
      simp only [List.length_append] at used full
      simp only [runs_bind]
      rw [← List.append_assoc] at stores
      refine splitLeafNode_runs ⟨node, found, stores⟩ (by simp only [List.length_append]; omega)
        (by simp only [List.length_append]; omega) (by rwa [lastKeyOf_append staysSome])
        chained unique unused fun after split => ?_
      obtain ⟨leftNode, foundLeft, leftStores⟩ := split.left
      simp only [runs_getLeaf]
      refine ⟨leftNode, foundLeft, ?_⟩
      rw [leftStores.used, if_neg (by simp only [List.length_append]; omega)]
      simp only [runs_bind]
      have room : front.length + staying.length < after.sizes.leafslotmax := by
        rw [split.frame.sizes]
        omega
      refine insertPair_runs foundLeft leftStores room fun node' links stores' => ?_
      simp only [runs_getLeaf, runs_pure]
      refine ⟨node', by simp, ?_⟩
      rw [stores'.used, if_neg]
      · refine inLeft _ newkey moved staying rfl (split.setLeft foundLeft links stores') size
          (by simpa using full) ?_
        rw [← last, lastKeyOf_append (by simp)]
        rw [← List.singleton_append, lastKeyOf_append staysSome]
      · rw [usub_of_le (by simp; omega)]
        simp only [List.length_append, List.length_cons]
        have := List.length_pos_iff.mpr staysSome
        omega
  · rename_i notFull
    have room : front.length + back.length < tree.sizes.leafslotmax := by
      have different : front.length + back.length ≠ tree.sizes.leafslotmax := by
        simpa using notFull
      omega
    simp only [runs_bind]
    refine insertPair_runs found stores room fun node' links stores' => ?_
    simp only [runs_getLeaf, runs_pure]
    exact ⟨node', by simp, whole node node' found links stores' room _⟩

theorem InnerNode.Stores.push {node : InnerNode K} {capacity : Nat} {keys : List K}
    {children : List Ptr} (stores : node.Stores capacity keys children)
    (room : keys.length < capacity) (inRange : capacity + 1 < 2 ^ 32) (key : K) (child : Ptr) :
    ∃ newKeys newChildren, node.slotkey.write node.slotuse key = some newKeys ∧
      node.childid.write (node.slotuse + 1) child = some newChildren ∧
      InnerNode.Stores ⟨node.level, node.slotuse + 1, newKeys, newChildren⟩ capacity
        (keys ++ [key]) (children ++ [child]) := by
  obtain ⟨newKeys, keysWritten, keysHold, keysSize⟩ :=
    stores.keys.push (by rwa [stores.keyRoom]) key
  obtain ⟨newChildren, childrenWritten, childrenHold, childrenSize⟩ :=
    stores.children.push (by rw [stores.childRoom, stores.count, uadd_of_lt inRange]; omega) child
  rw [stores.count, ← stores.used] at childrenWritten
  rw [← stores.used] at keysWritten
  refine ⟨newKeys, newChildren, keysWritten, childrenWritten, ?_, by simp [stores.count],
    keysHold, childrenHold, keysSize.trans stores.keyRoom, childrenSize.trans stores.childRoom⟩
  rw [stores.used, List.length_append, List.length_singleton]

theorem InnerNode.Stores.replaceFirst {node : InnerNode K} {capacity : Nat} {keys : List K}
    {child : Ptr} {children : List Ptr} (stores : node.Stores capacity keys (child :: children))
    (new : Ptr) :
    ∃ newChildren, node.childid.read 0 = some child ∧
      node.childid.write 0 new = some newChildren ∧
      InnerNode.Stores ⟨node.level, node.slotuse, node.slotkey, newChildren⟩ capacity keys
        (new :: children) := by
  have hold : node.childid.Holds ([] ++ child :: children) := stores.children
  obtain ⟨newChildren, written, newHold, size⟩ := hold.write new
  exact ⟨newChildren, hold.read, written, stores.used, by simpa using stores.count, stores.keys,
    newHold, stores.keyRoom, size.trans stores.childRoom⟩

/-- A node takes in a new child behind one of its children, or the right half
of a full node becomes a new one and one of the two halves takes it in. When the
new child belongs between the halves its separator moves up instead. -/
theorem insertSplitChild_runs [Inhabited K] {ptr newchild child : Ptr} {level : Nat}
    {frontKeys backKeys : List K} {front back : List Ptr} {below : Insertion K}
    {post : Insertion K → BTree K D → Prop}
    (stored : tree.InnerAt ptr level (frontKeys ++ backKeys) (front ++ child :: back))
    (isInner : level ≠ 0) (aligned : front.length = frontKeys.length)
    (large : 2 ≤ tree.sizes.innerslotmax) (inRange : tree.sizes.innerslotmax + 1 < 2 ^ 32)
    (fits : frontKeys.length + backKeys.length ≤ tree.sizes.innerslotmax)
    (unused : tree.heap tree.brk = none)
    (whole : ∀ node' : InnerNode K, node'.level = level →
      node'.Stores tree.sizes.innerslotmax (frontKeys ++ below.splitkey :: backKeys)
        (front ++ child :: newchild :: back) →
      frontKeys.length + backKeys.length < tree.sizes.innerslotmax →
      post { below with splitkey := default, splitnode := none }
        (tree.setNode ptr (some (.inner node'))))
    (halves : ∀ after newkey leftKeys rightKeys leftChildren rightChildren,
      InnerSplit tree after ptr level leftKeys rightKeys leftChildren rightChildren →
      frontKeys ++ below.splitkey :: backKeys = leftKeys ++ newkey :: rightKeys →
      front ++ child :: newchild :: back = leftChildren ++ rightChildren →
      leftChildren.length = leftKeys.length + 1 →
      tree.sizes.innerslotmax / 2 ≤ leftKeys.length →
      tree.sizes.innerslotmax / 2 ≤ rightKeys.length →
      leftKeys.length + rightKeys.length = tree.sizes.innerslotmax →
      post { below with splitkey := newkey, splitnode := some tree.brk } after) :
    Runs (insertSplitChild ptr frontKeys.length below newchild) tree post := by
  obtain ⟨node, found, isLevel, stores⟩ := stored
  have used : node.slotuse = frontKeys.length + backKeys.length := by simpa using stores.used
  have count : back.length = backKeys.length := by
    have total := stores.count
    simp only [List.length_append, List.length_cons] at total
    omega
  simp only [insertSplitChild, runs_bind, runs_isFull_inner found (isLevel ▸ isInner), used]
  split
  · rename_i isFull
    have full : frontKeys.length + backKeys.length = tree.sizes.innerslotmax := by
      simpa using isFull
    obtain ⟨mid, middle⟩ : ∃ mid, (if frontKeys.length ≤ tree.sizes.innerslotmax / 2 ∧
        usub tree.sizes.innerslotmax (tree.sizes.innerslotmax / 2 + 1) <
          tree.sizes.innerslotmax / 2
      then tree.sizes.innerslotmax / 2 - 1 else tree.sizes.innerslotmax / 2) = mid := ⟨_, rfl⟩
    have middleIs := middle
    rw [usub_of_le (by omega)] at middleIs
    have midBound : mid < (frontKeys ++ backKeys).length := by
      rw [List.length_append]
      split at middleIs <;> omega
    obtain ⟨leftKeys, newkey, rightKeys, keysSplit, size⟩ := exists_split_at _ midBound
    obtain ⟨leftChildren, rightChildren, childrenSplit, childrenSize⟩ :
        ∃ leftChildren rightChildren, front ++ child :: back = leftChildren ++ rightChildren ∧
          leftChildren.length = leftKeys.length + 1 := by
      refine ⟨_, _, (List.take_append_drop (mid + 1) (front ++ child :: back)).symm, ?_⟩
      simp only [List.length_take, List.length_append, List.length_cons]
      split at middleIs <;> omega
    have total : leftKeys.length + (rightKeys.length + 1) = tree.sizes.innerslotmax := by
      have lengths := congrArg List.length keysSplit
      simp only [List.length_append, List.length_cons] at lengths
      omega
    rw [keysSplit, childrenSplit] at stores
    simp only [runs_bind]
    refine splitInnerNode_runs ⟨node, found, isLevel, stores⟩ isInner childrenSize total
      inRange (middle.trans size.symm) unused fun after split => ?_
    obtain ⟨leftNode, foundLeft, leftLevel, leftStores⟩ := split.left
    obtain ⟨rightNode, foundRight, rightLevel, rightStores⟩ := split.right
    simp only [runs_getInner]
    refine ⟨leftNode, foundLeft, rightNode, foundRight, ?_⟩
    have leftUsed := leftStores.used
    have rightUsed := rightStores.used
    by_cases inLeft : frontKeys.length ≤ leftKeys.length
    · rw [if_neg (by omega), if_neg (by omega)]
      obtain ⟨staying, rfl, rfl⟩ := append_cut keysSplit inLeft
      obtain ⟨between, rfl, isBack⟩ := append_cut childrenSplit (by omega)
      obtain ⟨first, stayingChildren, rfl⟩ : ∃ first rest, between = first :: rest := by
        refine List.exists_cons_of_length_pos ?_
        simp only [List.length_append] at childrenSize
        omega
      obtain ⟨rfl, rfl⟩ := List.cons_eq_cons.mp isBack
      rw [List.length_append] at total size
      have room : frontKeys.length + staying.length < after.sizes.innerslotmax := by
        rw [split.frame.sizes]
        omega
      simp only [runs_bind]
      refine insertChild_runs foundLeft leftStores aligned room
        (by rwa [split.frame.sizes]) fun node' isLevel' stores' => ?_
      simp only [runs_pure]
      refine halves _ newkey _ rightKeys _ rightChildren
        (split.setLeft stores' (isLevel'.trans leftLevel)) (by simp) (by simp) ?_ ?_ ?_ ?_
      all_goals
        simp only [List.length_append, List.length_cons] at childrenSize ⊢
        split at middleIs <;> omega
    · obtain ⟨moved, rfl, rfl⟩ : ∃ moved, frontKeys = (leftKeys ++ [newkey]) ++ moved ∧
          rightKeys = moved ++ backKeys := by
        refine append_cut (by simpa using keysSplit.symm) ?_
        simp only [List.length_append, List.length_singleton]
        omega
      obtain ⟨movedChildren, rfl, rfl⟩ := append_cut childrenSplit.symm (by omega)
      simp only [List.length_append, List.length_singleton] at aligned full total inLeft middleIs ⊢
      have movedSize : movedChildren.length = moved.length := by omega
      rw [List.length_append] at rightUsed
      by_cases special : leftKeys.length + 1 + moved.length = leftNode.slotuse + 1 ∧
          leftNode.slotuse < rightNode.slotuse
      · -- the place of the new child is between the halves
        rw [if_pos special]
        obtain rfl : moved = [] := List.eq_nil_of_length_eq_zero (by omega)
        obtain rfl : movedChildren = [] := List.eq_nil_of_length_eq_zero movedSize
        obtain ⟨newKeys, newLeft, keysWritten, leftWritten, leftStores'⟩ :=
          leftStores.push (by rw [split.frame.sizes]; omega) (by rwa [split.frame.sizes]) newkey child
        obtain ⟨newRight, firstRead, rightWritten, rightStores'⟩ :=
          InnerNode.Stores.replaceFirst rightStores newchild
        simp only [runs_bind, runs_writeSlot, runs_readSlot, runs_setInner, runs_pure]
        refine runs_btreeAssert (fun _ => ?_) ⟨newKeys, keysWritten, child, firstRead, newLeft,
          leftWritten, newRight, rightWritten, ?_⟩
        · simp only [runs_bind, runs_get, runs_pure, decide_eq_true_eq, and_true]
          rw [split.frame.sizes]
          omega
        have leftSplit := split.setLeft leftStores' leftLevel
        have bothSplit := leftSplit.setRight rightStores' rightLevel
        refine halves _ below.splitkey _ _ _ _ bothSplit (by simp) (by simp) ?_ ?_ ?_ ?_
        all_goals
          simp only [List.length_append, List.length_singleton, List.length_nil,
            Nat.zero_add] at *
          try split at middleIs
          all_goals omega
      · rw [if_neg special, if_pos (by omega)]
        have slot : leftKeys.length + 1 + moved.length - (leftNode.slotuse + 1) =
            moved.length := by omega
        rw [slot]
        have room : moved.length + backKeys.length < after.sizes.innerslotmax := by
          rw [split.frame.sizes]
          omega
        simp only [runs_bind]
        refine insertChild_runs foundRight rightStores movedSize room (by rwa [split.frame.sizes])
          fun node' isLevel' stores' => ?_
        simp only [runs_pure]
        refine halves _ newkey leftKeys _ leftChildren _
          (split.setRight stores' (isLevel'.trans rightLevel)) (by simp) (by simp) childrenSize
          ?_ ?_ ?_
        · split at middleIs <;> omega
        · simp only [List.length_append, List.length_cons]
          split at middleIs <;> omega
        · simp only [List.length_append, List.length_cons]
          omega
  · rename_i notFull
    have room : frontKeys.length + backKeys.length < tree.sizes.innerslotmax := by
      have different : frontKeys.length + backKeys.length ≠ tree.sizes.innerslotmax := by
        simpa using notFull
      omega
    simp only [runs_bind]
    refine insertChild_runs found stores aligned room inRange fun node' isLevel' stores' => ?_
    simp only [runs_pure]
    exact whole node' (isLevel'.trans isLevel) stores' room

end PersistentBTree.Memory
