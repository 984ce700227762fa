import PersistentBTree.Memory.Removal

/-! Taking a pair out of a leaf, and an emptied child out of an inner node. -/

set_option autoImplicit false

namespace PersistentBTree.Memory

open Imperative Multimap

variable {K D : Type}

/-! ## Telling the parent -/

private theorem ne_nil_of_lastKey {sub : Tree K D} {key : K} (isLast : sub.lastKey? = some key) :
    sub.pairs ≠ [] := by
  rintro empty
  simp [Tree.lastKey?_eq, empty, lastKeyOf] at isLast

section Reports

variable [Inhabited K] {front back : Forest K D} {old new : Tree K D}

/-- Nothing is passed on when the last key of the family stays the same. -/
theorem reported_ok (backSome : back ≠ [] → Forest.pairs back ≠ [])
    (same : back = [] → new.pairs ≠ [] → new.lastKey? = old.lastKey?)
    (alone : back = [] → new.pairs = [] → front = []) :
    Reported (Forest.pairs (front ++ old :: back)) (Forest.pairs (front ++ new :: back)) .ok := by
  refine ⟨rfl, by simp [Result.ok], fun _ nonempty => ?_⟩
  simp only [Forest.pairs_append, Forest.pairs_cons] at nonempty ⊢
  rcases List.eq_nil_or_concat' back with rfl | ⟨rest, final, rfl⟩
  · by_cases empty : new.pairs = []
    · simp [alone rfl empty, empty] at nonempty
    · have equal := same rfl empty
      obtain ⟨key, isLast⟩ := exists_lastKeyOf empty
      rw [← Tree.lastKey?_eq] at isLast
      have oldSome := ne_nil_of_lastKey (equal.symm.trans isLast)
      simpa [lastKeyOf_append, empty, oldSome, Tree.lastKey?_eq] using equal
  · have backPairs := backSome (by simp)
    rw [lastKeyOf_append (List.append_ne_nil_of_right_ne_nil _ backPairs),
      lastKeyOf_append backPairs, lastKeyOf_append (List.append_ne_nil_of_right_ne_nil _ backPairs),
      lastKeyOf_append backPairs]

omit [Inhabited K] in
theorem reported_update {last : K} (isLast : new.lastKey? = some last) :
    Reported (Forest.pairs (front ++ [old])) (Forest.pairs (front ++ [new])) (.update last) := by
  refine ⟨rfl, fun _ => ?_, by simp [Result.update]⟩
  simp only [Forest.pairs_append, Forest.pairs_cons, Forest.pairs_nil, List.append_nil]
  rw [lastKeyOf_append (ne_nil_of_lastKey isLast), ← Tree.lastKey?_eq, isLast]
  rfl

end Reports

section Parent

variable {tree : BTree K D} {height : Nat} {keys : List K} {front back : Forest K D}
  {old new : Tree K D}

theorem parentHasSlot_runs {parent : Option Ptr} {post : Bool → BTree K D → Prop}
    (parentAt : ∀ ptr, parent = some ptr →
      tree.InnerAt ptr (height + 1) keys ((front ++ old :: back).map Tree.ptr))
    (alone : parent = none → back = []) (last : back = [] → post false tree)
    (notLast : back ≠ [] → post true tree) :
    Runs (parentHasSlot parent front.length) tree post := by
  cases parent with
  | none => simpa [parentHasSlot] using last (alone rfl)
  | some parent =>
      obtain ⟨node, found, -, stores⟩ := parentAt parent rfl
      have count := stores.count
      simp only [List.length_map, List.length_append, List.length_cons] at count
      simp only [parentHasSlot, runs_bind, runs_getInner, runs_pure]
      refine ⟨node, found, ?_⟩
      rw [stores.used]
      rcases List.eq_nil_or_concat' back with rfl | ⟨rest, final, rfl⟩
      · have equal : front.length = keys.length := by simpa using count
        simpa [equal] using last rfl
      · have less : front.length < keys.length := by
          simp only [List.length_append, List.length_cons] at count
          omega
        simpa [less] using notLast (by simp)

theorem setParentKey_runs {parent : Ptr} {last : K} {post : Unit → BTree K D → Prop}
    (parentAt : tree.InnerAt parent (height + 1) keys ((front ++ old :: back).map Tree.ptr))
    (matching : keys.map some = separators (front ++ old :: back)) (notLast : back ≠ [])
    (isLast : new.lastKey? = some last)
    (next : ∀ after newKeys, tree.Rewritten after {parent} →
      after.InnerAt parent (height + 1) newKeys ((front ++ old :: back).map Tree.ptr) →
      newKeys.map some = separators (front ++ new :: back) → post () after) :
    Runs (setParentKey (some parent) front.length old.ptr last) tree post := by
  obtain ⟨frontKeys, rest, rfl, frontMatch, restMatch⟩ := split_separators matching
  obtain ⟨following, back, rfl⟩ := List.exists_cons_of_ne_nil notLast
  rw [separators_cons_cons] at restMatch
  obtain ⟨key, backKeys, rfl, -, backMatch⟩ := List.map_eq_cons_iff.mp restMatch
  have aligned := length_of_map_some frontMatch
  have children := parentAt
  rw [List.map_append, List.map_cons] at children
  simp only [setParentKey, runs_bind, runs_nonNull, Option.some.injEq, exists_eq_left']
  rw [← List.length_map Tree.ptr]
  refine runs_assertParentSlot children ?_
  rw [List.length_map, ← aligned]
  obtain ⟨node, found, isLevel, stores⟩ := parentAt
  obtain ⟨written, wrote, holds, size⟩ := stores.keys.write last
  simp only [runs_getInner, runs_writeSlot, runs_setInner]
  refine ⟨node, found, written, wrote, next _ (frontKeys ++ last :: backKeys)
    (BTree.Rewritten.setInner found _) ⟨_, BTree.heap_setNode_self .., isLevel, ?_⟩ ?_⟩
  · exact ⟨by simpa using stores.used, by simpa using stores.count, holds, stores.children,
      size.trans stores.keyRoom, stores.childRoom⟩
  · rw [List.map_append, List.map_cons, separators_append, separators_cons_cons, frontMatch,
      isLast, backMatch]

end Parent

/-- The parent knows of the last key below a child that is about to become
`new`, or the key is passed on. -/
structure Notified (before after : BTree K D) (height : Nat) (parent : Option Ptr) (keys : List K)
    (front : Forest K D) (old new : Tree K D) (back : Forest K D) (result : Result K) : Prop where
  rewritten : before.Rewritten after {ptr | parent = some ptr}
  parentAt : ∀ ptr, parent = some ptr →
    after.InnerAt ptr (height + 1) keys ((front ++ old :: back).map Tree.ptr)
  matching : keys.map some = separators (front ++ new :: back)
  reported : Reported (Forest.pairs (front ++ old :: back)) (Forest.pairs (front ++ new :: back))
    result
  whole : result.fixmerge = false

section Notified

variable [Inhabited K] {tree : BTree K D} {height : Nat} {parent : Option Ptr} {keys : List K}
  {front back : Forest K D} {old new : Tree K D}
  (parentAt : ∀ ptr, parent = some ptr →
    tree.InnerAt ptr (height + 1) keys ((front ++ old :: back).map Tree.ptr))
  (matching : keys.map some = separators (front ++ old :: back))
  (backSome : back ≠ [] → Forest.pairs back ≠ [])

include parentAt matching

theorem Notified.same (backSome : back ≠ [] → Forest.pairs back ≠ [])
    (same : new.lastKey? = old.lastKey?) (newSome : new.pairs ≠ []) :
    Notified tree tree height parent keys front old new back .ok where
  rewritten := BTree.Rewritten.refl tree _
  parentAt := parentAt
  matching := by
    rw [matching, separators_append, separators_append, separators_congr fun _ => same.symm]
  reported := reported_ok backSome (fun _ _ => same) fun _ empty => absurd empty newSome
  whole := rfl

omit [Inhabited K] in
theorem Notified.update {last : K} (isBack : back = []) (isLast : new.lastKey? = some last) :
    Notified tree tree height parent keys front old new back (.update last) where
  rewritten := BTree.Rewritten.refl tree _
  parentAt := parentAt
  matching := by
    rw [matching, separators_append, separators_append, separators_congr fun some => absurd isBack some]
  reported := by
    subst isBack
    exact reported_update isLast
  whole := rfl

theorem setParentKey_notifies {last : K} {ptr : Ptr} (isParent : parent = some ptr)
    (notLast : back ≠ []) (backSome : Forest.pairs back ≠ []) (isLast : new.lastKey? = some last)
    {post : Unit → BTree K D → Prop}
    (next : ∀ after newKeys, Notified tree after height parent newKeys front old new back .ok →
      post () after) :
    Runs (setParentKey parent front.length old.ptr last) tree post := by
  subst isParent
  refine setParentKey_runs (parentAt ptr rfl) matching notLast isLast fun after newKeys rewritten
    newParentAt newMatching => next after newKeys
      ⟨rewritten.mono (by simp), fun other isParent => ?_, newMatching, ?_, rfl⟩
  · obtain rfl : ptr = other := Option.some.inj isParent
    exact newParentAt
  · exact reported_ok (fun _ => backSome) (fun isBack => absurd isBack notLast)
      fun isBack => absurd isBack notLast

end Notified

/-! ## Taking a pair out of a leaf -/

section Leaf

variable {before after tree : BTree K D} {bounds : Bounds} {ptr : Ptr} {parent : Option Ptr}
  {keys : List K} {front back : Forest K D} {lefts rights : List Ptr}

private theorem reshaped_of_leaf {old new : List (K × D)}
    (family : Family before 0 parent keys (front ++ .leaf ptr old :: back) lefts rights)
    (rewritten : before.Rewritten after {other | parent = some other ∨ other = ptr})
    (stored : after.LeafAt ptr new) :
    Reshaped before after parent 0 (front ++ .leaf ptr old :: back) (front ++ .leaf ptr new :: back)
      0 lefts rights := by
  refine family.reshape [.leaf ptr old] [.leaf ptr new] (rewritten.frame.mono (by simp)) ?_
    ⟨0, by simp⟩ ?_ ?_ rewritten.mRoot rewritten.brk (by rw [rewritten.mStats]) ?_ ?_
  · intro kid member
    rw [List.mem_singleton] at member
    subst member
    exact stored
  · have kept := family.chained.congr (fun other _ => rewritten.links other) rewritten.mHeadleaf
      rewritten.mTailleaf
    simpa using kept
  · simp
  · simp [rewritten.mStats]
  · simp [rewritten.mStats]

variable [Inhabited K] {lower upper : List (K × D)} {pair : K × D}

private theorem lastKeyChanged_runs {node : LeafNode K D} {capacity : Nat}
    {post : Result K → BTree K D → Prop} (stores : node.Stores capacity lower)
    (parentAt : ∀ address, parent = some address → tree.InnerAt address 1 keys
      ((front ++ .leaf ptr (lower ++ [pair]) :: back).map Tree.ptr))
    (matching : keys.map some = separators (front ++ .leaf ptr (lower ++ [pair]) :: back))
    (backSome : back ≠ [] → Forest.pairs back ≠ [])
    (alone : parent = none → front = [] ∧ back = [] ∧ tree.mRoot = some ptr)
    (several : parent ≠ none → lower ≠ [])
    (next : ∀ result after newKeys, Notified tree after 0 parent newKeys front
      (.leaf ptr (lower ++ [pair])) (.leaf ptr lower) back result → post result after) :
    Runs (lastKeyChanged ptr node parent front.length) tree post := by
  have leafLast : ∀ {last}, lastKeyOf lower = some last →
      (Tree.leaf ptr lower).lastKey? = some last := by
    intro last isLast
    rw [Tree.lastKey?_eq, Tree.pairs_leaf, isLast]
  simp only [lastKeyChanged, runs_bind]
  refine parentHasSlot_runs parentAt (fun isNone => (alone isNone).2.1) (fun isBack => ?_)
    fun notLast => ?_
  · simp only [Bool.false_eq_true, ↓reduceIte]
    by_cases empty : lower = []
    · have isRoot : parent = none := by_contra fun below => several below empty
      obtain ⟨rfl, rfl, rootAt⟩ := alone isRoot
      rw [stores.used, if_neg (by simp [empty]), runs_bind]
      refine runs_btreeAssert (fun _ => by simp [rootAt]) ?_
      rw [runs_pure]
      refine next _ _ _ ⟨BTree.Rewritten.refl tree _, parentAt, ?_, ?_, rfl⟩
      · rw [matching, List.nil_append, List.nil_append, separators_singleton, separators_singleton]
      · exact reported_ok (by simp) (fun _ some => absurd (by simpa using empty) some) (by simp)
    · obtain ⟨last, isLast⟩ := exists_lastKeyOf empty
      rw [stores.used, if_pos (show 1 ≤ lower.length from List.length_pos_of_ne_nil empty)]
      simp only [runs_bind, runs_readSlot, runs_pure]
      exact ⟨last, read_lastKey stores.keys isLast,
        next _ _ _ (.update parentAt matching isBack (leafLast isLast))⟩
  · obtain ⟨address, isParent⟩ := Option.ne_none_iff_exists'.mp fun isNone =>
      notLast (alone isNone).2.1
    obtain ⟨last, isLast⟩ := exists_lastKeyOf (several (by simp [isParent]))
    rw [stores.used]
    simp only [↓reduceIte, runs_bind, runs_readSlot]
    refine ⟨last, read_lastKey stores.keys isLast, ?_⟩
    refine setParentKey_notifies parentAt matching isParent notLast (backSome notLast)
      (leafLast isLast) fun after newKeys notified => ?_
    rw [runs_pure]
    exact next _ _ _ notified

theorem removePair_runs
    (family : Family tree 0 parent keys (front ++ .leaf ptr (lower ++ pair :: upper) :: back) lefts
      rights) (fits : (lower ++ pair :: upper).length ≤ bounds.leafMax)
    (backSome : back ≠ [] → Forest.pairs back ≠ [])
    (alone : parent = none → front = [] ∧ back = [] ∧ tree.mRoot = some ptr)
    (several : parent ≠ none → 2 ≤ (lower ++ pair :: upper).length)
    {post : Result K → BTree K D → Prop}
    (next : ∀ result after newKeys, Shrunk tree after bounds 0 parent newKeys front
      (.leaf ptr (lower ++ pair :: upper)) (.leaf ptr (lower ++ upper)) back (lower ++ upper) result
      lefts rights → post result after) :
    Runs (removePair ptr lower.length parent front.length) tree post := by
  have stored : tree.LeafAt ptr (lower ++ pair :: upper) :=
    family.stored (.leaf ptr (lower ++ pair :: upper)) (by simp)
  obtain ⟨node, found, stores⟩ := stored
  have keysHold := stores.keys
  have dataHold := stores.data
  rw [List.map_append, List.map_cons] at keysHold dataHold
  obtain ⟨newSlots, keysMoved, newKeysHold, keysSize⟩ := keysHold.erase
  obtain ⟨newData, dataMoved, newDataHold, dataSize⟩ := dataHold.erase
  rw [← List.map_append] at newKeysHold newDataHold
  have used : node.slotuse = lower.length + 1 + upper.length := by
    rw [stores.used]
    simp only [List.length_append, List.length_cons]
    omega
  have less : usub node.slotuse 1 = lower.length + upper.length := by
    rw [usub_of_le (by omega)]
    omega
  simp only [List.length_map, ← used] at keysMoved dataMoved
  simp only [removePair, runs_bind, runs_getLeaf, runs_copySlots, runs_setLeaf]
  refine ⟨node, found, newSlots, keysMoved, newData, dataMoved, ?_⟩
  rw [less, runs_ite]
  obtain ⟨new, isNew⟩ : ∃ new : LeafNode K D, { node with
      slotuse := lower.length + upper.length, slotkey := newSlots, slotdata := newData } = new :=
    ⟨_, rfl⟩
  have newStores : new.Stores tree.sizes.leafslotmax (lower ++ upper) := by
    rw [← isNew]
    exact ⟨by simp, newKeysHold, newDataHold, keysSize.trans stores.keyRoom,
      dataSize.trans stores.dataRoom⟩
  have shrinks := BTree.Rewritten.setLeaf found (show new.links = node.links by rw [← isNew]; rfl)
  have leafAt : (tree.setNode ptr (some (.leaf new))).LeafAt ptr (lower ++ upper) :=
    ⟨new, BTree.heap_setNode_self .., newStores⟩
  obtain ⟨middle, isMiddle⟩ : ∃ middle, tree.setNode ptr (some (.leaf new)) = middle := ⟨_, rfl⟩
  rw [isMiddle] at shrinks leafAt
  have parentAt : ∀ address, parent = some address → middle.InnerAt address 1 keys
      ((front ++ .leaf ptr (lower ++ pair :: upper) :: back).map Tree.ptr) := by
    intro address isParent
    refine shrinks.frame.innerAt ?_ (family.parentAt address isParent)
    rintro rfl
    exact family.outside _ isParent (by simp)
  have finish : ∀ result after newKeys, Notified middle after 0 parent newKeys front
      (.leaf ptr (lower ++ pair :: upper)) (.leaf ptr (lower ++ upper)) back result →
      post result after := by
    intro result after newKeys notified
    refine next result after newKeys ⟨reshaped_of_leaf family ((shrinks.mono (by simp)).trans
      (notified.rewritten.mono (by simp +contextual))) (notified.rewritten.frame.leafAt ?_ leafAt),
      ?_, notified.matching, rfl, ?_, by simp, notified.reported, notified.whole⟩
    · intro isParent
      exact family.outside ptr isParent (by simp)
    · simpa using notified.parentAt
    · simp only [WellFormed, List.length_append, List.length_cons, Tree.used_leaf] at fits ⊢
      omega
  split
  · rename_i isLastPair
    have empty : upper = [] := by simpa using isLastPair
    subst empty
    rw [isNew, isMiddle]
    rw [List.append_nil] at newStores finish
    refine lastKeyChanged_runs newStores parentAt family.matching backSome
      (shrinks.mRoot ▸ alone) (fun below => ?_) finish
    rintro rfl
    simpa using several below
  · rename_i notLastPair
    have nonempty : upper ≠ [] := by simpa using notLastPair
    rw [isNew, isMiddle, runs_pure]
    refine finish _ _ _ (.same parentAt family.matching backSome ?_ (by simp [nonempty]))
    rw [Tree.lastKey?_eq, Tree.lastKey?_eq, Tree.pairs_leaf, Tree.pairs_leaf,
      lastKeyOf_append nonempty, List.append_cons, lastKeyOf_append nonempty]

end Leaf

/-! ## Taking an emptied child out of an inner node -/

/-- The tree without the node at `ptr`, which had this level. -/
def BTree.freed (tree : BTree K D) (ptr : Ptr) (level : Nat) : BTree K D :=
  { tree.setNode ptr none with
    mStats := if level = 0 then { tree.mStats with leaves := tree.mStats.leaves - 1 }
      else { tree.mStats with innernodes := tree.mStats.innernodes - 1 } }

theorem freeNode_runs {tree : BTree K D} {ptr : Ptr} {node : Node K D} {post : Unit → BTree K D → Prop}
    (found : tree.heap ptr = some node) (next : post () (tree.freed ptr node.level)) :
    Runs (freeNode ptr) tree post := by
  simp only [freeNode, isLeafNode, runs_bind, runs_getNode, found, Option.some.injEq,
    exists_eq_left', runs_pure, runs_ite, runs_modify, beq_iff_eq]
  split
  · rename_i isLeaf
    simpa [BTree.freed, isLeaf] using next
  · rename_i isInner
    simpa [BTree.freed, isInner] using next

/-- The inner node at `ptr` stores these keys and children, and the nodes
`spare` were freed. -/
structure Trimmed (before after : BTree K D) (ptr : Ptr) (height : Nat) (keys : List K)
    (kids : Forest K D) (spare : Multiset Ptr) : Prop where
  frame : before.Frame after {other | other = ptr ∨ other ∈ spare}
  innerAt : after.InnerAt ptr (height + 1) keys (kids.map Tree.ptr)
  freed : ∀ other ∈ spare, after.heap other = none
  links : ∀ other, other ∉ spare → after.links other = before.links other
  mRoot : after.mRoot = before.mRoot
  mHeadleaf : after.mHeadleaf = before.mHeadleaf
  mTailleaf : after.mTailleaf = before.mTailleaf
  brk : after.brk = before.brk
  itemcount : after.mStats.itemcount = before.mStats.itemcount
  leaves : after.mStats.leaves = before.mStats.leaves - if height = 0 then spare.card else 0
  innernodes : after.mStats.innernodes =
    before.mStats.innernodes - if height = 0 then 0 else spare.card

section Inner

variable {tree : BTree K D} {inner spare : Ptr} {height : Nat} {frontKeys backKeys : List K}
  {key : K} {front back : Forest K D} {merged : Tree K D}

private theorem trimmed_of_setInner {node new : InnerNode K} {emptied : Node K D}
    (found : tree.heap inner = some (.inner node)) (apart : inner ≠ spare)
    (foundSpare : tree.heap spare = some emptied) {keys : List K} {kids : Forest K D}
    (stores : new.Stores tree.sizes.innerslotmax keys (kids.map Tree.ptr))
    (isLevel : new.level = height + 1) :
    Trimmed tree ((tree.freed spare height).setNode inner (some (.inner new))) inner height keys
      kids {spare} where
  frame := by
    refine ⟨rfl, rfl, fun other outside => ?_⟩
    simp only [Set.mem_ofPred_eq, Multiset.mem_singleton, not_or] at outside
    rw [BTree.content_setNode_of_ne _ _ outside.1]
    exact BTree.content_setNode_of_ne tree none outside.2
  innerAt := ⟨new, BTree.heap_setNode_self .., isLevel, stores⟩
  freed other isSpare := by
    obtain rfl := Multiset.mem_singleton.mp isSpare
    rw [BTree.heap_setNode_of_ne _ _ (Ne.symm apart)]
    exact BTree.heap_setNode_self ..
  links other notSpare := by
    rw [Multiset.mem_singleton] at notSpare
    have same : (tree.freed spare height).links other = tree.links other :=
      BTree.links_setNode_of_ne tree none notSpare
    have isInner : (tree.freed spare height).links inner = none := by
      refine (BTree.links_setNode_of_ne tree none apart).trans ?_
      exact BTree.links_eq_none_of_inner found
    rw [BTree.links_setNode_inner isInner, same]
  mRoot := rfl
  mHeadleaf := rfl
  mTailleaf := rfl
  brk := rfl
  itemcount := by
    simp only [BTree.mStats_setNode, BTree.freed]
    split <;> rfl
  leaves := by
    simp only [BTree.mStats_setNode, BTree.freed]
    split <;> simp
  innernodes := by
    simp only [BTree.mStats_setNode, BTree.freed]
    split <;> simp

theorem removeChild_runs {post : Unit → BTree K D → Prop}
    (parentAt : tree.InnerAt inner (height + 1) (frontKeys ++ key :: backKeys)
      (front.map Tree.ptr ++ merged.ptr :: spare :: back.map Tree.ptr))
    (aligned : front.length = frontKeys.length)
    (unused : ∃ node, tree.heap spare = some node ∧ node.level = height ∧ node.slotuse = 0)
    (stored : tree.Represents height merged) (apart : merged.ptr ≠ spare)
    (matching : (frontKeys ++ backKeys).map some = separators (front ++ merged :: back))
    (inUse : merged.pairs ≠ [])
    (next : ∀ after, Trimmed tree after inner height (frontKeys ++ backKeys)
      (front ++ merged :: back) {spare} → post () after) :
    Runs (removeChild inner (front.length + 1)) tree post := by
  obtain ⟨node, found, isLevel, stores⟩ := parentAt
  obtain ⟨emptied, foundSpare, spareLevel, isEmpty⟩ := unused
  have innerSpare : inner ≠ spare := by
    rintro rfl
    obtain rfl : Node.inner node = emptied := by simpa [found] using foundSpare
    simp [Node.level, isLevel] at spareLevel
  have children : Buffer.Holds node.childid
      ((front.map Tree.ptr ++ [merged.ptr]) ++ spare :: back.map Tree.ptr) := by
    simpa using stores.children
  have emptiedRead := children.read
  obtain ⟨newKeys, keysMoved, keysHold, keysSize⟩ := stores.keys.erase
  obtain ⟨newChildren, childrenMoved, childrenHold, childrenSize⟩ := children.erase
  have keyCount : frontKeys.length + 1 + backKeys.length = node.slotuse := by
    rw [stores.used]
    simp only [List.length_append, List.length_cons]
    omega
  have childCount : front.length + 1 + 1 + back.length = node.slotuse + 1 := by
    have count := stores.count
    simp only [List.length_append, List.length_map, List.length_cons] at count
    omega
  rw [keyCount, ← aligned] at keysMoved
  simp only [List.length_append, List.length_map, List.length_singleton, childCount]
    at childrenMoved emptiedRead
  have slotBefore : usub (front.length + 1) 1 = front.length := by
    rw [usub_of_le (by omega)]
    omega
  have less : usub node.slotuse 1 = (frontKeys ++ backKeys).length := by
    rw [usub_of_le (by omega), List.length_append]
    omega
  have newStores : ∀ newKeys : Buffer K, newKeys.Holds (frontKeys ++ backKeys) →
      newKeys.length = node.slotkey.length → InnerNode.Stores
        { node with slotuse := (frontKeys ++ backKeys).length, slotkey := newKeys
                    childid := newChildren } tree.sizes.innerslotmax (frontKeys ++ backKeys)
        ((front ++ merged :: back).map Tree.ptr) := by
    intro newKeys holds size
    refine ⟨rfl, ?_, holds, by simpa using childrenHold, size.trans stores.keyRoom,
      childrenSize.trans stores.childRoom⟩
    simp only [List.length_map, List.length_append, List.length_cons]
    omega
  simp only [removeChild, runs_bind, runs_getInner, runs_readSlot]
  refine ⟨node, found, spare, emptiedRead, runs_btreeAssert (fun _ => ?_)
    (freeNode_runs foundSpare ?_)⟩
  · simp [slotuse, foundSpare, isEmpty]
  simp only [runs_copySlots, slotBefore]
  refine ⟨newKeys, keysMoved, newChildren, childrenMoved, ?_⟩
  rw [spareLevel, less, runs_ite]
  split
  · rename_i isLeafParent
    have isLeaf : height = 0 := by omega
    subst isLeaf
    obtain ⟨ptr, pairs, rfl⟩ := stored.exists_leaf
    obtain ⟨leaf, foundLeaf, leafStores⟩ := stored
    obtain ⟨last, isLast⟩ := exists_lastKeyOf inUse
    rw [Tree.pairs_leaf] at isLast
    have leafThere : (tree.freed spare 0).heap ptr = some (.leaf leaf) :=
      (BTree.heap_setNode_of_ne tree none apart).trans foundLeaf
    have childRead : newChildren.read front.length = some ptr := by
      have holds : newChildren.Holds (front.map Tree.ptr ++ ptr :: back.map Tree.ptr) := by
        simpa using childrenHold
      simpa using holds.read
    -- the key written is the one already there, or lies past the keys in use
    obtain ⟨written, wrote, writtenHold, writtenSize⟩ : ∃ written,
        newKeys.write front.length last = some written ∧ written.Holds (frontKeys ++ backKeys) ∧
          written.length = newKeys.length := by
      rw [List.map_append, separators_append] at matching
      obtain ⟨-, backMatch⟩ := List.append_inj matching (by simp [aligned])
      rw [aligned]
      cases back with
      | nil =>
          obtain rfl : backKeys = [] := by simpa using backMatch
          rw [List.append_nil] at keysHold ⊢
          refine keysHold.write_past (Nat.le_refl _) ?_ last
          rw [keysSize]
          have room := stores.keys.length_le
          simp only [List.length_append, List.length_cons] at room
          omega
      | cons next back =>
          rw [separators_cons_cons, Tree.lastKey?_eq, Tree.pairs_leaf, isLast] at backMatch
          obtain ⟨key, rest, rfl, isKey, -⟩ := List.map_eq_cons_iff.mp backMatch
          obtain rfl := Option.some.inj isKey
          exact keysHold.write key
    simp only [runs_bind, runs_readSlot, runs_getLeaf, runs_writeSlot, runs_setInner]
    refine ⟨ptr, childRead, leaf, leafThere, last, ?_, written, wrote, next _
      (trimmed_of_setInner found innerSpare foundSpare
        (newStores written writtenHold (writtenSize.trans keysSize)) isLevel)⟩
    rw [leafStores.used]
    exact read_lastKey leafStores.keys isLast
  · rw [runs_setInner]
    exact next _ (trimmed_of_setInner found innerSpare foundSpare
      (newStores newKeys keysHold keysSize) isLevel)

theorem fixMerge_runs {slot : Nat} {keys : List K} {kids : Forest K D} {spares : Multiset Ptr}
    {result : Result K} {lefts rights : List Ptr} {post : Unit → BTree K D → Prop}
    (held : Held tree inner height slot lefts rights keys kids spares result.fixmerge)
    (stored : ∀ kid ∈ kids, tree.Represents height kid)
    (apart : ∀ kid ∈ kids, kid.ptr ∉ spares) (inUse : ∀ kid ∈ kids, kid.pairs ≠ [])
    (matching : keys.map some = separators kids)
    (next : ∀ after, Trimmed tree after inner height keys kids spares → post () after) :
    Runs (fixMerge inner slot result) tree post := by
  rw [fixMerge]
  generalize result.fixmerge = removes at held ⊢
  cases held with
  | whole parentAt =>
      simp only [Bool.false_eq_true, ↓reduceIte, runs_pure]
      exact next tree ⟨⟨rfl, rfl, fun _ _ => rfl⟩, parentAt, by simp, fun _ _ => rfl, rfl, rfl, rfl,
        rfl, rfl, by simp, by simp⟩
  | @emptied frontKeys backKeys key front back merged spare parentAt aligned unused inChain used
      inSlot =>
      have removes : Runs (removeChild inner (front.length + 1)) tree post :=
        removeChild_runs parentAt aligned unused (stored merged (by simp))
          (by simpa using apart merged (by simp)) matching (inUse merged (by simp)) next
      obtain ⟨node, found, -, stores⟩ := parentAt
      obtain ⟨emptied, foundSpare, -, isEmpty⟩ := unused
      have children := stores.children
      simp only [↓reduceIte, runs_bind, runs_getInner, runs_readSlot]
      refine ⟨node, found, ?_⟩
      rcases inSlot with rfl | rfl
      · refine ⟨merged.ptr, by simpa using children.read, ?_⟩
        rw [(stored merged (by simp)).runs_slotuse]
        simpa [used] using removes
      · rw [List.append_cons] at children
        refine ⟨spare, by simpa using children.read, ?_⟩
        simpa [slotuse, foundSpare, isEmpty] using removes

/-- `btree_update_lastkey` from a child. -/
theorem passLastkey_runs [Inhabited K] {parent : Option Ptr} {keys : List K} {old new : Tree K D}
    {result : Result K} {post : Result K → BTree K D → Prop}
    (parentAt : ∀ ptr, parent = some ptr →
      tree.InnerAt ptr (height + 1) keys ((front ++ old :: back).map Tree.ptr))
    (matching : keys.map some = separators (front ++ old :: back))
    (backSome : back ≠ [] → Forest.pairs back ≠ []) (alone : parent = none → back = [])
    (passes : result.updateLastkey = true → new.lastKey? = some result.lastkey)
    (keeps : result.updateLastkey = false → new.lastKey? = old.lastKey?) (inUse : new.pairs ≠ [])
    (next : ∀ myres after newKeys,
      Notified tree after height parent newKeys front old new back myres → post myres after) :
    Runs (passLastkey old.ptr result parent front.length) tree post := by
  rw [passLastkey]
  split
  · rename_i updates
    simp only [runs_bind]
    refine parentHasSlot_runs parentAt alone (fun isBack => ?_) fun notLast => ?_
    · simp only [Bool.false_eq_true, ↓reduceIte, runs_pure]
      exact next _ _ _ (.update parentAt matching isBack (passes updates))
    · obtain ⟨address, isParent⟩ := Option.ne_none_iff_exists'.mp fun isNone => notLast (alone isNone)
      simp only [↓reduceIte, runs_bind]
      refine setParentKey_notifies parentAt matching isParent notLast (backSome notLast)
        (passes updates) fun after newKeys notified => ?_
      rw [runs_pure]
      exact next _ _ _ notified
  · rename_i same
    rw [runs_pure]
    exact next _ _ _ (.same parentAt matching backSome (keeps (by simpa using same)) inUse)

end Inner

section Above

variable {before middle after : BTree K D} {bounds : Bounds} {height slot : Nat} {ptr : Ptr}
  {parent : Option Ptr} {keys oldKeys newKeys : List K} {front back oldKids newKids : Forest K D}
  {spares : Multiset Ptr} {lefts rights : List Ptr}

private theorem BTree.Frame.exists_node {touched : Set Ptr} (frame : before.Frame after touched)
    (outside : ptr ∉ touched) {level used : Nat}
    (stored : ∃ node, before.heap ptr = some node ∧ node.level = level ∧ node.slotuse = used) :
    ∃ node, after.heap ptr = some node ∧ node.level = level ∧ node.slotuse = used := by
  obtain ⟨node, found, isLevel, isUsed⟩ := stored
  have same := frame.content ptr outside
  simp only [BTree.content, found, Option.map_some] at same
  obtain ⟨other, foundOther, sameContent⟩ := Option.map_eq_some_iff.mp same
  have levels : ∀ node : Node K D, node.content.level = node.level := by
    intro node
    cases node <;> rfl
  have uses : ∀ node : Node K D, node.content.slotuse = node.slotuse := by
    intro node
    cases node <;> rfl
  exact ⟨other, foundOther, by rw [← levels, sameContent, levels, isLevel],
    by rw [← uses, sameContent, uses, isUsed]⟩

private theorem Held.congr {flag : Bool} {kids : Forest K D} {touched : Set Ptr}
    (held : Held before ptr height slot lefts rights keys kids spares flag)
    (frame : before.Frame after touched) (outside : ptr ∉ touched)
    (spareOutside : ∀ spare ∈ spares, spare ∉ touched) :
    Held after ptr height slot lefts rights keys kids spares flag := by
  cases held with
  | whole parentAt => exact .whole (frame.innerAt outside parentAt)
  | emptied parentAt aligned unused apart inUse inSlot =>
      exact .emptied (frame.innerAt outside parentAt) aligned
        (frame.exists_node (spareOutside _ (by simp)) unused) apart inUse inSlot

private theorem Held.apart {flag : Bool} {kids : Forest K D}
    (held : Held before ptr height slot lefts rights keys kids spares flag) :
    ∀ spare ∈ spares, spare ∉ lefts ++ Forest.leaves kids ++ rights := by
  cases held with
  | whole => simp
  | emptied _ _ _ apart => simpa using apart

/-- What became of an inner node after a pair was erased below it. -/
private theorem reshaped_above {between : BTree K D} {flag : Bool}
    (family : Family before (height + 1) parent keys (front ++ .inner ptr oldKeys oldKids :: back)
      lefts rights)
    (reshaped : Reshaped before middle (some ptr) height oldKids newKids spares
      (lefts ++ Forest.leaves front) (Forest.leaves back ++ rights))
    (held : Held middle ptr height slot (lefts ++ Forest.leaves front)
      (Forest.leaves back ++ rights) newKeys newKids spares flag)
    (rewritten : middle.Rewritten between {other | parent = some other})
    (trimmed : Trimmed between after ptr height newKeys newKids spares) :
    Reshaped before after parent (height + 1) (front ++ .inner ptr oldKeys oldKids :: back)
      (front ++ .inner ptr newKeys newKids :: back) 0 lefts rights := by
  have outside : ∀ {other}, parent = some other → other ∉ Forest.foot oldKids := by
    intro other isParent within
    exact family.outside other isParent (by simp [within])
  have nodup := family.nodup
  simp only [Forest.foot_append, Forest.foot_cons, Tree.foot_inner, Multiset.nodup_add,
    Multiset.nodup_cons] at nodup
  obtain ⟨-, ⟨⟨ptrOutside, kidsNodup⟩, -, -⟩, -⟩ := nodup
  obtain ⟨dead, isFoot, deadFreed⟩ := reshaped.foot
  rw [isFoot, Multiset.nodup_add, Multiset.nodup_add] at kidsNodup
  obtain ⟨⟨-, -, newSpare⟩, -, apartDead⟩ := kidsNodup
  rw [Multiset.disjoint_left] at newSpare apartDead
  have inOld : ∀ {other}, other ∈ Forest.foot newKids ∨ other ∈ spares ∨ other ∈ dead →
      other ∈ Forest.foot oldKids := by
    intro other member
    simpa [isFoot, or_assoc] using member
  refine family.reshape [.inner ptr oldKeys oldKids] [.inner ptr newKeys newKids] ?_ ?_ ?_ ?_ ?_
    (trimmed.mRoot.trans (rewritten.mRoot.trans reshaped.mRoot))
    (trimmed.brk.trans (rewritten.brk.trans reshaped.brk)) ?_ ?_ ?_
  · refine ((reshaped.frame.mono ?_).trans (rewritten.frame.mono ?_)).trans (trimmed.frame.mono ?_)
    · rintro other (isPtr | within)
      · exact .inr (by simp [Option.some.inj isPtr])
      · exact .inr (by simp [within])
    · exact fun other isParent => .inl isParent
    · rintro other (rfl | isSpare)
      · exact .inr (by simp)
      · exact .inr (by simp [inOld (.inr (.inl isSpare))])
  · intro kid member
    rw [List.mem_singleton] at member
    subst member
    refine ⟨trimmed.innerAt, fun kid member => ?_⟩
    have inFoot : ∀ other ∈ kid.foot, other ∈ Forest.foot newKids := fun other within =>
      Forest.mem_foot.mpr ⟨kid, member, within⟩
    refine trimmed.frame.represents (fun other within => ?_) (rewritten.frame.represents
      (fun other within isParent => outside isParent (inOld (.inl (inFoot other within))))
      (reshaped.stored kid member))
    rintro (rfl | isSpare)
    · exact ptrOutside (inOld (.inl (inFoot _ within)))
    · exact newSpare (inFoot other within) isSpare
  · refine ⟨spares + dead, ?_, fun other member => ?_⟩
    · simp only [Forest.foot_cons, Forest.foot_nil, Tree.foot_inner, isFoot,
        ← Multiset.singleton_add]
      abel
    · rcases Multiset.mem_add.mp member with isSpare | isDead
      · exact trimmed.freed other isSpare
      · refine trimmed.frame.heap_eq_none ?_ (rewritten.frame.heap_eq_none
          (fun isParent => outside isParent (inOld (.inr (.inr isDead)))) (deadFreed other isDead))
        rintro (rfl | isSpare)
        · exact ptrOutside (inOld (.inr (.inr isDead)))
        · exact apartDead (Multiset.mem_add.mpr (.inr isSpare)) isDead
  · have kept := (reshaped.chained.congr (fun other _ => rewritten.links other)
      rewritten.mHeadleaf rewritten.mTailleaf).congr (fun other member => trimmed.links other
        fun isSpare => held.apart other isSpare member) trimmed.mHeadleaf trimmed.mTailleaf
    simpa using kept
  · simpa using reshaped.sublist
  · rw [trimmed.itemcount, rewritten.mStats, reshaped.itemcount]
  · have enough := family.leaves
    have count := reshaped.leaves
    simp only [Forest.leaves_append, Forest.leaves_cons, Tree.leaves_inner, List.length_append]
      at enough
    simp only [Forest.leaves_cons, Forest.leaves_nil, Tree.leaves_inner, List.append_nil,
      trimmed.leaves, rewritten.mStats, Multiset.card_zero, ite_self]
    omega
  · have enough := family.innernodes
    have count := reshaped.innernodes
    simp only [Forest.innerCount_append, Forest.innerCount_cons, Tree.innerCount_inner] at enough
    simp only [Forest.innerCount_cons, Forest.innerCount_nil, Tree.innerCount_inner,
      trimmed.innernodes, rewritten.mStats, Multiset.card_zero, ite_self]
    omega

/-- What a child reports is settled in its node: the key above is updated or
passed on, and an emptied child is removed. -/
theorem passLastkey_fixMerge_runs [Inhabited K] {remaining : List (K × D)} {result : Result K}
    {post : Result K → BTree K D → Prop}
    (innerMax : bounds.innerMax = before.sizes.innerslotmax) (positive : 1 ≤ bounds.leafMin)
    (family : Family before (height + 1) parent keys (front ++ .inner ptr oldKeys oldKids :: back)
      lefts rights)
    (count : oldKids.length = oldKeys.length + 1) (several : 1 ≤ oldKeys.length)
    (backSome : back ≠ [] → Forest.pairs back ≠ []) (alone : parent = none → back = [])
    (erased : Erased before middle bounds height ptr slot oldKids newKids newKeys spares remaining
      result (lefts ++ Forest.leaves front) (Forest.leaves back ++ rights))
    (next : ∀ myres after keys', Shrunk before after bounds (height + 1) parent keys' front
      (.inner ptr oldKeys oldKids) (.inner ptr newKeys newKids) back remaining myres lefts rights →
      post myres after) :
    Runs (passLastkey ptr result parent front.length) middle fun myres between =>
      Runs (fixMerge ptr slot result) between fun _ after => post myres after := by
  have outside := family.outside
  have nodup := family.nodup
  simp only [Forest.foot_append, Forest.foot_cons, Tree.foot_inner, Multiset.mem_add,
    Multiset.mem_cons, not_or] at outside
  simp only [Forest.foot_append, Forest.foot_cons, Tree.foot_inner, Multiset.nodup_add,
    Multiset.nodup_cons] at nodup
  obtain ⟨-, ⟨⟨ptrOutside, kidsNodup⟩, -, -⟩, -⟩ := nodup
  obtain ⟨dead, isFoot, deadFreed⟩ := erased.reshaped.foot
  rw [isFoot, Multiset.nodup_add, Multiset.nodup_add] at kidsNodup
  obtain ⟨⟨-, -, newSpare⟩, -, -⟩ := kidsNodup
  rw [Multiset.disjoint_left] at newSpare
  have inOld : ∀ {other}, other ∈ Forest.foot newKids ∨ other ∈ spares →
      other ∈ Forest.foot oldKids := by
    intro other member
    simpa [isFoot, or_assoc] using member.imp id .inl
  have newCount := erased.count
  have keyCount : newKeys.length = newKids.length - 1 := by
    rw [← length_separators, ← erased.matching, List.length_map]
  have inUse : ∀ kid ∈ newKids, kid.pairs ≠ [] := fun kid member =>
    (erased.formed kid member).pairs_ne_nil positive
  have remains : remaining ≠ [] := by
    obtain ⟨first, rest, rfl⟩ := List.exists_cons_of_length_pos (show 0 < newKids.length by omega)
    rw [← erased.pairs]
    simp [inUse first (by simp)]
  have newLast : (Tree.inner ptr newKeys newKids).lastKey? = lastKeyOf remaining := by
    rw [Tree.lastKey?_eq, Tree.pairs_inner, erased.pairs]
  have oldLast : (Tree.inner ptr oldKeys oldKids).lastKey? = lastKeyOf (Forest.pairs oldKids) := by
    rw [Tree.lastKey?_eq, Tree.pairs_inner]
  have parentAt : ∀ address, parent = some address → middle.InnerAt address (height + 1 + 1) keys
      ((front ++ .inner ptr oldKeys oldKids :: back).map Tree.ptr) := by
    intro address isParent
    refine erased.reshaped.frame.innerAt ?_ (family.parentAt address isParent)
    have apart := outside address isParent
    rintro (isPtr | within)
    · exact apart.2.1.1 (Option.some.inj isPtr).symm
    · exact apart.2.1.2 within
  have tells : ∀ {post : Result K → BTree K D → Prop}, (∀ myres between keys',
      Notified middle between (height + 1) parent keys' front (.inner ptr oldKeys oldKids)
        (.inner ptr newKeys newKids) back myres → post myres between) →
      Runs (passLastkey ptr result parent front.length) middle post := by
    refine passLastkey_runs parentAt family.matching backSome alone (fun updates => ?_)
      (fun same => ?_) ?_
    · rw [newLast, erased.reported.passes updates]
    · rw [newLast, oldLast, erased.reported.keeps same remains]
    · rw [Tree.pairs_inner, erased.pairs]
      exact remains
  refine tells fun myres between keys' notified => ?_
  have notParent : ∀ {other}, other = ptr ∨ other ∈ Forest.foot newKids ∨ other ∈ spares →
      other ∉ {other | parent = some other} := by
    rintro other (rfl | member) isParent
    · exact (outside _ isParent).2.1.1 rfl
    · exact (outside _ isParent).2.1.2 (inOld member)
  have heldNow := erased.held.congr notified.rewritten.frame (notParent (.inl rfl))
    fun spare isSpare => notParent (.inr (.inr isSpare))
  refine fixMerge_runs heldNow (fun kid member => ?_) (fun kid member => ?_) inUse erased.matching
    fun after trimmed => ?_
  · refine notified.rewritten.frame.represents (fun other within => notParent (.inr (.inl ?_)))
      (erased.reshaped.stored kid member)
    exact Forest.mem_foot.mpr ⟨kid, member, within⟩
  · exact newSpare (Forest.mem_foot.mpr ⟨kid, member, Tree.ptr_mem_foot kid⟩)
  · refine next myres after keys' ⟨reshaped_above family erased.reshaped erased.held
      notified.rewritten trimmed, fun address isParent => ?_, notified.matching, rfl, ?_, ?_,
      notified.reported, notified.whole⟩
    · refine trimmed.frame.innerAt ?_ (by simpa using notified.parentAt address isParent)
      have apart := outside address isParent
      rintro (rfl | isSpare)
      · exact apart.2.1.1 rfl
      · exact apart.2.1.2 (inOld (.inr isSpare))
    · obtain ⟨node, -, -, stores⟩ := trimmed.innerAt
      have room := stores.keys.length_le
      rw [stores.keyRoom, trimmed.frame.sizes, notified.rewritten.frame.sizes,
        erased.reshaped.frame.sizes, ← innerMax] at room
      exact ⟨by simp only [Tree.used_inner]; omega, room, by omega, erased.matching, erased.formed⟩
    · rw [Tree.pairs_inner, erased.pairs]

end Above

end PersistentBTree.Memory
