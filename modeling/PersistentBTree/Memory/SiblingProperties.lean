import PersistentBTree.Memory.RebalanceProperties
import PersistentBTree.Memory.Reshape

/-! Merging and shifting two neighbours of a family. -/

set_option autoImplicit false

namespace PersistentBTree.Memory

open Imperative Multimap

variable {K D : Type}

/-- The neighbour `right` was merged into `left`. The parent still stores both
of them. -/
structure Merged (before after : BTree K D) (bounds : Bounds) (height : Nat) (parent : Ptr)
    (keys : List K) (front : Forest K D) (left right : Tree K D) (back : Forest K D)
    (merged : Tree K D) (lefts rights : List Ptr) : Prop where
  reshaped : Reshaped before after (some parent) height (front ++ left :: right :: back)
    (front ++ merged :: back) {right.ptr} lefts rights
  parentAt : after.InnerAt parent (height + 1) keys
    ((front ++ left :: right :: back).map Tree.ptr)
  emptied : ∃ node, after.heap right.ptr = some node ∧ node.level = height ∧ node.slotuse = 0
  ptr : merged.ptr = left.ptr
  pairs : merged.pairs = left.pairs ++ right.pairs
  formed : WellFormed bounds (bounds.least height) height merged

/-- Neighbours were balanced and the parent stores the separator between them
anew. -/
structure Shifted (before after : BTree K D) (bounds : Bounds) (height : Nat) (parent : Ptr)
    (keys : List K) (front : Forest K D) (left right : Tree K D) (back : Forest K D)
    (newLeft newRight : Tree K D) (lefts rights : List Ptr) : Prop where
  reshaped : Reshaped before after (some parent) height (front ++ left :: right :: back)
    (front ++ newLeft :: newRight :: back) 0 lefts rights
  parentAt : after.InnerAt parent (height + 1) keys
    ((front ++ newLeft :: newRight :: back).map Tree.ptr)
  matching : keys.map some = separators (front ++ newLeft :: newRight :: back)
  pairs : newLeft.pairs ++ newRight.pairs = left.pairs ++ right.pairs
  leftFormed : WellFormed bounds (bounds.least height) height newLeft
  rightFormed : WellFormed bounds (bounds.least height) height newRight

variable {tree : BTree K D} {bounds : Bounds} {height : Nat} {parent : Ptr}
  {frontKeys backKeys : List K} {key : K} {front back : Forest K D} {left right : Tree K D}
  {lefts rights : List Ptr}

/-! ## Leaves -/

private theorem shifted_of_leaves {after : BTree K D} {leftPtr rightPtr : Ptr} {newkey : K}
    {leftPairs rightPairs newLeft newRight : List (K × D)}
    (family : Family tree 0 (some parent) (frontKeys ++ key :: backKeys)
      (front ++ .leaf leftPtr leftPairs :: .leaf rightPtr rightPairs :: back) lefts rights)
    (aligned : front.length = frontKeys.length)
    (shift : LeafShift tree after leftPtr rightPtr parent newLeft newRight
      (frontKeys ++ newkey :: backKeys)
      (front.map Tree.ptr ++ leftPtr :: rightPtr :: back.map Tree.ptr))
    (pairs : newLeft ++ newRight = leftPairs ++ rightPairs) (isLast : lastKeyOf newLeft = some newkey)
    (leftSome : rightPairs ≠ []) (rightSome : newRight ≠ [])
    (leftEnough : bounds.leafMin ≤ newLeft.length) (rightEnough : bounds.leafMin ≤ newRight.length)
    (leftFits : newLeft.length ≤ bounds.leafMax) (rightFits : newRight.length ≤ bounds.leafMax) :
    Shifted tree after bounds 0 parent (frontKeys ++ newkey :: backKeys) front
      (.leaf leftPtr leftPairs) (.leaf rightPtr rightPairs) back (.leaf leftPtr newLeft)
      (.leaf rightPtr newRight) lefts rights := by
  obtain ⟨frontMatch, -, backMatch⟩ := separators_between family.matching aligned
  refine ⟨?_, by simpa using shift.parentAt, ?_, by simpa using pairs, ?_, ?_⟩
  · have same := shift.rewritten
    refine family.reshape [.leaf leftPtr leftPairs, .leaf rightPtr rightPairs]
      [.leaf leftPtr newLeft, .leaf rightPtr newRight] (same.frame.mono ?_) ?_ ⟨0, by simp⟩ ?_ ?_
      same.mRoot same.brk (by rw [same.mStats]) (by simp [same.mStats]) (by simp [same.mStats])
    · intro ptr touched
      simp only [Set.mem_insert_iff, Set.mem_singleton_iff] at touched
      rcases touched with rfl | rfl | rfl <;> simp
    · intro kid member
      simp only [List.mem_cons, List.not_mem_nil, or_false] at member
      rcases member with rfl | rfl
      · exact shift.leftAt
      · exact shift.rightAt
    · have kept := family.chained.congr (fun ptr _ => same.links ptr) same.mHeadleaf
        same.mTailleaf
      simpa using kept
    · simp
  · have samelast : (Tree.leaf rightPtr rightPairs : Tree K D).lastKey? =
        (Tree.leaf rightPtr newRight).lastKey? := by
      rw [Tree.lastKey?_eq, Tree.lastKey?_eq, Tree.pairs_leaf, Tree.pairs_leaf,
        ← lastKeyOf_append rightSome, pairs, lastKeyOf_append leftSome]
    rw [List.map_append, List.map_cons, separators_append, separators_cons_cons, frontMatch,
      backMatch, separators_congr fun _ => samelast, Tree.lastKey?_eq, Tree.pairs_leaf, isLast]
  · exact ⟨leftEnough, leftFits⟩
  · exact ⟨rightEnough, rightFits⟩

section Leaves

variable [Inhabited K] {post : Result K → BTree K D → Prop}
  (family : Family tree 0 (some parent) (frontKeys ++ key :: backKeys)
  (front ++ left :: right :: back) lefts rights)
  (leafMax : bounds.leafMax = tree.sizes.leafslotmax)

include family leafMax

theorem mergeLeaves_kids (enough : bounds.leafMin ≤ left.used + right.used)
    (fits : left.used + right.used ≤ tree.sizes.leafslotmax)
    (checked : tree.checks .fits = true → left.used + right.used < tree.sizes.leafslotmax)
    (next : ∀ after merged, Merged tree after bounds 0 parent (frontKeys ++ key :: backKeys) front
      left right back merged lefts rights → post .merged after) :
    Runs (mergeLeaves (some left.ptr) (some right.ptr) (some parent)) tree post := by
  have leftStored := family.stored left (by simp)
  have rightStored := family.stored right (by simp)
  obtain ⟨leftPtr, leftPairs, rfl⟩ := leftStored.exists_leaf
  obtain ⟨rightPtr, rightPairs, rfl⟩ := rightStored.exists_leaf
  simp only [Tree.used_leaf] at enough fits checked
  have chained : tree.Chained ((lefts ++ Forest.leaves front) ++ leftPtr :: rightPtr ::
      (Forest.leaves back ++ rights)) := by simpa using family.chained
  have distinct : ((lefts ++ Forest.leaves front) ++ leftPtr :: rightPtr ::
      (Forest.leaves back ++ rights)).Nodup := by simpa using family.distinct
  refine mergeLeaves_runs leftStored rightStored (family.parentAt parent rfl) fits checked
    chained distinct fun after merge => ?_
  refine next after (.leaf leftPtr (leftPairs ++ rightPairs)) ⟨?_, ?_, ?_, rfl, by simp, ?_⟩
  · refine family.reshape [.leaf leftPtr leftPairs, .leaf rightPtr rightPairs]
      [.leaf leftPtr (leftPairs ++ rightPairs)] (merge.frame.mono (by simp)) ?_ ?_ ?_ ?_
      merge.mRoot merge.brk (by rw [merge.mStats]) ?_ ?_
    · intro kid member
      rw [List.mem_singleton] at member
      subst member
      exact merge.merged
    · exact ⟨0, by simp⟩
    · simpa using merge.chained
    · simp
    · simp [merge.mStats]
    · simp [merge.mStats]
  · refine merge.frame.innerAt ?_ (family.parentAt parent rfl)
    have outside := family.outside parent rfl
    simp only [Forest.foot_append, Forest.foot_cons, Tree.foot_leaf, Multiset.mem_add,
      Multiset.mem_singleton, not_or] at outside
    simp [outside]
  · obtain ⟨node, found, stores⟩ := merge.emptied
    exact ⟨_, found, rfl, stores.used⟩
  · simp only [WellFormed, Bounds.least, List.length_append]
    omega

theorem shiftLeftLeaf_kids (aligned : front.length = frontKeys.length)
    (some_ : 1 ≤ left.used) (donor : left.used < right.used)
    (enough : bounds.leafMin ≤ left.used + (right.used - left.used) / 2)
    (fits : right.used ≤ tree.sizes.leafslotmax)
    (next : ∀ after keys newLeft newRight, Shifted tree after bounds 0 parent keys front left right
      back newLeft newRight lefts rights → post .ok after) :
    Runs (shiftLeftLeaf (some left.ptr) (some right.ptr) (some parent) frontKeys.length) tree
      post := by
  have leftStored := family.stored left (by simp)
  have rightStored := family.stored right (by simp)
  obtain ⟨leftPtr, leftPairs, rfl⟩ := leftStored.exists_leaf
  obtain ⟨rightPtr, rightPairs, rfl⟩ := rightStored.exists_leaf
  simp only [Tree.used_leaf] at some_ donor enough fits
  obtain ⟨moved, staying, rfl, size⟩ : ∃ moved staying, rightPairs = moved ++ staying ∧
      moved.length = (rightPairs.length - leftPairs.length) / 2 :=
    ⟨_, _, (List.take_append_drop ((rightPairs.length - leftPairs.length) / 2) _).symm, by
      simp only [List.length_take]
      omega⟩
  simp only [List.length_append] at donor enough fits size
  obtain ⟨newkey, isLast⟩ : ∃ newkey, lastKeyOf (leftPairs ++ moved) = some newkey := by
    refine exists_lastKeyOf fun empty => ?_
    simp [(List.append_eq_nil_iff.mp empty).1] at some_
  have parentAt : tree.InnerAt parent 1 (frontKeys ++ key :: backKeys)
      (front.map Tree.ptr ++ leftPtr :: rightPtr :: back.map Tree.ptr) := by
    simpa using family.parentAt parent rfl
  have chained : tree.Chained ((lefts ++ Forest.leaves front) ++ leftPtr :: rightPtr ::
      (Forest.leaves back ++ rights)) := by simpa using family.chained
  have distinct : ((lefts ++ Forest.leaves front) ++ leftPtr :: rightPtr ::
      (Forest.leaves back ++ rights)).Nodup := by simpa using family.distinct
  refine shiftLeftLeaf_runs leftStored rightStored parentAt (by simpa using aligned) chained
    distinct donor (by omega) isLast fun after shift => ?_
  have stays : 0 < staying.length := by omega
  have staysSome : staying ≠ [] := List.ne_nil_of_length_pos stays
  refine next after _ _ _ (shifted_of_leaves family aligned shift (by simp) isLast
    (List.append_ne_nil_of_right_ne_nil _ staysSome) staysSome ?_ ?_ ?_ ?_)
  all_goals
    try rw [List.length_append]
    omega

theorem shiftRightLeaf_kids (aligned : front.length = frontKeys.length)
    (some_ : 1 ≤ right.used) (donor : right.used < left.used)
    (enough : bounds.leafMin ≤ right.used + (left.used - right.used) / 2)
    (fits : left.used ≤ tree.sizes.leafslotmax)
    (next : ∀ after keys newLeft newRight, Shifted tree after bounds 0 parent keys front left right
      back newLeft newRight lefts rights → post .ok after) :
    Runs (shiftRightLeaf (some left.ptr) (some right.ptr) (some parent) frontKeys.length) tree
      post := by
  have leftStored := family.stored left (by simp)
  have rightStored := family.stored right (by simp)
  obtain ⟨leftPtr, leftPairs, rfl⟩ := leftStored.exists_leaf
  obtain ⟨rightPtr, rightPairs, rfl⟩ := rightStored.exists_leaf
  simp only [Tree.used_leaf] at some_ donor enough fits
  obtain ⟨staying, moved, rfl, size⟩ : ∃ staying moved, leftPairs = staying ++ moved ∧
      moved.length = (leftPairs.length - rightPairs.length) / 2 :=
    ⟨_, _, (List.take_append_drop (leftPairs.length -
      (leftPairs.length - rightPairs.length) / 2) _).symm, by
      simp only [List.length_drop]
      omega⟩
  simp only [List.length_append] at donor enough fits size
  have stays : 0 < staying.length := by omega
  obtain ⟨newkey, isLast⟩ := exists_lastKeyOf (List.ne_nil_of_length_pos stays)
  have parentAt : tree.InnerAt parent 1 (frontKeys ++ key :: backKeys)
      (front.map Tree.ptr ++ leftPtr :: rightPtr :: back.map Tree.ptr) := by
    simpa using family.parentAt parent rfl
  have chained : tree.Chained ((lefts ++ Forest.leaves front) ++ leftPtr :: rightPtr ::
      (Forest.leaves back ++ rights)) := by simpa using family.chained
  have distinct : ((lefts ++ Forest.leaves front) ++ leftPtr :: rightPtr ::
      (Forest.leaves back ++ rights)).Nodup := by simpa using family.distinct
  refine shiftRightLeaf_runs leftStored rightStored parentAt (by simpa using aligned) chained
    distinct donor (by omega) isLast fun after shift => ?_
  have rightSome : rightPairs ≠ [] := List.ne_nil_of_length_pos some_
  refine next after _ _ _ (shifted_of_leaves family aligned shift (by simp) isLast rightSome
    (List.append_ne_nil_of_right_ne_nil _ rightSome) ?_ ?_ ?_ ?_)
  all_goals
    try rw [List.length_append]
    omega

end Leaves

/-! ## Inner nodes -/

variable {leftPtr rightPtr : Ptr} {leftKeys rightKeys : List K} {leftKids rightKids : Forest K D}

/-- The addresses of two neighbours and of the nodes below them. -/
private theorem apart_of_family {keys : List K} (family : Family tree (height + 1) (some parent)
    keys (front ++ .inner leftPtr leftKeys leftKids :: .inner rightPtr rightKeys rightKids :: back)
    lefts rights) :
    leftPtr ≠ rightPtr ∧ parent ≠ leftPtr ∧ parent ≠ rightPtr ∧
      ∀ kid ∈ leftKids ++ rightKids, ∀ ptr ∈ kid.foot,
        ptr ∉ ({leftPtr, rightPtr, parent} : Set Ptr) := by
  have outside := family.outside parent rfl
  have nodup := family.nodup
  simp only [Forest.foot_append, Forest.foot_cons, Tree.foot_inner, Multiset.mem_add,
    Multiset.mem_cons, not_or] at outside
  simp only [Forest.foot_append, Forest.foot_cons, Tree.foot_inner, Multiset.nodup_add,
    Multiset.cons_add, Multiset.nodup_cons, Multiset.mem_add, Multiset.mem_cons, not_or] at nodup
  obtain ⟨-, ⟨⟨notLeft, leftRight, leftNotRight, -⟩, -, ⟨⟨notRight, -⟩, -⟩, disjoint⟩, -⟩ := nodup
  refine ⟨leftRight, outside.2.1.1, outside.2.2.1.1, fun kid member ptr within => ?_⟩
  have inKids : ptr ∈ Forest.foot leftKids ∨ ptr ∈ Forest.foot rightKids :=
    (List.mem_append.mp member).imp (fun inLeft => Forest.mem_foot.mpr ⟨kid, inLeft, within⟩)
      fun inRight => Forest.mem_foot.mpr ⟨kid, inRight, within⟩
  rintro (rfl | rfl | rfl)
  · exact inKids.elim notLeft leftNotRight
  · refine inKids.elim (fun inLeft => ?_) notRight
    exact Multiset.disjoint_left.mp disjoint inLeft (by simp)
  · exact inKids.elim outside.2.1.2 outside.2.2.1.2

private theorem shifted_of_inner {after : BTree K D} {newkey : K} {newLeftKeys newRightKeys : List K}
    {newLeft newRight : Forest K D}
    (family : Family tree (height + 1) (some parent) (frontKeys ++ key :: backKeys)
      (front ++ .inner leftPtr leftKeys leftKids :: .inner rightPtr rightKeys rightKids :: back)
      lefts rights)
    (aligned : front.length = frontKeys.length)
    (shift : InnerShift tree after leftPtr rightPtr parent (height + 1) newLeftKeys
      (newLeft.map Tree.ptr) newRightKeys (newRight.map Tree.ptr) (frontKeys ++ newkey :: backKeys)
      (front.map Tree.ptr ++ leftPtr :: rightPtr :: back.map Tree.ptr))
    (kids : newLeft ++ newRight = leftKids ++ rightKids)
    (isLast : (Tree.inner leftPtr newLeftKeys newLeft).lastKey? = some newkey)
    (leftSome : Forest.pairs rightKids ≠ []) (rightSome : Forest.pairs newRight ≠ [])
    (leftFormed : WellFormed bounds bounds.innerMin (height + 1)
      (.inner leftPtr newLeftKeys newLeft))
    (rightFormed : WellFormed bounds bounds.innerMin (height + 1)
      (.inner rightPtr newRightKeys newRight)) :
    Shifted tree after bounds (height + 1) parent (frontKeys ++ newkey :: backKeys) front
      (.inner leftPtr leftKeys leftKids) (.inner rightPtr rightKeys rightKids) back
      (.inner leftPtr newLeftKeys newLeft) (.inner rightPtr newRightKeys newRight) lefts rights := by
  obtain ⟨frontMatch, -, backMatch⟩ := separators_between family.matching aligned
  obtain ⟨-, -, -, apart⟩ := apart_of_family family
  have pairs : Forest.pairs newLeft ++ Forest.pairs newRight =
      Forest.pairs leftKids ++ Forest.pairs rightKids := by
    rw [← Forest.pairs_append, ← Forest.pairs_append, kids]
  have leaves : Forest.leaves newLeft ++ Forest.leaves newRight =
      Forest.leaves leftKids ++ Forest.leaves rightKids := by
    rw [← Forest.leaves_append, ← Forest.leaves_append, kids]
  have foot : Forest.foot newLeft + Forest.foot newRight =
      Forest.foot leftKids + Forest.foot rightKids := by
    rw [← Forest.foot_append, ← Forest.foot_append, kids]
  have count : Forest.innerCount newLeft + Forest.innerCount newRight =
      Forest.innerCount leftKids + Forest.innerCount rightKids := by
    rw [← Forest.innerCount_append, ← Forest.innerCount_append, kids]
  have same := shift.rewritten
  have kidStored : ∀ kid ∈ leftKids ++ rightKids, after.Represents height kid := by
    intro kid member
    refine same.frame.represents (apart kid member) ?_
    rcases List.mem_append.mp member with inLeft | inRight
    · exact (family.stored _ (List.mem_append_right _ List.mem_cons_self)).2 kid inLeft
    · exact (family.stored _ (List.mem_append_right _ (List.mem_cons_of_mem _
        List.mem_cons_self))).2 kid inRight
  refine ⟨?_, by simpa using shift.parentAt, ?_, by simpa using pairs, leftFormed, rightFormed⟩
  · refine family.reshape
      [.inner leftPtr leftKeys leftKids, .inner rightPtr rightKeys rightKids]
      [.inner leftPtr newLeftKeys newLeft, .inner rightPtr newRightKeys newRight]
      (same.frame.mono ?_) ?_ ⟨0, ?_, by simp⟩ ?_ ?_ same.mRoot same.brk (by rw [same.mStats]) ?_ ?_
    · intro ptr touched
      simp only [Set.mem_insert_iff, Set.mem_singleton_iff] at touched
      rcases touched with rfl | rfl | rfl <;> simp
    · intro kid member
      simp only [List.mem_cons, List.not_mem_nil, or_false] at member
      rw [← kids] at kidStored
      rcases member with rfl | rfl
      · exact ⟨shift.leftAt, fun kid inLeft => kidStored kid (List.mem_append_left _ inLeft)⟩
      · exact ⟨shift.rightAt, fun kid inRight => kidStored kid (List.mem_append_right _ inRight)⟩
    · simp only [Forest.foot_cons, Forest.foot_nil, Tree.foot_inner, ← Multiset.singleton_add,
        add_zero]
      calc {leftPtr} + Forest.foot leftKids + ({rightPtr} + Forest.foot rightKids)
          = {leftPtr} + {rightPtr} + (Forest.foot leftKids + Forest.foot rightKids) := by abel
        _ = {leftPtr} + {rightPtr} + (Forest.foot newLeft + Forest.foot newRight) := by rw [foot]
        _ = {leftPtr} + Forest.foot newLeft + ({rightPtr} + Forest.foot newRight) := by abel
    · have kept := family.chained.congr (fun ptr _ => same.links ptr) same.mHeadleaf
        same.mTailleaf
      have regroup : Forest.leaves newLeft ++ (Forest.leaves newRight ++
            (Forest.leaves back ++ rights)) =
          Forest.leaves leftKids ++ (Forest.leaves rightKids ++
            (Forest.leaves back ++ rights)) := by
        rw [← List.append_assoc, leaves, List.append_assoc]
      simpa [regroup] using kept
    · simp [leaves]
    · have total := congrArg List.length leaves
      simp only [List.length_append] at total
      simp [same.mStats, total]
    · simp only [Forest.innerCount_cons, Forest.innerCount_nil, Tree.innerCount_inner, same.mStats,
        Multiset.card_zero, ite_self]
      omega
  · have samelast : (Tree.inner rightPtr rightKeys rightKids).lastKey? =
        (Tree.inner rightPtr newRightKeys newRight).lastKey? := by
      rw [Tree.lastKey?_eq, Tree.lastKey?_eq, Tree.pairs_inner, Tree.pairs_inner,
        ← lastKeyOf_append rightSome, pairs, lastKeyOf_append leftSome]
    rw [List.map_append, List.map_cons, separators_append, separators_cons_cons, frontMatch,
      backMatch, separators_congr fun _ => samelast, isLast]

private theorem exists_last_kid {least : Nat} {ptr : Ptr} {keys : List K} {kids : Forest K D}
    (positive : 1 ≤ bounds.leafMin)
    (formed : WellFormed bounds least (height + 1) (.inner ptr keys kids)) :
    ∃ before last, kids = before ++ [last] ∧ last.pairs ≠ [] ∧
      (Tree.inner ptr keys kids).lastKey? = last.lastKey? := by
  obtain ⟨-, -, count, -, below⟩ := formed
  obtain ⟨before, last, rfl⟩ : ∃ before last, kids = before ++ [last] :=
    (List.eq_nil_or_concat' kids).resolve_left (by rintro rfl; simp at count)
  have nonempty : last.pairs ≠ [] := (below last (by simp)).pairs_ne_nil positive
  exact ⟨before, last, rfl, nonempty, lastKey?_inner nonempty⟩

private theorem pairs_ne_nil_of_kids {kids : Forest K D} (positive : 1 ≤ bounds.leafMin)
    (below : ∀ kid ∈ kids, WellFormed bounds (bounds.least height) height kid)
    (nonempty : kids ≠ []) : Forest.pairs kids ≠ [] := by
  obtain ⟨first, rest, rfl⟩ := List.exists_cons_of_ne_nil nonempty
  simp [(below first (by simp)).pairs_ne_nil positive]

section Inner

variable [Inhabited K] {post : Result K → BTree K D → Prop} {leftLeast rightLeast : Nat}
  (family : Family tree (height + 1) (some parent) (frontKeys ++ key :: backKeys)
    (front ++ left :: right :: back) lefts rights) (aligned : front.length = frontKeys.length)
  (innerMax : bounds.innerMax = tree.sizes.innerslotmax)
  (inRange : tree.sizes.innerslotmax + 1 < 2 ^ 32) (positive : 1 ≤ bounds.leafMin)
  (leftFormed : WellFormed bounds leftLeast (height + 1) left)
  (rightFormed : WellFormed bounds rightLeast (height + 1) right)

include family aligned innerMax inRange positive leftFormed rightFormed

theorem mergeInner_kids (enough : bounds.innerMin ≤ left.used + right.used + 1)
    (fits : left.used + right.used < tree.sizes.innerslotmax)
    (next : ∀ after merged, Merged tree after bounds (height + 1) parent
      (frontKeys ++ key :: backKeys) front left right back merged lefts rights →
      post .merged after) :
    Runs (mergeInner (some left.ptr) (some right.ptr) (some parent) frontKeys.length) tree post := by
  have leftStored := family.stored left (by simp)
  have rightStored := family.stored right (by simp)
  obtain ⟨leftPtr, leftKeys, leftKids, rfl⟩ := leftStored.exists_inner
  obtain ⟨rightPtr, rightKeys, rightKids, rfl⟩ := rightStored.exists_inner
  simp only [Tree.used_inner] at enough fits
  obtain ⟨apart, -, -, below⟩ := apart_of_family family
  obtain ⟨before, last, rfl, -, sameLast⟩ := exists_last_kid positive leftFormed
  obtain ⟨-, -, leftCount, leftMatch, leftBelow⟩ := leftFormed
  obtain ⟨-, -, rightCount, rightMatch, rightBelow⟩ := rightFormed
  obtain ⟨-, isKey, -⟩ := separators_between family.matching aligned
  have rightSome : rightKids ≠ [] := by
    rintro rfl
    simp at rightCount
  have parentAt : tree.InnerAt parent (height + 1 + 1) (frontKeys ++ key :: backKeys)
      (front.map Tree.ptr ++ leftPtr :: rightPtr :: back.map Tree.ptr) := by
    simpa using family.parentAt parent rfl
  refine mergeInner_runs inRange leftStored.1 rightStored.1 parentAt (by simpa using aligned) apart
    fits fun after merge => ?_
  have same := merge.rewritten
  have kidStored : ∀ kid ∈ before ++ [last] ++ rightKids, after.Represents height kid := by
    intro kid member
    refine same.frame.represents (fun ptr within touched => ?_) ?_
    · exact below kid member ptr within (by rcases touched with rfl | rfl <;> simp)
    · exact (List.mem_append.mp member).elim (leftStored.2 kid) (rightStored.2 kid)
  refine next after (.inner leftPtr (leftKeys ++ key :: rightKeys) (before ++ [last] ++ rightKids))
    ⟨?_, ?_, ?_, rfl, by simp, ?_⟩
  · refine family.reshape
      [.inner leftPtr leftKeys (before ++ [last]), .inner rightPtr rightKeys rightKids]
      [.inner leftPtr (leftKeys ++ key :: rightKeys) (before ++ [last] ++ rightKids)]
      (same.frame.mono (by simp)) ?_ ⟨0, ?_, by simp⟩ ?_ ?_ same.mRoot same.brk
      (by rw [same.mStats]) ?_ ?_
    · intro kid member
      rw [List.mem_singleton] at member
      subst member
      exact ⟨by simpa using merge.merged, kidStored⟩
    · simp only [Forest.foot_cons, Forest.foot_nil, Tree.foot_inner, Forest.foot_append,
        Tree.ptr_inner, ← Multiset.singleton_add, add_zero]
      abel
    · have kept := family.chained.congr (fun ptr _ => same.links ptr) same.mHeadleaf
        same.mTailleaf
      simpa using kept
    · simp
    · simp [same.mStats]
    · simp only [Forest.innerCount_cons, Forest.innerCount_nil, Tree.innerCount_inner,
        Forest.innerCount_append, same.mStats, Multiset.card_singleton, Nat.add_eq_zero_iff,
        one_ne_zero, and_false, ↓reduceIte]
      omega
  · refine same.frame.innerAt ?_ (family.parentAt parent rfl)
    have outside := family.outside parent rfl
    simp only [Forest.foot_append, Forest.foot_cons, Tree.foot_inner, Multiset.mem_add,
      Multiset.mem_cons, not_or] at outside
    simp [outside]
  · obtain ⟨node, found, isLevel, isEmpty⟩ := merge.emptied
    exact ⟨_, found, isLevel, isEmpty⟩
  · refine ⟨?_, ?_, ?_, separators_join leftMatch (sameLast.symm.trans isKey) rightMatch rightSome,
      ?_⟩
    · simp only [Bounds.least, List.length_append, List.length_cons]
      omega
    · simp only [List.length_append, List.length_cons]
      omega
    · simp only [List.length_append, List.length_cons] at leftCount ⊢
      omega
    · intro kid member
      exact (List.mem_append.mp member).elim (leftBelow kid) (rightBelow kid)

theorem shiftLeftInner_kids (donor : left.used + 1 < right.used)
    (enough : bounds.innerMin ≤ left.used + (right.used - left.used) / 2)
    (next : ∀ after keys newLeft newRight, Shifted tree after bounds (height + 1) parent keys front
      left right back newLeft newRight lefts rights → post .ok after) :
    Runs (shiftLeftInner (some left.ptr) (some right.ptr) (some parent) frontKeys.length) tree
      post := by
  have leftStored := family.stored left (by simp)
  have rightStored := family.stored right (by simp)
  obtain ⟨leftPtr, leftKeys, leftKids, rfl⟩ := leftStored.exists_inner
  obtain ⟨rightPtr, rightKeys, rightKids, rfl⟩ := rightStored.exists_inner
  simp only [Tree.used_inner] at donor enough
  obtain ⟨apart, -, -, -⟩ := apart_of_family family
  obtain ⟨before, last, rfl, -, sameLast⟩ := exists_last_kid positive leftFormed
  obtain ⟨-, leftFits, leftCount, leftMatch, leftBelow⟩ := leftFormed
  obtain ⟨-, rightFits, rightCount, rightMatch, rightBelow⟩ := rightFormed
  obtain ⟨-, isKey, -⟩ := separators_between family.matching aligned
  have parentAt : tree.InnerAt parent (height + 1 + 1) (frontKeys ++ key :: backKeys)
      (front.map Tree.ptr ++ leftPtr :: rightPtr :: back.map Tree.ptr) := by
    simpa using family.parentAt parent rfl
  -- the children that move and the separator behind them
  have bound : (rightKeys.length - leftKeys.length) / 2 - 1 < rightKeys.length := by omega
  obtain ⟨movedKeys, risen, stayingKeys, rfl, size⟩ := exists_split_at rightKeys bound
  simp only [List.length_append, List.length_cons] at donor enough rightFits rightCount size
  obtain ⟨movedKids, stayingKids, rfl, kidSize⟩ : ∃ moved staying, rightKids = moved ++ staying ∧
      moved.length = movedKeys.length + 1 :=
    ⟨_, _, (List.take_append_drop (movedKeys.length + 1) rightKids).symm, by
      simp only [List.length_take]
      omega⟩
  rw [List.length_append] at rightCount
  have stayingSome : stayingKids ≠ [] := by
    rintro rfl
    simp at rightCount
    omega
  have movedSome : movedKids ≠ [] := by
    rintro rfl
    simp at kidSize
  obtain ⟨lower, final, rfl, isRisen, movedMatch, stayingMatch⟩ :=
    separators_halves rightMatch kidSize stayingSome
  have finalFormed := rightBelow final (by simp)
  have rightAt := rightStored.1
  rw [List.map_append] at rightAt
  refine shiftLeftInner_runs inRange leftStored.1 rightAt parentAt (by simpa using aligned) apart
    (by rw [List.length_map, kidSize]) (by omega) (by omega) fun after shift => ?_
  rw [← List.map_append] at shift
  refine next after _ _ _ (shifted_of_inner family aligned shift ?_ ?_ ?_ ?_ ?_ ?_)
  · rw [List.append_assoc]
  · rw [← List.append_assoc, lastKey?_inner (finalFormed.pairs_ne_nil positive), isRisen]
  · exact pairs_ne_nil_of_kids positive rightBelow (by simp)
  · exact pairs_ne_nil_of_kids positive
      (fun kid member => rightBelow kid (List.mem_append_right _ member)) stayingSome
  · refine ⟨?_, ?_, ?_, separators_join leftMatch (sameLast.symm.trans isKey) movedMatch movedSome,
      ?_⟩
    · simp only [List.length_append, List.length_cons]
      omega
    · simp only [List.length_append, List.length_cons]
      omega
    · rw [List.length_append, leftCount, kidSize, List.length_append, List.length_cons]
      omega
    · intro kid member
      exact (List.mem_append.mp member).elim (leftBelow kid) fun moved =>
        rightBelow kid (List.mem_append_left _ moved)
  · refine ⟨?_, by omega, ?_, stayingMatch, fun kid member =>
      rightBelow kid (List.mem_append_right _ member)⟩
    · omega
    · omega

theorem shiftRightInner_kids (donor : right.used + 1 < left.used)
    (enough : bounds.innerMin ≤ right.used + (left.used - right.used) / 2)
    (next : ∀ after keys newLeft newRight, Shifted tree after bounds (height + 1) parent keys front
      left right back newLeft newRight lefts rights → post .ok after) :
    Runs (shiftRightInner (some left.ptr) (some right.ptr) (some parent) frontKeys.length) tree
      post := by
  have leftStored := family.stored left (by simp)
  have rightStored := family.stored right (by simp)
  obtain ⟨leftPtr, leftKeys, leftKids, rfl⟩ := leftStored.exists_inner
  obtain ⟨rightPtr, rightKeys, rightKids, rfl⟩ := rightStored.exists_inner
  simp only [Tree.used_inner] at donor enough
  obtain ⟨apart, -, -, -⟩ := apart_of_family family
  obtain ⟨-, leftFits, leftCount, leftMatch, leftBelow⟩ := leftFormed
  obtain ⟨-, rightFits, rightCount, rightMatch, rightBelow⟩ := rightFormed
  obtain ⟨-, isKey, -⟩ := separators_between family.matching aligned
  have parentAt : tree.InnerAt parent (height + 1 + 1) (frontKeys ++ key :: backKeys)
      (front.map Tree.ptr ++ leftPtr :: rightPtr :: back.map Tree.ptr) := by
    simpa using family.parentAt parent rfl
  have rightSome : rightKids ≠ [] := by
    rintro rfl
    simp at rightCount
  -- the children that move and the separator before them
  have bound : leftKeys.length - (leftKeys.length - rightKeys.length) / 2 < leftKeys.length := by
    omega
  obtain ⟨stayingKeys, risen, movedKeys, rfl, size⟩ := exists_split_at leftKeys bound
  simp only [List.length_append, List.length_cons] at donor enough leftFits leftCount size
  obtain ⟨stayingKids, movedKids, rfl, kidSize⟩ : ∃ staying moved, leftKids = staying ++ moved ∧
      staying.length = stayingKeys.length + 1 :=
    ⟨_, _, (List.take_append_drop (stayingKeys.length + 1) leftKids).symm, by
      simp only [List.length_take]
      omega⟩
  rw [List.length_append] at leftCount
  have movedSome : movedKids ≠ [] := by
    rintro rfl
    simp at leftCount
    omega
  obtain ⟨before, final, rfl, isRisen, stayingMatch, movedMatch⟩ :=
    separators_halves leftMatch kidSize movedSome
  have finalFormed := leftBelow final (by simp)
  obtain ⟨between, last, rfl⟩ : ∃ between last, movedKids = between ++ [last] :=
    (List.eq_nil_or_concat' movedKids).resolve_left movedSome
  have lastFormed := leftBelow last (by simp)
  rw [← List.append_assoc, lastKey?_inner (lastFormed.pairs_ne_nil positive)] at isKey
  have leftAt := leftStored.1
  rw [List.map_append] at leftAt
  refine shiftRightInner_runs inRange leftAt rightStored.1 parentAt (by simpa using aligned) apart
    (by rw [List.length_map]; omega) (by omega) (by omega) fun after shift => ?_
  rw [← List.map_append] at shift
  refine next after _ _ _ (shifted_of_inner family aligned shift ?_ ?_ ?_ ?_ ?_ ?_)
  · simp only [List.append_assoc]
  · rw [lastKey?_inner (finalFormed.pairs_ne_nil positive), isRisen]
  · exact pairs_ne_nil_of_kids positive rightBelow rightSome
  · rw [Forest.pairs_append]
    exact List.append_ne_nil_of_right_ne_nil _ (pairs_ne_nil_of_kids positive rightBelow rightSome)
  · refine ⟨?_, by omega, kidSize, stayingMatch, fun kid member =>
      leftBelow kid (List.mem_append_left _ member)⟩
    omega
  · refine ⟨?_, ?_, ?_, separators_join movedMatch isKey rightMatch rightSome, ?_⟩
    · simp only [List.length_append, List.length_cons]
      omega
    · simp only [List.length_append, List.length_cons]
      omega
    · simp only [List.length_append, List.length_cons] at kidSize leftCount ⊢
      omega
    · intro kid member
      exact (List.mem_append.mp member).elim
        (fun moved => leftBelow kid (List.mem_append_right _ moved)) (rightBelow kid)

end Inner

end PersistentBTree.Memory
