import PersistentBTree.Memory.Removal

/-! The choice between merging and shifting always falls on a neighbour with the
same parent. -/

set_option autoImplicit false

namespace PersistentBTree.Memory

open Imperative Multimap

variable {K D : Type}

/-! ## Fill tests -/

section Fill

variable {tree : BTree K D} {height : Nat} {sub : Tree K D}

theorem BTree.Represents.runs_isFew (stored : tree.Represents height sub)
    {post : Bool → BTree K D → Prop} :
    Runs (isFew sub.ptr) tree post ↔ post (decide (sub.used ≤ tree.sizes.few height)) tree := by
  obtain ⟨node, found, isLevel, used⟩ := stored.exists_node
  cases height with
  | zero =>
      simp only [isFew, runs_bind, runs_getNode, found, Option.some.injEq, exists_eq_left',
        runs_get, isLevel, ↓reduceIte, runs_pure, used]
      exact Iff.rfl
  | succ height =>
      simp only [isFew, runs_bind, runs_getNode, found, Option.some.injEq, exists_eq_left',
        runs_get, isLevel, Nat.add_eq_zero_iff, one_ne_zero, and_false, ↓reduceIte, runs_pure, used]
      exact Iff.rfl

theorem BTree.Represents.runs_needsFix (stored : tree.Represents height sub)
    {post : Bool → BTree K D → Prop} :
    Runs (needsFix sub.ptr) tree post ↔
      post (decide (sub.used < tree.sizes.mininnerslots) &&
        !(decide (tree.mRoot = some sub.ptr) && decide (1 ≤ sub.used))) tree := by
  obtain ⟨node, found, isLevel, used⟩ := stored.exists_node
  simp [needsFix, isUnderflow, slotuse, found, used]

end Fill

/-- What the fill tests say about a neighbour that may be missing: whether it
has few slots in use. -/
private structure Graded (tree : BTree K D) (neighbour : Option Ptr) (grade : Option Bool) :
    Prop where
  nullOrFew : ∀ {post : Bool → BTree K D → Prop},
    Runs (nullOrFew neighbour) tree post ↔ post (grade.getD true) tree
  presentAndFew : ∀ {post : Bool → BTree K D → Prop},
    Runs (presentAndFew neighbour) tree post ↔ post (grade.getD false) tree
  presentAndRich : ∀ {post : Bool → BTree K D → Prop},
    Runs (presentAndRich neighbour) tree post ↔ post ((grade.map not).getD false) tree

private theorem Graded.missing (tree : BTree K D) : Graded tree none none where
  nullOrFew := by simp [PersistentBTree.Memory.nullOrFew]
  presentAndFew := by simp [PersistentBTree.Memory.presentAndFew]
  presentAndRich := by simp [PersistentBTree.Memory.presentAndRich]

private theorem Graded.of_stored {tree : BTree K D} {height : Nat} {other : Tree K D}
    (stored : tree.Represents height other) :
    Graded tree (some other.ptr) (some (decide (other.used ≤ tree.sizes.few height))) where
  nullOrFew := by simp [PersistentBTree.Memory.nullOrFew, stored.runs_isFew]
  presentAndFew := by simp [PersistentBTree.Memory.presentAndFew, stored.runs_isFew]
  presentAndRich := by simp [PersistentBTree.Memory.presentAndRich, stored.runs_isFew]

private theorem Outside.exists_grade {tree : BTree K D} {bounds : Bounds} {height : Nat}
    {avoid : Multiset Ptr} {neighbour neighbourParent : Option Ptr}
    (outside : Outside tree bounds height avoid neighbour neighbourParent) :
    ∃ grade, Graded tree neighbour grade := by
  cases neighbour with
  | none => exact ⟨none, .missing tree⟩
  | some ptr =>
      obtain ⟨other, rfl, stored, -⟩ := outside.stored ptr rfl
      exact ⟨_, .of_stored stored⟩

/-- Whatever is merged or balanced with the child are neighbours in its parent:
a merge takes one with few slots in use, a shift one with more. -/
theorem fixUnderflow_runs {tree : BTree K D} {bounds : Bounds} {height : Nat} {parent : Ptr}
    {front back : Forest K D} {sub : Tree K D} {left right leftparent rightparent : Option Ptr}
    {mergeLeft mergeRight shiftLeft shiftRight : M K D (Result K)}
    {post : Result K → BTree K D → Prop}
    (below : Below tree bounds height parent front sub back left right leftparent rightparent)
    (stored : ∀ kid ∈ front ++ sub :: back, tree.Represents height kid)
    (mergeLeftRuns : ∀ before sibling, front = before ++ [sibling] → left = some sibling.ptr →
      leftparent = some parent → sibling.used ≤ tree.sizes.few height → Runs mergeLeft tree post)
    (mergeRightRuns : ∀ sibling rest, back = sibling :: rest → right = some sibling.ptr →
      rightparent = some parent → sibling.used ≤ tree.sizes.few height → Runs mergeRight tree post)
    (shiftLeftRuns : ∀ sibling rest, back = sibling :: rest → right = some sibling.ptr →
      rightparent = some parent → tree.sizes.few height < sibling.used → Runs shiftLeft tree post)
    (shiftRightRuns : ∀ before sibling, front = before ++ [sibling] → left = some sibling.ptr →
      leftparent = some parent → tree.sizes.few height < sibling.used →
      Runs shiftRight tree post) :
    Runs (fixUnderflow left right leftparent rightparent (some parent) mergeLeft mergeRight
      shiftLeft shiftRight) tree post := by
  have several := below.several
  have leftSide := below.leftSide
  have rightSide := below.rightSide
  rcases List.eq_nil_or_concat' front with rfl | ⟨before, leftSub, rfl⟩
  · obtain ⟨rightSub, rest, rfl⟩ := List.exists_cons_of_ne_nil (several.resolve_left (by simp))
    obtain ⟨rfl, rfl⟩ := rightSide
    obtain ⟨grade, graded⟩ := Outside.exists_grade leftSide
    have rightGraded := Graded.of_stored (stored rightSub (by simp))
    have notParent : leftparent ≠ some parent := fun same =>
      leftSide.parent parent same (Multiset.mem_cons_self _ _)
    simp only [fixUnderflow, runs_bind, graded.nullOrFew, graded.presentAndFew,
      graded.presentAndRich, rightGraded.nullOrFew, rightGraded.presentAndFew,
      rightGraded.presentAndRich, runs_ite, notParent, ↓reduceIte]
    by_cases few : rightSub.used ≤ tree.sizes.few height
    · have merges := mergeRightRuns rightSub rest rfl rfl rfl few
      rcases grade with - | - | - <;> simp [few, merges]
    · have shifts := shiftLeftRuns rightSub rest rfl rfl rfl (Nat.lt_of_not_le few)
      rcases grade with - | - | - <;> simp [few, shifts]
  · obtain ⟨rfl, rfl⟩ : left = some leftSub.ptr ∧ leftparent = some parent := by
      simpa [Beside] using leftSide
    have leftGraded := Graded.of_stored (stored leftSub (by simp))
    cases back with
    | nil =>
        obtain ⟨grade, graded⟩ := Outside.exists_grade rightSide
        have notParent : rightparent ≠ some parent := fun same =>
          rightSide.parent parent same (Multiset.mem_cons_self _ _)
        simp only [fixUnderflow, runs_bind, graded.nullOrFew, graded.presentAndFew,
          graded.presentAndRich, leftGraded.nullOrFew, leftGraded.presentAndFew,
          leftGraded.presentAndRich, runs_ite, notParent, Ne.symm notParent, ↓reduceIte]
        by_cases few : leftSub.used ≤ tree.sizes.few height
        · have merges := mergeLeftRuns before leftSub rfl rfl rfl few
          rcases grade with - | - | - <;> simp [few, merges]
        · have shifts := shiftRightRuns before leftSub rfl rfl rfl (Nat.lt_of_not_le few)
          rcases grade with - | - | - <;> simp [few, shifts]
    | cons rightSub rest =>
        obtain ⟨rfl, rfl⟩ := rightSide
        have rightStored := stored rightSub (by simp)
        have rightGraded := Graded.of_stored rightStored
        simp only [fixUnderflow, runs_bind, leftGraded.nullOrFew, leftGraded.presentAndFew,
          leftGraded.presentAndRich, rightGraded.nullOrFew, rightGraded.presentAndFew,
          rightGraded.presentAndRich, runs_ite, ↓reduceIte]
        by_cases leftFew : leftSub.used ≤ tree.sizes.few height
        · by_cases rightFew : rightSub.used ≤ tree.sizes.few height
          · have merges := mergeLeftRuns before leftSub rfl rfl rfl leftFew
            simp [leftFew, rightFew, merges]
          · have shifts := shiftLeftRuns rightSub rest rfl rfl rfl (Nat.lt_of_not_le rightFew)
            simp [leftFew, rightFew, shifts]
        · have shiftsRight := shiftRightRuns before leftSub rfl rfl rfl (Nat.lt_of_not_le leftFew)
          by_cases rightFew : rightSub.used ≤ tree.sizes.few height
          · simp [leftFew, rightFew, shiftsRight]
          · have shiftsLeft := shiftLeftRuns rightSub rest rfl rfl rfl (Nat.lt_of_not_le rightFew)
            simp only [leftFew, rightFew, decide_false, Option.getD_some, Bool.and_self,
              Bool.false_eq_true, Bool.false_and, Option.map_some, Bool.not_false, Bool.and_false,
              ↓reduceIte, runs_nonNull, Option.some.injEq, exists_eq_left',
              (stored leftSub (by simp)).runs_slotuse, rightStored.runs_slotuse]
            split
            · exact shiftsLeft
            · exact shiftsRight

/-! ## The merge and shift helpers at work -/

/-- The merge and the two shifts do their work on neighbours that use this many
slots. -/
structure Mends (tree : BTree K D) (bounds : Bounds) (height : Nat)
    (merge shiftLeft shiftRight : (left right parent : Option Ptr) → (parentslot : Nat) →
      M K D (Result K)) [Inhabited K] : Prop where
  merge : ∀ {parent : Ptr} {frontKeys backKeys : List K} {key : K} {front back : Forest K D}
    {left right : Tree K D} {lefts rights : List Ptr} {post : Result K → BTree K D → Prop},
    Family tree height (some parent) (frontKeys ++ key :: backKeys)
      (front ++ left :: right :: back) lefts rights → front.length = frontKeys.length →
    WellFormed bounds left.used height left → WellFormed bounds right.used height right →
    bounds.least height ≤ left.used + right.used →
    left.used + right.used < tree.sizes.mininnerslots + tree.sizes.few height →
    (∀ after merged, Merged tree after bounds height parent (frontKeys ++ key :: backKeys) front
      left right back merged lefts rights → post .merged after) →
    Runs (merge (some left.ptr) (some right.ptr) (some parent) frontKeys.length) tree post
  shiftLeft : ∀ {parent : Ptr} {frontKeys backKeys : List K} {key : K} {front back : Forest K D}
    {left right : Tree K D} {lefts rights : List Ptr} {post : Result K → BTree K D → Prop},
    Family tree height (some parent) (frontKeys ++ key :: backKeys)
      (front ++ left :: right :: back) lefts rights → front.length = frontKeys.length →
    WellFormed bounds left.used height left → WellFormed bounds right.used height right →
    bounds.least height ≤ left.used + 1 → left.used < tree.sizes.mininnerslots →
    tree.sizes.few height < right.used →
    (∀ after keys newLeft newRight, Shifted tree after bounds height parent keys front left right
      back newLeft newRight lefts rights → post .ok after) →
    Runs (shiftLeft (some left.ptr) (some right.ptr) (some parent) frontKeys.length) tree post
  shiftRight : ∀ {parent : Ptr} {frontKeys backKeys : List K} {key : K} {front back : Forest K D}
    {left right : Tree K D} {lefts rights : List Ptr} {post : Result K → BTree K D → Prop},
    Family tree height (some parent) (frontKeys ++ key :: backKeys)
      (front ++ left :: right :: back) lefts rights → front.length = frontKeys.length →
    WellFormed bounds left.used height left → WellFormed bounds right.used height right →
    bounds.least height ≤ right.used + 1 → right.used < tree.sizes.mininnerslots →
    tree.sizes.few height < left.used →
    (∀ after keys newLeft newRight, Shifted tree after bounds height parent keys front left right
      back newLeft newRight lefts rights → post .ok after) →
    Runs (shiftRight (some left.ptr) (some right.ptr) (some parent) frontKeys.length) tree post

section Instances

variable [Inhabited K] {tree : BTree K D} {bounds : Bounds}

theorem mends_leaves (erases : bounds.Erases tree.sizes tree.checks) :
    Mends tree bounds 0 (fun left right parent _ => mergeLeaves left right parent) shiftLeftLeaf
      shiftRightLeaf := by
  have leafMin := erases.leafMin
  have leafHalf := erases.leafHalf
  have leafSome := erases.leafSome
  have innerSome := erases.innerSome
  have close := erases.close
  have leafMax := erases.leafMax
  refine ⟨?_, ?_, ?_⟩
  · intro parent frontKeys backKeys key front back left right lefts rights post family _ _ _
      enough small next
    simp only [Bounds.least, NodeSizes.few] at enough small
    refine mergeLeaves_kids family leafMax enough (by omega) (fun enabled => ?_) next
    have least := erases.checked enabled
    omega
  · intro parent frontKeys backKeys key front back left right lefts rights post family aligned _
      rightFormed enough small rich next
    have rightFits := rightFormed.used_le
    simp only [Bounds.least, Bounds.greatest, NodeSizes.few] at enough rich rightFits
    exact shiftLeftLeaf_kids family leafMax aligned (by omega) (by omega) (by omega) (by omega) next
  · intro parent frontKeys backKeys key front back left right lefts rights post family aligned
      leftFormed _ enough small rich next
    have leftFits := leftFormed.used_le
    simp only [Bounds.least, Bounds.greatest, NodeSizes.few] at enough rich leftFits
    exact shiftRightLeaf_kids family leafMax aligned (by omega) (by omega) (by omega) (by omega)
      next

theorem mends_inner (erases : bounds.Erases tree.sizes tree.checks) (height : Nat) :
    Mends tree bounds (height + 1) mergeInner shiftLeftInner shiftRightInner := by
  have innerMin := erases.innerMin
  have innerHalf := erases.innerHalf
  have innerSome := erases.innerSome
  have innerMax := erases.innerMax
  have positive := erases.positive
  refine ⟨?_, ?_, ?_⟩
  · intro parent frontKeys backKeys key front back left right lefts rights post family aligned
      leftFormed rightFormed enough small next
    simp only [Bounds.least, NodeSizes.few] at enough small
    have inRange := (family.stored left (by simp)).inRange erases.isUnsigned
    exact mergeInner_kids family aligned innerMax inRange positive leftFormed rightFormed
      (by omega) (by omega) next
  · intro parent frontKeys backKeys key front back left right lefts rights post family aligned
      leftFormed rightFormed enough small rich next
    simp only [Bounds.least, NodeSizes.few] at enough rich
    have inRange := (family.stored left (by simp)).inRange erases.isUnsigned
    exact shiftLeftInner_kids family aligned innerMax inRange positive leftFormed rightFormed
      (by omega) (by omega) next
  · intro parent frontKeys backKeys key front back left right lefts rights post family aligned
      leftFormed rightFormed enough small rich next
    simp only [Bounds.least, NodeSizes.few] at enough rich
    have inRange := (family.stored left (by simp)).inRange erases.isUnsigned
    exact shiftRightInner_kids family aligned innerMax inRange positive leftFormed rightFormed
      (by omega) (by omega) next

end Instances

/-! ## Mending a child -/

section Children

variable {before middle after : BTree K D} {bounds : Bounds} {height : Nat} {parent : Ptr}
  {front back : Forest K D} {old new : Tree K D} {left right leftparent rightparent : Option Ptr}
  {lefts rights : List Ptr}

private theorem Reshaped.foot_le_of_kid
    (reshaped : Reshaped before after (some parent) height (front ++ old :: back)
      (front ++ new :: back) 0 lefts rights) : new.foot ≤ old.foot := by
  have le := reshaped.foot_le
  simpa only [Forest.foot_append, Forest.foot_cons, add_le_add_iff_left,
    add_le_add_iff_right] using le

private theorem Beside.reshaped {near : Option (Tree K D)} {neighbour neighbourParent : Option Ptr}
    (beside : Beside before bounds height parent (Forest.foot (front ++ old :: back)) neighbour
      neighbourParent near)
    (reshaped : Reshaped before after (some parent) height (front ++ old :: back)
      (front ++ new :: back) 0 lefts rights) :
    Beside after bounds height parent (Forest.foot (front ++ new :: back)) neighbour
      neighbourParent near := by
  cases near with
  | some sibling => exact beside
  | none =>
      have kept : ∀ {ptr : Ptr}, ptr ∉ parent ::ₘ Forest.foot (front ++ old :: back) →
          ptr ∉ parent ::ₘ Forest.foot (front ++ new :: back) := fun outside within =>
        outside (Multiset.mem_of_le (Multiset.cons_le_cons _ reshaped.foot_le) within)
      refine ⟨fun ptr isNeighbour => ?_, fun ptr isParent => kept (beside.parent ptr isParent)⟩
      obtain ⟨other, isPtr, stored, formed, apart⟩ := beside.stored ptr isNeighbour
      refine ⟨other, isPtr, reshaped.frame.represents (fun address within => ?_) stored, formed,
        fun address within => kept (apart address within)⟩
      have outside := apart address within
      rw [Multiset.mem_cons, not_or] at outside
      rintro (isParent | inFamily)
      · exact outside.1 (Option.some.inj isParent).symm
      · exact outside.2 inFamily

/-- The neighbours stay where they are when the child shrinks. -/
theorem Below.reshaped
    (below : Below before bounds height parent front old back left right leftparent rightparent)
    (reshaped : Reshaped before after (some parent) height (front ++ old :: back)
      (front ++ new :: back) 0 lefts rights) :
    Below after bounds height parent front new back left right leftparent rightparent where
  several := below.several
  notRoot ptr isRoot within := below.notRoot ptr (reshaped.mRoot ▸ isRoot)
    (Multiset.mem_of_le (Reshaped.foot_le_of_kid reshaped) within)
  formed := below.formed
  leftSide := below.leftSide.reshaped reshaped
  rightSide := below.rightSide.reshaped reshaped

theorem Below.neighbour_ne_none
    (below : Below before bounds height parent front old back left right leftparent rightparent) :
    ¬ (left = none ∧ right = none) := by
  rintro ⟨rfl, rfl⟩
  have leftSide := below.leftSide
  have rightSide := below.rightSide
  rcases List.eq_nil_or_concat' front with rfl | ⟨before, leftSub, rfl⟩
  · obtain ⟨rightSub, rest, rfl⟩ :=
      List.exists_cons_of_ne_nil (below.several.resolve_left (by simp))
    simp [Beside] at rightSide
  · simp [Beside] at leftSide

/-- The node that a merge emptied is no longer in the chain of leaves. -/
private theorem Merged.apart {frontKeys backKeys : List K} {key : K}
    {leftSub rightSub mergedSub : Tree K D}
    (family : Family before height (some parent) (frontKeys ++ key :: backKeys)
      (front ++ leftSub :: rightSub :: back) lefts rights)
    (merged : Merged before after bounds height parent (frontKeys ++ key :: backKeys) front leftSub
      rightSub back mergedSub lefts rights) :
    rightSub.ptr ∉ lefts ++ Forest.leaves (front ++ mergedSub :: back) ++ rights := by
  cases height with
  | zero =>
      have distinct := family.distinct
      obtain ⟨leftPtr, leftPairs, rfl⟩ := (family.stored leftSub (by simp)).exists_leaf
      obtain ⟨rightPtr, rightPairs, rfl⟩ := (family.stored rightSub (by simp)).exists_leaf
      obtain ⟨mergedPtr, pairs, rfl⟩ := (merged.reshaped.stored mergedSub (by simp)).exists_leaf
      obtain rfl : leftPtr = mergedPtr := merged.ptr.symm
      have regroup : lefts ++ Forest.leaves (front ++ .leaf leftPtr leftPairs ::
            .leaf rightPtr rightPairs :: back) ++ rights =
          (lefts ++ Forest.leaves front ++ [leftPtr]) ++ rightPtr ::
            (Forest.leaves back ++ rights) := by simp
      rw [regroup, List.nodup_middle, List.nodup_cons] at distinct
      simpa using distinct.1
  | succ height =>
      intro inChain
      obtain ⟨leaf, found⟩ := merged.reshaped.chained.exists_leaf_of_mem inChain
      obtain ⟨node, foundNode, isLevel, -⟩ := merged.emptied
      obtain rfl : Node.leaf leaf = node := by simpa [found] using foundNode
      simp [Node.level] at isLevel

section Results

variable {keys oldKeys : List K} {remaining : List (K × D)} {result : Result K}

theorem Reported.or {old new : List (K × D)} {first second : Result K}
    (reported : Reported old new first) (found : second.notFound = false)
    (same : second.updateLastkey = false) : Reported old new (first.or second) := by
  refine ⟨?_, ?_, ?_⟩
  · simp [Result.or, reported.found, found]
  · simpa [Result.or, same] using reported.passes
  · simpa [Result.or, same] using reported.keeps

variable (shrunk : Shrunk before middle bounds height (some parent) keys front old new back
  remaining result lefts rights)

include shrunk

theorem Shrunk.erased
    (formed : ∀ kid ∈ front ++ back, WellFormed bounds (bounds.least height) height kid)
    (enough : bounds.least height ≤ new.used) :
    Erased before middle bounds height parent front.length (front ++ old :: back)
      (front ++ new :: back) keys 0 (Forest.pairs (front ++ new :: back)) result lefts rights where
  reshaped := shrunk.reshaped
  held := shrunk.whole ▸ .whole (shrunk.parentAt parent rfl)
  matching := shrunk.matching
  formed kid member := by
    rcases List.mem_append.mp member with inFront | inRest
    · exact formed kid (List.mem_append_left _ inFront)
    · rcases List.mem_cons.mp inRest with rfl | inBack
      · exact shrunk.formed.weaken enough
      · exact formed kid (List.mem_append_right _ inBack)
  count := by simp
  pairs := rfl
  reported := shrunk.reported

variable [Inhabited K] {newKeys frontKeys backKeys : List K} {key : K}
  {front' back' : Forest K D} {leftSub rightSub newLeft newRight mergedSub : Tree K D}
  (family : Family before height (some parent) oldKeys (front ++ old :: back) lefts rights)
  (split : front ++ new :: back = front' ++ leftSub :: rightSub :: back')
  (formed : ∀ kid ∈ front' ++ back', WellFormed bounds (bounds.least height) height kid)

include family split formed

theorem Shrunk.erased_of_shifted
    (shifted : Shifted middle after bounds height parent newKeys front' leftSub rightSub back'
      newLeft newRight lefts rights) :
    Erased before after bounds height parent front.length (front ++ old :: back)
      (front' ++ newLeft :: newRight :: back') newKeys 0 (Forest.pairs (front ++ new :: back))
      (result.or .ok) lefts rights where
  reshaped := Reshaped.trans family shrunk.reshaped (split ▸ shifted.reshaped)
  held := by
    have whole : (result.or .ok).fixmerge = false := by simp [Result.or, Result.ok, shrunk.whole]
    exact whole ▸ .whole shifted.parentAt
  matching := shifted.matching
  formed kid member := by
    simp only [List.mem_append, List.mem_cons] at member
    rcases member with inFront | rfl | rfl | inBack
    · exact formed kid (List.mem_append_left _ inFront)
    · exact shifted.leftFormed
    · exact shifted.rightFormed
    · exact formed kid (List.mem_append_right _ inBack)
  count := by
    have count := congrArg List.length split
    simp only [List.length_append, List.length_cons] at count ⊢
    omega
  pairs := by
    have pairs := shifted.pairs
    rw [split]
    simp only [Forest.pairs_append, Forest.pairs_cons, ← List.append_assoc] at pairs ⊢
    rw [List.append_assoc (Forest.pairs front'), pairs, ← List.append_assoc]
  reported := shrunk.reported.or rfl rfl

theorem Shrunk.erased_of_merged (several : 1 ≤ bounds.least height)
    (inUse : rightSub.pairs ≠ [])
    (inSlot : front.length = front'.length ∨ front.length = front'.length + 1)
    (isKeys : keys = frontKeys ++ key :: backKeys) (aligned : front'.length = frontKeys.length)
    (merged : Merged middle after bounds height parent keys front' leftSub rightSub back'
      mergedSub lefts rights) :
    Erased before after bounds height parent front.length (front ++ old :: back)
      (front' ++ mergedSub :: back') (frontKeys ++ backKeys) {rightSub.ptr}
      (Forest.pairs (front ++ new :: back)) (result.or .merged) lefts rights where
  reshaped := Reshaped.trans family shrunk.reshaped (split ▸ merged.reshaped)
  held := by
    have removes : (result.or .merged).fixmerge = true := by simp [Result.or, Result.merged]
    have familyNow := shrunk.reshaped.family family shrunk.parentAt shrunk.matching
    rw [split, isKeys] at familyNow
    subst isKeys
    have parentAt : after.InnerAt parent (height + 1) (frontKeys ++ key :: backKeys)
        (front'.map Tree.ptr ++ mergedSub.ptr :: rightSub.ptr :: back'.map Tree.ptr) := by
      simpa [merged.ptr] using merged.parentAt
    have enough := merged.formed.used_ge
    exact removes ▸ .emptied parentAt aligned merged.emptied (merged.apart familyNow) (by omega)
      inSlot
  matching := by
    have matching := shrunk.matching
    rw [split, isKeys] at matching
    obtain ⟨frontMatch, -, backMatch⟩ := separators_between matching aligned
    have samelast : rightSub.lastKey? = mergedSub.lastKey? := by
      rw [Tree.lastKey?_eq, Tree.lastKey?_eq, merged.pairs, lastKeyOf_append inUse]
    rw [List.map_append, separators_append, frontMatch, backMatch,
      separators_congr fun _ => samelast]
  formed kid member := by
    simp only [List.mem_append, List.mem_cons] at member
    rcases member with inFront | rfl | inBack
    · exact formed kid (List.mem_append_left _ inFront)
    · exact merged.formed
    · exact formed kid (List.mem_append_right _ inBack)
  count := by
    have count := congrArg List.length split
    simp only [List.length_append, List.length_cons] at count ⊢
    omega
  pairs := by
    rw [split]
    simp [merged.pairs]
  reported := shrunk.reported.or rfl rfl

end Results

private theorem exists_separator {keys : List K} {kids front' back' : Forest K D}
    {leftSub rightSub : Tree K D} (matching : keys.map some = separators kids)
    (split : kids = front' ++ leftSub :: rightSub :: back') :
    ∃ frontKeys key backKeys, keys = frontKeys ++ key :: backKeys ∧
      front'.length = frontKeys.length := by
  have count := congrArg List.length matching
  rw [List.length_map, length_separators, split, List.length_append, List.length_cons,
    List.length_cons] at count
  have bound : front'.length < keys.length := by omega
  obtain ⟨frontKeys, key, backKeys, isKeys, size⟩ := exists_split_at keys bound
  exact ⟨frontKeys, key, backKeys, isKeys, size.symm⟩

/-- The end of both branches of a descent below the root. -/
theorem fixNode_runs [Inhabited K] {keys oldKeys : List K} {remaining : List (K × D)}
    {myres : Result K} (erases : bounds.Erases middle.sizes middle.checks)
    (family : Family before height (some parent) oldKeys (front ++ old :: back) lefts rights)
    (below : Below before bounds height parent front old back left right leftparent rightparent)
    (oldFormed : WellFormed bounds (bounds.least height) height old)
    (shrunk : Shrunk before middle bounds height (some parent) keys front old new back remaining
      myres lefts rights)
    (merge shiftLeft shiftRight : (left right parent : Option Ptr) → (parentslot : Nat) →
      M K D (Result K)) (mends : Mends middle bounds height merge shiftLeft shiftRight)
    (replaceRoot : M K D (Result K)) :
    Runs (fixNode new.ptr myres left right replaceRoot
      (fixUnderflow left right leftparent rightparent (some parent)
        (merge left (some new.ptr) leftparent (usub front.length 1))
        (merge (some new.ptr) right rightparent front.length)
        (shiftLeft (some new.ptr) right rightparent front.length)
        (shiftRight left (some new.ptr) leftparent (usub front.length 1)))) middle
      fun result after => ∃ kids newKeys spare, Erased before after bounds height parent
        front.length (front ++ old :: back) kids newKeys spare
        (Forest.pairs (front ++ new :: back)) result lefts rights := by
  have belowNow := below.reshaped shrunk.reshaped
  have familyNow := shrunk.reshaped.family family shrunk.parentAt shrunk.matching
  have several := erases.two_le_least height
  have oldUsed := oldFormed.used_ge
  have newUsed := shrunk.formed.used_ge
  have newFormed : WellFormed bounds new.used height new := shrunk.formed.weaken (Nat.le_refl _)
  have newPairs : new.pairs ≠ [] :=
    shrunk.formed.pairs_ne_nil_of_used erases.positive (by omega)
  simp only [fixNode, runs_bind, (familyNow.stored new (by simp)).runs_needsFix]
  by_cases underflow : new.used < middle.sizes.mininnerslots
  · have notRoot : middle.mRoot ≠ some new.ptr := fun isRoot =>
      belowNow.notRoot _ isRoot (Tree.ptr_mem_foot new)
    simp only [underflow, notRoot, decide_true, decide_false, Bool.false_and, Bool.not_false,
      Bool.and_self, ↓reduceIte, below.neighbour_ne_none, runs_bind, runs_pure]
    refine fixUnderflow_runs belowNow familyNow.stored ?_ ?_ ?_ ?_
    · rintro before' sibling rfl rfl rfl few
      have split : before' ++ [sibling] ++ new :: back = before' ++ sibling :: new :: back := by simp
      have siblingFormed := below.formed sibling (by simp)
      have siblingUsed := siblingFormed.used_ge
      have others : ∀ kid ∈ before' ++ back, WellFormed bounds (bounds.least height) height kid :=
        fun kid member => below.formed kid (by
          simp only [List.mem_append] at member ⊢
          exact member.imp .inl id)
      obtain ⟨frontKeys, key, backKeys, rfl, aligned⟩ :=
        exists_separator shrunk.matching split
      rw [split] at familyNow
      have slot : usub (before' ++ [sibling]).length 1 = frontKeys.length := by
        rw [usub_of_le (by simp)]
        simpa using aligned
      rw [slot]
      refine mends.merge familyNow aligned (siblingFormed.weaken (Nat.le_refl _)) newFormed
        (by omega) (by omega) fun after merged joined => ?_
      exact ⟨_, _, _, shrunk.erased_of_merged family split others (by omega) newPairs
        (.inr (by simp)) rfl aligned joined⟩
    · rintro sibling rest rfl rfl rfl few
      have siblingFormed := below.formed sibling (by simp)
      have siblingUsed := siblingFormed.used_ge
      have others : ∀ kid ∈ front ++ rest, WellFormed bounds (bounds.least height) height kid :=
        fun kid member => below.formed kid (by
          simp only [List.mem_append, List.mem_cons] at member ⊢
          exact member.imp id .inr)
      obtain ⟨frontKeys, key, backKeys, rfl, aligned⟩ :=
        exists_separator shrunk.matching rfl
      rw [aligned]
      refine mends.merge familyNow aligned newFormed (siblingFormed.weaken (Nat.le_refl _))
        (by omega) (by omega) fun after merged joined => ?_
      rw [← aligned]
      exact ⟨_, _, _, shrunk.erased_of_merged family rfl others (by omega)
        (siblingFormed.pairs_ne_nil erases.positive) (.inl rfl) rfl aligned joined⟩
    · rintro sibling rest rfl rfl rfl rich
      have siblingFormed := below.formed sibling (by simp)
      have others : ∀ kid ∈ front ++ rest, WellFormed bounds (bounds.least height) height kid :=
        fun kid member => below.formed kid (by
          simp only [List.mem_append, List.mem_cons] at member ⊢
          exact member.imp id .inr)
      obtain ⟨frontKeys, key, backKeys, rfl, aligned⟩ :=
        exists_separator shrunk.matching rfl
      rw [aligned]
      refine mends.shiftLeft familyNow aligned newFormed (siblingFormed.weaken (Nat.le_refl _))
        (by omega) underflow rich fun after newKeys newLeft newRight shifted => ?_
      rw [← aligned]
      exact ⟨_, _, _, shrunk.erased_of_shifted family rfl others shifted⟩
    · rintro before' sibling rfl rfl rfl rich
      have split : before' ++ [sibling] ++ new :: back = before' ++ sibling :: new :: back := by simp
      have siblingFormed := below.formed sibling (by simp)
      have others : ∀ kid ∈ before' ++ back, WellFormed bounds (bounds.least height) height kid :=
        fun kid member => below.formed kid (by
          simp only [List.mem_append] at member ⊢
          exact member.imp .inl id)
      obtain ⟨frontKeys, key, backKeys, rfl, aligned⟩ :=
        exists_separator shrunk.matching split
      rw [split] at familyNow
      have slot : usub (before' ++ [sibling]).length 1 = frontKeys.length := by
        rw [usub_of_le (by simp)]
        simpa using aligned
      rw [slot]
      refine mends.shiftRight familyNow aligned (siblingFormed.weaken (Nat.le_refl _)) newFormed
        (by omega) underflow rich fun after newKeys newLeft newRight shifted => ?_
      exact ⟨_, _, _, shrunk.erased_of_shifted family split others shifted⟩
  · simp only [underflow, decide_false, Bool.false_and, Bool.false_eq_true, ↓reduceIte, runs_pure]
    refine ⟨_, _, _, shrunk.erased below.formed ?_⟩
    have innerMin := erases.innerMin
    have leafMin := erases.leafMin
    cases height with
    | zero =>
        simp only [Bounds.least]
        omega
    | succ height =>
        simp only [Bounds.least]
        omega

end Children

end PersistentBTree.Memory
