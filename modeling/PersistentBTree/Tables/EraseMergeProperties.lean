import PersistentBTree.Tables.EraseStepProperties

/-! What a step of an erasure returns to the parent: below the root every node is merged
with a neighbour that has the same parent. -/

set_option autoImplicit false

namespace PersistentBTree.Tables.NullSafe

open Imperative Pages
open Memory (usub)

variable {K D : Type} {table before after : Table (Slots K D)} {height : Nat} {curr : PageId}
  {result myres : Result K} {place : Place}

/-- The descent into a node has returned: the pair is erased, and if nodes are merged, then
of this node and a neighbour the one that is not the first child is empty. -/
structure Done (height : Nat) (curr : PageId) (place : Place) (before : Table (Slots K D))
    (result : Result K) (after : Table (Slots K D)) : Prop where
  notFound : result.notFound = false
  fixmerge : result.fixmerge = decide (0 < before.minnodeslots)
  lastkey : result.updateLastkey = true → result.lastkey ≠ none
  frame : Frame height before after
  emptied : result.fixmerge = true → ((after.nodeAt curr).slotuse = 0 ↔ place.parentslot ≠ 0)

/-- A node below the root: its parent, its neighbours, and that with the same parent. -/
structure Placed (table : Table (Slots K D)) (height : Nat) (curr : PageId) (place : Place) :
    Prop where
  parent : ∃ parent, place.parent = some parent ∧ table.store.Allocated parent ∧
    (table.nodeAt parent).level = height + 1
  left : ∀ n ∈ place.left, table.store.Allocated n ∧ (table.nodeAt n).level = height
  right : ∀ n ∈ place.right, table.store.Allocated n ∧ (table.nodeAt n).level = height
  sibling : (place.parentslot ≠ 0 ∧ place.leftparent = place.parent ∧
      ∃ left, place.left = some left ∧ left ≠ curr) ∨
    (place.parentslot = 0 ∧ place.leftparent ≠ place.parent ∧ place.rightparent = place.parent ∧
      ∃ right, place.right = some right ∧ curr ≠ right)

theorem Placed.parentIn (placed : Placed table height curr place) :
    ∀ n ∈ place.parent, table.store.Allocated n := by
  obtain ⟨parent, isParent, inUse, -⟩ := placed.parent
  intro n member
  rw [isParent, Option.mem_some_iff] at member
  exact member ▸ inUse

theorem Placed.frame {lower : Nat} (placed : Placed before height curr place)
    (frame : Frame lower before after) (below : lower ≤ height) :
    Placed after height curr place where
  parent := by
    obtain ⟨parent, isParent, inUse, level⟩ := placed.parent
    refine ⟨parent, isParent, (frame.allocated parent ?_).mpr inUse,
      (frame.level parent).trans level⟩
    exact level ▸ below.trans (Nat.le_succ height)
  left n member := by
    obtain ⟨inUse, level⟩ := placed.left n member
    exact ⟨(frame.allocated n (level ▸ below)).mpr inUse, (frame.level n).trans level⟩
  right n member := by
    obtain ⟨inUse, level⟩ := placed.right n member
    exact ⟨(frame.allocated n (level ▸ below)).mpr inUse, (frame.level n).trans level⟩
  sibling := placed.sibling

/-- The nodes that are merged, and their parent. -/
structure Merging (table : Table (Slots K D)) (height : Nat) (curr : PageId) (place : Place)
    (left right parent : PageId) : Prop where
  family : Family table left right parent (table.nodeAt left) (table.nodeAt right)
    (table.nodeAt parent)
  leftLevel : (table.nodeAt left).level = height
  rightLevel : (table.nodeAt right).level = height
  side : place.parentslot ≠ 0 ∧ right = curr ∧ place.left = some left ∨
    place.parentslot = 0 ∧ left = curr ∧ place.right = some right

theorem Placed.merging (placed : Placed table height curr place)
    (inUse : table.store.Allocated curr) (level : (table.nodeAt curr).level = height)
    (leaf : Bool) : ∃ left right parent slot, Merging table height curr place left right parent ∧
      mending samePage leaf curr place = ⟨.merge, leaf, curr, some left, some right, some parent, slot⟩ := by
  obtain ⟨parent, isParent, parentIn, parentLevel⟩ := placed.parent
  have apart (n : PageId) (low : (table.nodeAt n).level = height) : parent ≠ n := by
    intro same
    rw [same, low] at parentLevel
    exact absurd parentLevel.symm (Nat.succ_ne_self height)
  rcases placed.sibling with ⟨later, ours, left, isLeft, other⟩ | ⟨first, notOurs, ours, right,
    isRight, other⟩
  · obtain ⟨leftIn, leftLevel⟩ := placed.left left isLeft
    refine ⟨left, curr, parent, (mending samePage leaf curr place).parentslot,
      ⟨⟨other, apart left leftLevel, apart curr level, leftIn, inUse, parentIn, rfl, rfl, rfl⟩,
        leftLevel, level, .inl ⟨later, rfl, isLeft⟩⟩, ?_⟩
    unfold mending samePage
    rw [if_pos (decide_eq_true ours), isLeft, ours, isParent]
  · obtain ⟨rightIn, rightLevel⟩ := placed.right right isRight
    refine ⟨curr, right, parent, (mending samePage leaf curr place).parentslot,
      ⟨⟨other, apart curr level, apart right rightLevel, inUse, rightIn, parentIn, rfl, rfl, rfl⟩,
        level, rightLevel, .inr ⟨first, rfl, isRight⟩⟩, ?_⟩
    unfold mending samePage
    rw [if_neg (by simpa using notOurs), isRight, ours, isParent]

/-! ## The merges -/

section Merges

variable [LinearOrder K] {left right parent : PageId} {slot : Nat}

theorem mergeLeaves_merged :
    Ensures (mergeLeaves (arrays K D) left right parent) table fun merged _ => merged = .merged := by
  refine .after fun _ _ => .after fun _ _ => .after fun _ _ => .after fun _ _ => .after fun _ _ => ?_
  refine .after fun node _ => .after fun _ _ => .after fun _ _ => ?_
  split
  · exact .after fun _ _ => .after fun _ _ => .pure rfl
  · exact .after fun _ _ => .after fun _ _ => .pure rfl

/-- Where the leaf behind a merge of leaves is. -/
structure Behind (table : Table (Slots K D)) (left right : PageId) : Prop where
  notLeft : (table.nodeAt right).nextleaf ≠ left
  notRight : (table.nodeAt right).nextleaf ≠ right
  isLeaf : (table.nodeAt right).nextleaf ≠ -1 →
    table.store.Allocated (table.nodeAt right).nextleaf ∧
      (table.nodeAt (table.nodeAt right).nextleaf).level = 0

/-- Leaves are merged if there is a leaf behind them. -/
theorem mergeLeaves_mends (merging : Merging table 0 curr place left right parent)
    (id : (table.store.file left).id = left) (behind : Behind table left right)
    (filled : left = curr → 1 ≤ (table.nodeAt right).slotuse) :
    RunsIf ((table.nodeAt right).nextleaf ≠ -1) (mergeLeaves (arrays K D) left right parent) table
      fun merged after => merged = .merged ∧ Frame 0 table after ∧
        ((after.nodeAt curr).slotuse = 0 ↔ place.parentslot ≠ 0) := by
  have present : (table.nodeAt right).nextleaf = 0 ∨
      table.store.Allocated (table.nodeAt right).nextleaf ↔ (table.nodeAt right).nextleaf ≠ -1 := by
    constructor
    · intro either isEnd
      rw [isEnd] at either
      rcases either with isZero | inUse
      · cases isZero
      · exact absurd inUse.1 (by decide)
    · intro some_
      exact .inr (behind.isLeaf some_).1
  have same : Ensures (mergeLeaves (arrays K D) left right parent) table
      fun _ after => SameRoot table after := preserves_mergeLeaves left right parent table
  have outcome := mergeLeaves_runsIf merging.family id behind.notLeft behind.notRight
  refine (((outcome.congr present).and_ensures mergeLeaves_merged).and_ensures same).imp_left ?_
  intro both
  refine ⟨both.1, both.2.mono fun merged after reached => ?_⟩
  obtain ⟨⟨⟨atLeft, atRight, -, -, touches⟩, isMerged⟩, same⟩ := reached
  refine ⟨isMerged, .of_touches same touches ?_, ?_⟩
  · intro n member
    simp only [List.mem_cons, List.not_mem_nil, or_false] at member
    rcases member with rfl | rfl | rfl
    · exact merging.leftLevel.le
    · exact merging.rightLevel.le
    · exact (behind.isLeaf both.1).2.le
  · rcases merging.side with ⟨later, isCurr, -⟩ | ⟨first, isCurr, -⟩
    · rw [← isCurr, atRight]
      exact iff_of_true rfl later
    · have some_ := filled isCurr
      rw [← isCurr, atLeft]
      refine iff_of_false ?_ (not_not.mpr first)
      exact Nat.ne_of_gt (Nat.add_pos_right _ some_)

end Merges

/-! ## Leaves -/

/-- The leaf that the links of the other one are taken from when two leaves are merged. -/
def rightMerged (curr : PageId) (place : Place) : PageId :=
  if place.parentslot = 0 then place.right.getD (-1) else curr

/-- A leaf below the root. -/
structure LeafPlaced (table : Table (Slots K D)) (curr : PageId) (place : Place) : Prop
    extends Placed table 0 curr place where
  inUse : table.store.Allocated curr
  level : (table.nodeAt curr).level = 0
  merges : ∀ left right parent, Merging table 0 curr place left right parent →
    (table.store.file left).id = left ∧ Behind table left right ∧
      (left = curr → 1 ≤ (table.nodeAt right).slotuse)

theorem Placed.not_hasNeither (placed : Placed table height curr place) :
    hasNeither place = false := by
  rcases placed.sibling with ⟨-, -, left, isLeft, -⟩ | ⟨-, -, -, right, isRight, -⟩
  · simp [hasNeither, isLeft, MemoryNode.toBool]
  · simp [hasNeither, isRight, MemoryNode.toBool]

theorem Merging.right_eq {left right parent : PageId}
    (merging : Merging table height curr place left right parent) :
    right = rightMerged curr place := by
  unfold rightMerged
  rcases merging.side with ⟨later, isCurr, -⟩ | ⟨first, -, isRight⟩
  · rw [if_neg later, isCurr]
  · rw [if_pos first, isRight, Option.getD_some]

/-- Only the slots of one leaf, and keys of its parent, are written. -/
structure Edits (leaf : PageId) (before after : Table (Slots K D)) : Prop where
  frame : Frame 0 before after
  allocated : ∀ n, after.store.Allocated n ↔ before.store.Allocated n
  nextleaf : ∀ n, (after.nodeAt n).nextleaf = (before.nodeAt n).nextleaf
  slotuse : ∀ n, n ≠ leaf → (after.nodeAt n).slotuse = (before.nodeAt n).slotuse

theorem Edits.of_fills {leaf : PageId} {middle : Table (Slots K D)}
    (level : (before.nodeAt leaf).level = 0) (fills : Table.Fills leaf before middle)
    (rekeys : Rekeys middle after) : Edits leaf before after where
  frame := (Frame.fills fills level.le).trans (rekeys.frame 0)
  allocated _ := rekeys.allocated.trans fills.allocated
  nextleaf n := by
    rw [rekeys.nextleaf]
    obtain ⟨slots, slotuse, rfl⟩ := fills
    exact Table.field_setNode Node.nextleaf rfl
  slotuse n apart := by rw [rekeys.slotuse, fills.nodeAt_of_ne apart]

theorem LeafPlaced.edits (placed : LeafPlaced before curr place) (edits : Edits curr before after) :
    LeafPlaced after curr place where
  toPlaced := placed.toPlaced.frame edits.frame (le_refl 0)
  inUse := (edits.allocated curr).mpr placed.inUse
  level := (edits.frame.level curr).trans placed.level
  merges left right parent merging := by
    obtain ⟨apart, parentLeft, parentRight, leftIn, rightIn, parentIn, -⟩ := merging.family
    have earlier : Merging before 0 curr place left right parent :=
      ⟨⟨apart, parentLeft, parentRight, (edits.allocated left).mp leftIn,
        (edits.allocated right).mp rightIn, (edits.allocated parent).mp parentIn, rfl, rfl, rfl⟩,
        (edits.frame.level left).symm.trans merging.leftLevel,
        (edits.frame.level right).symm.trans merging.rightLevel, merging.side⟩
    obtain ⟨id, behind, filled⟩ := placed.merges left right parent earlier
    refine ⟨(edits.frame.id left).trans id, ?_, ?_⟩
    · constructor
      · exact edits.nextleaf right ▸ behind.notLeft
      · exact edits.nextleaf right ▸ behind.notRight
      · intro some_
        rw [edits.nextleaf right] at some_ ⊢
        obtain ⟨inUse, level⟩ := behind.isLeaf some_
        exact ⟨(edits.allocated _).mpr inUse, (edits.frame.level _).trans level⟩
    · intro isCurr
      rw [edits.slotuse right fun same => apart (isCurr.trans same.symm)]
      exact filled isCurr

/-! ## Steps -/

theorem done_of_merged {middle : Table (Slots K D)} (plain : Plain myres)
    (positive : 0 < before.minnodeslots) (earlier : Frame height before middle)
    (frame : Frame height middle after)
    (emptied : (after.nodeAt curr).slotuse = 0 ↔ place.parentslot ≠ 0) :
    Done height curr place before (myres.or .merged) after where
  notFound := by
    rw [Memory.Result.or, plain.notFound]
    rfl
  fixmerge := by
    rw [decide_eq_true positive]
    exact Bool.or_true _
  lastkey updates := by
    rw [Memory.Result.or, Bool.or_eq_true] at updates
    exact plain.lastkey (updates.resolve_right Bool.false_ne_true)
  frame := earlier.trans frame
  emptied _ := emptied

theorem done_of_plain (plain : Plain myres) (never : before.minnodeslots = 0)
    (frame : Frame height before after) : Done height curr place before myres after where
  notFound := plain.notFound
  fixmerge := by
    rw [plain.fixmerge, never]
    rfl
  lastkey := plain.lastkey
  frame := frame
  emptied merged := by
    rw [plain.fixmerge] at merged
    cases merged

section Steps

variable [LinearOrder K]

/-- The pair is erased from the leaf, unless the leaf is merged and there is no leaf behind. -/
theorem eraseInLeaf_runsIf {slot : Nat} (placed : LeafPlaced table curr place)
    (unset : Unset table) (notRoot : (table.store.file curr).id ≠ table.mRootId) :
    RunsIf (table.minnodeslots = 0 ∨ (table.nodeAt (rightMerged curr place)).nextleaf ≠ -1)
      (eraseInLeaf (arrays K D) samePage direct curr slot place) table
      (Done 0 curr place table) := by
  have parentIn := placed.parentIn
  refine .after ((runs_withFault ..).mpr ((removePair_runs placed.inUse parentIn).mono ?_))
  intro myres after reached
  obtain ⟨plain, middle, fills, rekeys, -⟩ := reached
  have edits := Edits.of_fills placed.level fills rekeys
  have later := placed.edits edits
  have frame := edits.frame
  by_cases never : table.minnodeslots = 0
  · refine .of_runs ⟨myres, after, fixNode_idle (frame.unset unset) later.inUse ?_, ?_⟩ (.inl never)
    · exact fun fixes => absurd (frame.minnodeslots.trans never) (Nat.ne_of_gt fixes.1)
    · exact done_of_plain plain never frame
  · have positive := Nat.pos_of_ne_zero never
    obtain ⟨left, right, parent, slot, merging, isMending⟩ :=
      later.toPlaced.merging later.inUse later.level true
    obtain ⟨id, behind, filled⟩ := later.merges left right parent merging
    have fixes : Fixes after curr := by
      refine ⟨frame.minnodeslots ▸ positive, .inl ?_⟩
      rw [frame.id, frame.mRootId]
      exact notRoot
    refine .of_run_eq (fixNode_mends (frame.unset unset) later.inUse fixes
      placed.not_hasNeither (fun n member => (later.left n member).1)
      fun n member => (later.right n member).1) ?_
    rw [isMending]
    have performs := (mergeLeaves_mends merging id behind filled).withFault Halt.fault
    refine (performs.before fun merged last reached => ?_).congr ?_
    · obtain ⟨isMerged, lastFrame, emptied⟩ := reached
      rw [isMerged]
      exact (runs_pure ..).mpr (done_of_merged plain positive frame lastFrame emptied)
    · rw [merging.right_eq, edits.nextleaf]
      exact (or_iff_right never).symm

/-- What an inner node does before it is mended: it passes on the last key, and takes out the
child that a merge has emptied. -/
theorem eraseInInner_settles {inner : PageId} {slot : Nat} (branch : Branch table height inner)
    (inside : slot ≤ (table.nodeAt inner).slotuse) (some_ : 1 ≤ (table.nodeAt inner).slotuse)
    (lastkey : result.updateLastkey = true → result.lastkey ≠ none)
    (emptied : result.fixmerge = true →
      ((table.nodeAt (childAt table inner slot)).slotuse = 0 ↔ slot ≠ 0))
    (parentIn : ∀ n ∈ place.parent, table.store.Allocated n) :
    ∃ myres after, (∀ isRoot, (eraseInInner (arrays K D) samePage direct isRoot inner slot result
        place).run table = (fixNode samePage direct isRoot (trimRoot (arrays K D) inner) false inner
          myres place).run after) ∧ Plain myres ∧ Frame (height + 1) table after ∧
      (after.nodeAt inner).slotuse =
        (table.nodeAt inner).slotuse - (if result.fixmerge then 1 else 0) ∧
      childAt after inner 0 = childAt table inner 0 := by
  obtain ⟨myres, middle, passed, plain, rekeys⟩ := passLastkey_runs lastkey parentIn
  have same : childAt middle inner = childAt table inner := rekeys.childs
  have fixes := @fixMerge_runs K D middle height result _ inner slot
    (branch.frame (rekeys.frame height)) (rekeys.slotuse ▸ inside) (rekeys.slotuse ▸ some_)
    (by rw [same, rekeys.slotuse]; exact emptied)
  obtain ⟨_, after, fixed, frame, used, first⟩ := fixes
  refine ⟨myres, after, ?_, plain, (rekeys.frame _).trans frame, ?_, first.trans (congrFun same 0)⟩
  · intro isRoot
    unfold eraseInInner
    rw [run_bind_ok (lift_run passed), run_bind_ok (lift_run fixed)]
  · rw [used, rekeys.slotuse]

end Steps

end PersistentBTree.Tables.NullSafe
