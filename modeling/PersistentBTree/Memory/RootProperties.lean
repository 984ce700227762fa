import PersistentBTree.Memory.MendProperties
import PersistentBTree.Memory.RemovalProperties

/-! The end of an erasure: at the root, which may be emptied or trimmed, and at
any other node, whose family is mended. -/

set_option autoImplicit false

namespace PersistentBTree.Memory

open Imperative Multimap

variable {K D : Type} [LinearOrder K]

/-- A pair was erased from the whole tree. It is not counted yet. -/
structure Ended (before after : BTree K D) (bounds : Bounds) (remaining : List (K × D))
    (result : Result K) : Prop where
  found : result.notFound = false
  sizes : after.sizes = before.sizes
  checks : after.checks = before.checks
  itemcount : after.mStats.itemcount = before.mStats.itemcount
  shape : (remaining = [] ∧ BTree.Vacant { after with mStats.itemcount := 0 }) ∨
    ∃ height sub, BTree.Intact bounds 1 after height sub ∧ sub.pairs = remaining

namespace BTree.Intact

variable {before after : BTree K D} {bounds : Bounds} {least fewer height : Nat}
  {old new : Tree K D}

theorem family (intact : Intact bounds least before height old) :
    Family before height none [] [old] [] [] where
  parentAt := by simp
  outside := by simp
  stored kid member := by
    obtain rfl := List.mem_singleton.mp member
    exact intact.stored
  matching := rfl
  nodup := by simpa using intact.nodup
  chained := by simpa using intact.chained
  distinct := by simpa using intact.leaves_nodup
  leaves := by simp [intact.leaves]
  innernodes := by simp [intact.innernodes]

theorem reshaped (intact : Intact bounds least before height old)
    (reshaped : Reshaped before after none height [old] [new] 0 [] []) (ptr : new.ptr = old.ptr)
    (formed : WellFormed bounds fewer height new) (sorted : Sorted new.pairs) :
    Intact bounds fewer after height new where
  root := by rw [reshaped.mRoot, intact.root, ptr]
  stored := reshaped.stored new (by simp)
  wellFormed := formed
  sorted := sorted
  nodup := by
    have nodup := Multiset.nodup_of_le reshaped.foot_le (by simpa using intact.nodup)
    simpa using nodup
  allocated address isStored := by
    obtain ⟨dead, isFoot, freed⟩ := reshaped.foot
    simp only [Forest.foot_cons, Forest.foot_nil, add_zero] at isFoot
    have inOld : address ∈ old.foot := by
      by_contra outside
      refine isStored (reshaped.frame.heap_eq_none (by simpa using outside) ?_)
      exact by_contra fun inUse => outside (intact.allocated address inUse)
    rw [isFoot, Multiset.mem_add] at inOld
    exact inOld.resolve_right fun isDead => isStored (freed address isDead)
  unused address above := by
    rw [reshaped.brk] at above
    have isNone := intact.unused address above
    refine reshaped.frame.heap_eq_none ?_ isNone
    have outside : address ∉ old.foot := fun within =>
      intact.stored.heap_ne_none within isNone
    simpa using outside
  chained := by simpa using reshaped.chained
  leaves := by
    have count := reshaped.leaves
    have total := intact.leaves
    simp only [Forest.leaves_cons, Forest.leaves_nil, List.append_nil, Multiset.card_zero,
      ite_self, Nat.add_zero] at count
    omega
  innernodes := by
    have count := reshaped.innernodes
    have total := intact.innernodes
    simp only [Forest.innerCount_cons, Forest.innerCount_nil, Multiset.card_zero, ite_self,
      Nat.add_zero] at count
    omega

theorem trim {ptr : Ptr} (positive : 1 ≤ bounds.least height)
    (intact : Intact bounds 0 before (height + 1) (.inner ptr [] [new]))
    (frame : before.Frame after {ptr}) (freed : after.heap ptr = none)
    (links : ∀ other, other ≠ ptr → after.links other = before.links other)
    (mRoot : after.mRoot = some new.ptr) (mHeadleaf : after.mHeadleaf = before.mHeadleaf)
    (mTailleaf : after.mTailleaf = before.mTailleaf) (brk : after.brk = before.brk)
    (leaves : after.mStats.leaves = before.mStats.leaves)
    (innernodes : after.mStats.innernodes = before.mStats.innernodes - 1) :
    Intact bounds 1 after height new := by
  have nodup := intact.nodup
  have inner := intact.stored.1.links_eq_none
  have formed : WellFormed bounds (bounds.least height) height new :=
    intact.wellFormed.2.2.2.2 new (by simp)
  simp only [Tree.foot_inner, Forest.foot_cons, Forest.foot_nil, add_zero, Multiset.nodup_cons]
    at nodup
  have apart : ∀ address ∈ new.foot, address ≠ ptr := by
    rintro address within rfl
    exact nodup.1 within
  refine ⟨mRoot, frame.represents apart (intact.stored.2 new (by simp)),
    formed.weaken (positive.trans formed.used_ge), ?_, nodup.2, fun address isStored => ?_,
    fun address above => ?_, ?_, ?_, ?_⟩
  · simpa using intact.sorted
  · have notPtr : address ≠ ptr := by
      rintro rfl
      exact isStored freed
    have inOld := intact.allocated address fun isNone =>
      isStored (frame.heap_eq_none (by simpa using notPtr) isNone)
    simpa [notPtr] using inOld
  · by_cases same : address = ptr
    · rw [same, freed]
    · rw [brk] at above
      exact frame.heap_eq_none (by simpa using same) (intact.unused address above)
  · have chained := intact.chained
    simp only [Tree.leaves_inner, Forest.leaves_cons, Forest.leaves_nil, List.append_nil] at chained
    refine chained.congr (fun address member => links address ?_) mHeadleaf mTailleaf
    rintro rfl
    obtain ⟨leaf, found⟩ := chained.exists_leaf_of_mem member
    rw [BTree.links_of_leaf found] at inner
    cases inner
  · rw [leaves, intact.leaves]
    simp
  · rw [innernodes, intact.innernodes]
    simp

end BTree.Intact

/-! ## The root -/

section Root

variable {tree : BTree K D} {bounds : Bounds} {height : Nat} {ptr : Ptr}

omit [LinearOrder K] in
theorem assertRoot_runs {post : Unit → BTree K D → Prop} (isRoot : tree.mRoot = some ptr)
    (next : post () tree) : Runs (assertRoot ptr) tree post :=
  runs_btreeAssert (fun _ => by simp [isRoot]) next

variable [Inhabited K] {post : Result K → BTree K D → Prop}

theorem dropRoot_runs (intact : BTree.Intact bounds 0 tree 0 (.leaf ptr []))
    (itemcount : tree.mStats.itemcount = 1)
    (next : ∀ after, after.sizes = tree.sizes → after.checks = tree.checks →
      after.mStats.itemcount = 1 → BTree.Vacant { after with mStats.itemcount := 0 } →
      post .ok after) :
    Runs (dropRoot ptr) tree post := by
  have root := intact.root
  have leaves := intact.leaves
  have innernodes := intact.innernodes
  obtain ⟨node, found, stores⟩ := intact.stored
  simp only [Tree.leaves_leaf, List.length_singleton, Tree.innerCount_leaf, Tree.ptr_leaf]
    at root leaves innernodes
  simp only [dropRoot, runs_bind]
  refine assertRoot_runs root (runs_btreeAssert (fun _ => ?_) ?_)
  · simp [slotuse, found, Node.slotuse, stores.used]
  simp only [runs_get, runs_nonNull, root, Option.some.injEq, exists_eq_left']
  refine freeNode_runs found ?_
  simp only [runs_modify]
  refine runs_btreeAssert (fun _ => ?_) (runs_btreeAssert (fun _ => ?_)
    (runs_btreeAssert (fun _ => ?_) ?_))
  · simp [BTree.freed, Node.level, itemcount]
  · simp [BTree.freed, Node.level, leaves]
  · simp [BTree.freed, Node.level, innernodes]
  rw [runs_pure]
  refine next _ rfl rfl (by simpa [BTree.freed, Node.level] using itemcount)
    ⟨rfl, rfl, rfl, ?_, fun address => ?_⟩
  · simp [BTree.freed, Node.level, leaves, innernodes]
  · by_cases same : address = ptr
    · subst same
      exact BTree.heap_setNode_self ..
    · refine (BTree.heap_setNode_of_ne tree none same).trans ?_
      exact by_contra fun inUse => same (by simpa using intact.allocated address inUse)

theorem trimRoot_runs {kid : Tree K D} (positive : 1 ≤ bounds.least height)
    (intact : BTree.Intact bounds 0 tree (height + 1) (.inner ptr [] [kid]))
    (next : ∀ after, after.sizes = tree.sizes → after.checks = tree.checks →
      after.mStats.itemcount = tree.mStats.itemcount → BTree.Intact bounds 1 after height kid →
      post .ok after) :
    Runs (trimRoot ptr) tree post := by
  have root := intact.root
  have inner := intact.stored.1.links_eq_none
  obtain ⟨⟨node, found, isLevel, stores⟩, -⟩ := intact.stored
  have children : node.childid.Holds ([] ++ kid.ptr :: []) := stores.children
  simp only [trimRoot, runs_bind]
  refine assertRoot_runs root (runs_btreeAssert (fun _ => ?_) ?_)
  · simp [slotuse, found, Node.slotuse, stores.used]
  simp only [runs_getInner, runs_readSlot, runs_modify, runs_setInner]
  refine ⟨node, found, kid.ptr, children.read, freeNode_runs (BTree.heap_setNode_self ..) ?_⟩
  rw [runs_pure]
  have level : (Node.inner (D := D) { node with slotuse := 0 }).level = height + 1 := isLevel
  rw [level]
  refine next _ rfl rfl ?_ (intact.trim positive ⟨rfl, rfl, fun other outside => ?_⟩
    (BTree.heap_setNode_self ..) (fun other notPtr => ?_) rfl rfl rfl rfl ?_ ?_)
  · simp [BTree.freed]
  · exact (BTree.content_setNode_of_ne _ none outside).trans
      (BTree.content_setNode_of_ne _ _ outside)
  · exact (BTree.links_setNode_of_ne _ none notPtr).trans (BTree.links_setNode_inner inner other)
  · simp [BTree.freed]
  · simp [BTree.freed]

end Root

/-! ## Any node -/

/-- Where a descent has come to: the root, or a child whose neighbours it was
given. -/
inductive Place (tree : BTree K D) (bounds : Bounds) (height : Nat) (sub : Tree K D) :
    (parent : Option Ptr) → (front back : Forest K D) → (lefts rights : List Ptr) →
      (left right leftparent rightparent : Option Ptr) → Prop
  | root (intact : BTree.Intact bounds 1 tree height sub)
      (itemcount : tree.mStats.itemcount = sub.pairs.length) :
      Place tree bounds height sub none [] [] [] [] none none none none
  | child {parent : Ptr} {front back : Forest K D} {lefts rights : List Ptr}
      {left right leftparent rightparent : Option Ptr}
      (below : Below tree bounds height parent front sub back left right leftparent rightparent)
      (formed : WellFormed bounds (bounds.least height) height sub) :
      Place tree bounds height sub (some parent) front back lefts rights left right leftparent
        rightparent

/-- A pair was erased below `sub`, and these are the pairs it keeps. -/
inductive Finished (before after : BTree K D) (bounds : Bounds) (height : Nat) (sub : Tree K D)
    (remaining : List (K × D)) (result : Result K) :
    (parent : Option Ptr) → (front back : Forest K D) → (lefts rights : List Ptr) → Prop
  | root (ended : Ended before after bounds remaining result) :
      Finished before after bounds height sub remaining result none [] [] [] []
  | child {parent : Ptr} {front back kids : Forest K D} {keys : List K} {spares : Multiset Ptr}
      {lefts rights : List Ptr}
      (erased : Erased before after bounds height parent front.length (front ++ sub :: back) kids
        keys spares (Forest.pairs front ++ (remaining ++ Forest.pairs back)) result lefts rights) :
      Finished before after bounds height sub remaining result (some parent) front back lefts rights

section Place

variable {tree : BTree K D} {bounds : Bounds} {height : Nat} {sub : Tree K D}
  {parent : Option Ptr} {front back : Forest K D} {lefts rights : List Ptr}
  {left right leftparent rightparent : Option Ptr}
  (place : Place tree bounds height sub parent front back lefts rights left right leftparent
    rightparent)
  (erases : bounds.Erases tree.sizes tree.checks)

include place

theorem Place.alone (isRoot : parent = none) :
    front = [] ∧ back = [] ∧ tree.mRoot = some sub.ptr := by
  cases place with
  | root intact => exact ⟨rfl, rfl, intact.root⟩
  | child => simp at isRoot

include erases

theorem Place.formed : WellFormed bounds 1 height sub := by
  cases place with
  | root intact => exact intact.wellFormed
  | child below formed =>
      exact formed.weaken ((Nat.le_of_succ_le (erases.two_le_least height)).trans formed.used_ge)

theorem Place.several (isChild : parent ≠ none) : 2 ≤ sub.used := by
  cases place with
  | root => simp at isChild
  | child below formed => exact (erases.two_le_least height).trans formed.used_ge

theorem Place.backSome (nonempty : back ≠ []) : Forest.pairs back ≠ [] := by
  cases place with
  | root => exact absurd rfl nonempty
  | child below =>
      obtain ⟨next, rest, rfl⟩ := List.exists_cons_of_ne_nil nonempty
      simp [(below.formed next (by simp)).pairs_ne_nil erases.positive]

end Place

section Mend

variable [Inhabited K] {before middle : BTree K D} {bounds : Bounds} {height : Nat}
  {old new : Tree K D} {remaining : List (K × D)} {parent : Option Ptr} {front back : Forest K D}
  {keys oldKeys : List K} {myres : Result K} {lefts rights : List Ptr}
  {left right leftparent rightparent : Option Ptr}

/-- The end of both branches of a descent, at any node. -/
theorem fixNode_finishes (erases : bounds.Erases before.sizes before.checks)
    (place : Place before bounds height old parent front back lefts rights left right leftparent
      rightparent)
    (family : Family before height parent oldKeys (front ++ old :: back) lefts rights)
    (shrunk : Shrunk before middle bounds height parent keys front old new back remaining myres lefts
      rights)
    (sorted : Sorted old.pairs → Sorted remaining)
    (merge shiftLeft shiftRight : (left right parent : Option Ptr) → (parentslot : Nat) →
      M K D (Result K)) (mends : Mends middle bounds height merge shiftLeft shiftRight)
    (replaceRoot : M K D (Result K))
    (replaces : ∀ {post : Result K → BTree K D → Prop}, new.used = 0 →
      BTree.Intact bounds 0 middle height new → middle.mStats.itemcount = old.pairs.length →
      (∀ result after, Ended middle after bounds remaining result → post result after) →
      Runs replaceRoot middle post) :
    Runs (fixNode new.ptr myres left right replaceRoot
      (fixUnderflow left right leftparent rightparent parent
        (merge left (some new.ptr) leftparent (usub front.length 1))
        (merge (some new.ptr) right rightparent front.length)
        (shiftLeft (some new.ptr) right rightparent front.length)
        (shiftRight left (some new.ptr) leftparent (usub front.length 1)))) middle
      fun result after =>
        Finished before after bounds height old remaining result parent front back lefts rights := by
  have sizes := shrunk.reshaped.frame.sizes
  have checks := shrunk.reshaped.frame.checks
  cases place with
  | child below formed =>
      have now : bounds.Erases middle.sizes middle.checks := by rwa [sizes, checks]
      refine (fixNode_runs now family below formed shrunk merge shiftLeft shiftRight mends
        replaceRoot).mono ?_
      rintro result after ⟨kids, newKeys, spares, erased⟩
      refine .child (?_ : Erased before after bounds height _ front.length (front ++ old :: back)
        kids newKeys spares _ result lefts rights)
      simpa only [Forest.pairs_append, Forest.pairs_cons, shrunk.pairs] using erased
  | root intact itemcount =>
      have innerSome := erases.innerSome
      have intactNow : BTree.Intact bounds (old.used - 1) middle height new :=
        intact.reshaped shrunk.reshaped shrunk.ptr shrunk.formed
          (shrunk.pairs ▸ sorted intact.sorted)
      have countNow : middle.mStats.itemcount = before.mStats.itemcount := shrunk.reshaped.itemcount
      simp only [fixNode, runs_bind, intactNow.stored.runs_needsFix, sizes]
      by_cases empty : new.used = 0
      · have under : new.used < before.sizes.mininnerslots := by omega
        have notOne : ¬ 1 ≤ new.used := by omega
        rw [if_pos (by simp [under, notOne]), if_pos (by simp)]
        refine replaces empty { intactNow with
          wellFormed := intactNow.wellFormed.weaken (Nat.zero_le _) } (countNow.trans itemcount)
          fun result after ended => .root ⟨ended.found, ended.sizes.trans sizes,
            ended.checks.trans checks, ended.itemcount.trans countNow, ended.shape⟩
      · have inUse : 1 ≤ new.used := Nat.one_le_iff_ne_zero.mpr empty
        simp only [intactNow.root, inUse, decide_true, Bool.and_self, Bool.not_true,
          Bool.and_false, Bool.false_eq_true, ↓reduceIte, runs_pure]
        refine .root ⟨shrunk.reported.found, sizes, checks, countNow, .inr ⟨height, new, ?_,
          shrunk.pairs⟩⟩
        exact { intactNow with wellFormed := intactNow.wellFormed.weaken inUse }

end Mend

end PersistentBTree.Memory
