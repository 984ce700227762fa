import PersistentBTree.Tables.EraseMergeProperties
import PersistentBTree.Tables.LookupGuarantees

/-! The path of an erasure in a stored tree: the nodes above the first pair with the key, and
what a descent is told of their neighbours. -/

set_option autoImplicit false

namespace PersistentBTree.Tables.NullSafe

open Imperative Pages Multimap
open Memory (Tree Forest Bounds WellFormed Block pairsIn pairsIn_append pairsIn_cons)

variable {K D : Type} [LinearOrder K] {table : Table (Slots K D)} {bounds : Bounds}
  {least height : Nat} {key : K} {iter : Iterator} {sub kid : Tree K D} {front back : Forest K D}
  {ptr : Memory.Ptr} {keys : List K} {place : Place} {leaves : List PageId}

/-- No node has to be empty. -/
structure Positive (bounds : Bounds) : Prop where
  leafMin : 1 ≤ bounds.leafMin
  innerMin : 1 ≤ bounds.innerMin

omit [LinearOrder K] in
theorem Positive.formed (positive : Positive bounds)
    (formed : WellFormed bounds (bounds.least height) height sub) :
    WellFormed bounds 1 height sub := by
  refine formed.weaken (le_trans ?_ formed.used_ge)
  cases height with
  | zero => exact positive.leafMin
  | succ height => exact positive.innerMin

/-! ## The first pair with the key -/

/-- The iterator is at the first pair with the key. -/
def FirstPair (sub : Tree K D) (key : K) (iter : Iterator) : Prop :=
  ∃ (earlier : List (Block K D)) (leaf : Memory.Ptr) (lower : List (K × D)) (value : D)
    (upper : List (K × D)) (later : List (Block K D)),
    sub.blocks = earlier ++ (leaf, lower ++ (key, value) :: upper) :: later ∧
      iter = ⟨(leaf : PageId), lower.length⟩ ∧ ∀ pair ∈ pairsIn earlier ++ lower, pair.1 < key

omit [LinearOrder K] in
/-- A block of a list that is not in its first part is in its second part. -/
private theorem block_in_second {blocks others earlier later : List (Block K D)}
    {block : Block K D} (split : blocks ++ others = earlier ++ block :: later)
    (absent : block ∉ blocks) :
    ∃ between, earlier = blocks ++ between ∧ others = between ++ block :: later := by
  rcases List.append_eq_append_iff.mp split with ⟨between, isEarlier, isOthers⟩ | ⟨excess, isBlocks,
    isRest⟩
  · exact ⟨between, isEarlier, isOthers⟩
  · cases excess with
    | nil => exact ⟨[], by simpa using isBlocks.symm, isRest.symm⟩
    | cons first excess =>
        rw [List.cons_append, List.cons.injEq] at isRest
        exact absurd (isBlocks ▸ isRest.1 ▸ List.mem_append_right earlier List.mem_cons_self) absent

/-- It is below the child that the search for the key selects. -/
theorem FirstPair.below (first : FirstPair (.inner ptr keys (front ++ kid :: back)) key iter)
    (cut : ∀ pair ∈ Forest.pairs front, pair.1 < key)
    (last : back ≠ [] → ∃ separator, kid.lastKey? = some separator ∧ ¬ separator < key) :
    FirstPair kid key iter := by
  obtain ⟨earlier, leaf, lower, value, upper, later, split, isIter, below⟩ := first
  rw [Tree.blocks_inner, Forest.blocks_append, Forest.blocks_cons] at split
  have notFront : (leaf, lower ++ (key, value) :: upper) ∉ Forest.blocks front := by
    intro member
    refine lt_irrefl key (cut (key, value) ?_)
    exact List.mem_flatMap.mpr ⟨_, member, List.mem_append_right lower List.mem_cons_self⟩
  obtain ⟨between, rfl, rest⟩ := block_in_second split notFront
  have notBehind (excess : List (Block K D)) (whole : kid.blocks ++ excess = between)
      (isBack : Forest.blocks back ≠ []) : False := by
    obtain ⟨separator, isLast, notLess⟩ := last (by rintro rfl; exact isBack rfl)
    obtain ⟨others, pair, isPairs, rfl⟩ := lastKeyOf_eq_some isLast
    refine notLess (below pair (List.mem_append_left lower ?_))
    rw [← whole, pairsIn_append, pairsIn_append]
    refine List.mem_append_right _ (List.mem_append_left _ ?_)
    change pair ∈ kid.pairs
    rw [isPairs]
    exact List.mem_append_right others (List.mem_singleton_self pair)
  rcases List.append_eq_append_iff.mp rest with ⟨excess, isBetween, isBack⟩ | ⟨excess, isKid, isRest⟩
  · refine (notBehind excess isBetween.symm ?_).elim
    rw [isBack]
    simp
  · cases excess with
    | nil =>
        refine (notBehind [] (by simpa using isKid) ?_).elim
        rw [← List.nil_append (Forest.blocks back), ← isRest]
        simp
    | cons first excess =>
        rw [List.cons_append, List.cons.injEq] at isRest
        refine ⟨between, leaf, lower, value, upper, excess, isRest.1 ▸ isKid, isIter, ?_⟩
        intro pair member
        apply below pair
        rw [pairsIn_append, List.append_assoc]
        exact List.mem_append_right _ member

/-! ## Paths -/

/-- The ids of the leaves below some nodes. -/
def leafForest (forest : Forest K D) : List PageId :=
  forest.leaves.map fun leaf : Memory.Ptr => (leaf : PageId)

/-- A node above the first pair with the key. -/
structure OnPath (table : Table (Slots K D)) (bounds : Bounds) (key : K) (iter : Iterator)
    (leaves : List PageId) (height : Nat) (sub : Tree K D) : Prop where
  represents : table.Represents height sub
  formed : WellFormed bounds 1 height sub
  sorted : Sorted sub.pairs
  nodup : sub.foot.Nodup
  ids : ∀ ptr ∈ sub.foot, (table.store.file ptr).id = ptr
  first : FirstPair sub key iter
  within : leafPages sub <:+: leaves

/-- The keys of a node are cut where the search ends. -/
theorem keys_cut (ordered : table.Ordered ptr) (i : Nat) (inside : i < (table.keys ptr).length) :
    (table.keys ptr)[i] < key ↔ i < table.lowerSlot ptr key := by
  rw [getElem_keys inside]
  exact ordered.keyAt_lt_iff (length_keys ▸ inside)

/-- The next node of the path is the child that the search for the key selects. -/
theorem OnPath.below (path : OnPath table bounds key iter leaves (height + 1) (.inner ptr keys front))
    (positive : Positive bounds) : ∃ before kid back, front = before ++ kid :: back ∧
      before.length = table.lowerSlot ptr key ∧ OnPath table bounds key iter leaves height kid := by
  have ordered : table.Ordered ptr :=
    ordered_of_represents path.represents path.formed path.sorted
  obtain ⟨inUse, level, isKeys, childs, kidsRepresent⟩ := path.represents
  have split := List.take_append_drop (table.lowerSlot ptr key) keys
  have few : table.lowerSlot ptr key ≤ keys.length := isKeys ▸ List.countP_le_length
  have formed := path.formed
  rw [← split] at formed
  have frontBefore : ∀ stored ∈ keys.take (table.lowerSlot ptr key), stored < key := by
    intro stored member
    obtain ⟨i, inside, rfl⟩ := List.getElem_of_mem member
    rw [List.length_take, lt_min_iff] at inside
    rw [List.getElem_take]
    subst isKeys
    exact (keys_cut ordered i inside.2).mpr inside.1
  have backNot : ∀ stored ∈ keys.drop (table.lowerSlot ptr key), ¬ stored < key := by
    intro stored member
    obtain ⟨i, inside, rfl⟩ := List.getElem_of_mem member
    rw [List.length_drop] at inside
    rw [List.getElem_drop]
    subst isKeys
    rw [keys_cut ordered _ (by omega)]
    omega
  have sorted := path.sorted
  rw [Tree.pairs_inner] at sorted
  obtain ⟨before, kid, back, rfl, size, -, -, cut, last⟩ :=
    Memory.cut_kids (fun _ _ => lt_of_le_of_lt) formed sorted frontBefore backNot
  rw [List.length_take, min_eq_left few] at size
  refine ⟨before, kid, back, rfl, size, ?_⟩
  have among : kid ∈ before ++ kid :: back := List.mem_append_right before List.mem_cons_self
  have nodup := path.nodup
  rw [Tree.foot_inner, Multiset.nodup_cons] at nodup
  rw [Forest.pairs_append, Forest.pairs_cons] at sorted
  constructor
  · exact kidsRepresent kid among
  · exact positive.formed (path.formed.2.2.2.2 kid among)
  · exact (sorted_append.mp (sorted_append.mp sorted).2.1).1
  · exact Multiset.nodup_of_le (Forest.foot_le_of_mem among) nodup.2
  · intro page member
    apply path.ids page
    rw [Tree.foot_inner]
    exact Multiset.mem_cons_of_mem (Forest.mem_foot.mpr ⟨kid, among, member⟩)
  · exact path.first.below cut.1 last
  · refine List.IsInfix.trans ⟨leafForest before, leafForest back, ?_⟩ path.within
    simp [leafForest, leafPages]

/-! ## Neighbours -/

/-- A node of a tree of this height. -/
def IsNode (table : Table (Slots K D)) (bounds : Bounds) (height : Nat) (n : PageId) : Prop :=
  ∃ sub : Tree K D, n = sub.ptr ∧ table.Represents height sub ∧ WellFormed bounds 1 height sub

section Nodes

omit [LinearOrder K]

theorem IsNode.allocated {n : PageId} (node : IsNode table bounds height n) :
    table.store.Allocated n := by
  obtain ⟨sub, rfl, represents, -⟩ := node
  exact represents.allocated

theorem IsNode.level {n : PageId} (node : IsNode table bounds height n) :
    (table.nodeAt n).level = height := by
  obtain ⟨sub, rfl, represents, -⟩ := node
  exact represents.level_eq

theorem isNode_of_kid (represents : table.Represents (height + 1) (.inner ptr keys front))
    (formed : WellFormed bounds least (height + 1) (.inner ptr keys front))
    (positive : Positive bounds) (among : kid ∈ front) :
    IsNode table bounds height (kid.ptr : PageId) :=
  ⟨kid, rfl, represents.2.2.2.2 kid among, positive.formed (formed.2.2.2.2 kid among)⟩

theorem slotuse_eq (represents : table.Represents (height + 1) (.inner ptr keys front)) :
    (table.nodeAt ptr).slotuse = keys.length ∧ front.length = keys.length + 1 := by
  obtain ⟨-, -, isKeys, childs, -⟩ := represents
  have used : keys.length = (table.nodeAt ptr).slotuse := isKeys ▸ length_keys
  have counted := congrArg List.length childs
  rw [Table.childs, length_firstCells, List.length_map] at counted
  exact ⟨used.symm, by omega⟩

/-- The child in a slot is the node that the tree has there. -/
theorem childAt_eq
    (represents : table.Represents (height + 1) (.inner ptr keys (front ++ kid :: back))) :
    childAt table ptr front.length = kid.ptr := by
  obtain ⟨used, count⟩ := slotuse_eq represents
  rw [List.length_append, List.length_cons] at count
  have inside : front.length ≤ (table.nodeAt ptr).slotuse := by omega
  have stored := getElem?_childs inside
  rw [represents.2.2.2.1] at stored
  simpa using stored.symm

end Nodes

/-- What a descent is told of the nodes beside it. -/
structure Beside (table : Table (Slots K D)) (bounds : Bounds) (height : Nat) (place : Place) :
    Prop where
  left : ∀ n ∈ place.left, IsNode table bounds height n
  right : ∀ n ∈ place.right, IsNode table bounds height n
  leftparent : ∀ n ∈ place.leftparent, height < (table.nodeAt n).level

theorem not_mem_none {α : Type} {motive : α → Prop} : ∀ n ∈ (none : Option α), motive n := by
  intro n member
  cases member

section Places

variable (represents : table.Represents (height + 1) (.inner ptr keys (front ++ kid :: back)))
  (formed : WellFormed bounds least (height + 1) (.inner ptr keys (front ++ kid :: back)))
  (positive : Positive bounds) (beside : Beside table bounds (height + 1) place)

include represents formed positive beside

theorem leftOf_runs :
    Runs (leftOf (arrays K D) ptr front.length place) table fun found after => after = table ∧
      (∀ n ∈ found.1, IsNode table bounds height n) ∧
      (∀ n ∈ found.2, height < (table.nodeAt n).level) ∧
      found.1.isSome = (place.left.isSome || decide (front ≠ [])) ∧
      (front = [] → found.2 = place.leftparent) ∧
      ∀ before last, front = before ++ [last] → found = (some (last.ptr : PageId), some (ptr : PageId)) := by
  have inUse : table.store.Allocated ptr := represents.1
  have above : height < (table.nodeAt ptr).level := by
    rw [represents.2.1]
    exact Nat.lt_succ_self height
  have lower : ∀ n ∈ place.leftparent, height < (table.nodeAt n).level :=
    fun n member => (Nat.lt_succ_self height).trans (beside.leftparent n member)
  unfold leftOf
  rcases List.eq_nil_or_concat' front with rfl | ⟨before, last, rfl⟩
  · rw [List.length_nil, if_pos rfl]
    have never : ∀ before (last : Tree K D), ([] : Forest K D) ≠ before ++ [last] := by simp
    cases isLeft : place.left with
    | none =>
        refine (runs_pure ..).mpr ⟨rfl, not_mem_none, lower, rfl, fun _ => rfl, ?_⟩
        exact fun before last same => absurd same (never before last)
    | some left =>
        obtain ⟨other, rfl, stored, otherFormed⟩ := beside.left left isLeft
        obtain ⟨otherPtr, otherKeys, kids, rfl⟩ := otherFormed.exists_inner
        obtain ⟨used, count⟩ := slotuse_eq stored
        have some_ : 1 ≤ otherKeys.length := otherFormed.1
        obtain ⟨before, last, behind, rfl, size⟩ :=
          @Memory.exists_split_at _ kids (otherKeys.length - 1) (by omega)
        have node := isNode_of_kid stored otherFormed positive
          (List.mem_append_right before List.mem_cons_self : last ∈ before ++ last :: behind)
        have isChild : childAt table otherPtr (((table.nodeAt otherPtr).slotuse : Int) - 1) =
            last.ptr := by
          rw [← childAt_eq stored, used, size, Nat.cast_sub some_]
          rfl
        simp only [runs_bind, runs_slotuse, runs_getChild, runs_getNode, runs_pure, Tree.ptr_inner,
          isChild]
        refine ⟨stored.1, stored.1, node.allocated, trivial, ?_, lower, rfl, fun _ => trivial, ?_⟩
        · intro n member
          rw [Option.mem_some_iff] at member
          exact member ▸ node
        · exact fun before last same => absurd same (never before last)
  · have node := isNode_of_kid represents formed positive
      (List.mem_append_left _ (List.mem_append_right before List.mem_cons_self) :
        last ∈ (before ++ [last]) ++ kid :: back)
    have isChild : childAt table ptr ((((before ++ [last]).length : Nat) : Int) - 1) = last.ptr := by
      rw [List.append_assoc, List.singleton_append] at represents
      rw [← childAt_eq represents, List.length_append, List.length_singleton, Nat.cast_add]
      congr 1
      omega
    rw [if_neg (by simp)]
    simp only [runs_bind, runs_getChild, runs_getNode, runs_pure, isChild]
    refine ⟨inUse, node.allocated, trivial, ?_, ?_, by simp, by simp, ?_⟩
    · intro n member
      rw [Option.mem_some_iff] at member
      exact member ▸ node
    · intro n member
      rw [Option.mem_some_iff] at member
      exact member ▸ above
    · intro others other same
      have isLast := List.singleton_inj.mp (List.append_inj' same rfl).2
      rw [isLast]

theorem rightOf_runs :
    Runs (rightOf (arrays K D) ptr front.length place) table fun found after => after = table ∧
      (∀ n ∈ found.1, IsNode table bounds height n) ∧
      found.1.isSome = (place.right.isSome || decide (back ≠ [])) ∧
      ∀ next behind, back = next :: behind →
        found = (some (next.ptr : PageId), some (ptr : PageId)) := by
  have inUse : table.store.Allocated ptr := represents.1
  obtain ⟨used, count⟩ := slotuse_eq represents
  rw [List.length_append, List.length_cons] at count
  unfold rightOf
  refine (runs_bind ..).mpr ((runs_slotuse ..).mpr ⟨inUse, ?_⟩)
  rw [used]
  cases back with
  | nil =>
      rw [if_pos (by simpa using count)]
      have never : ∀ next (behind : Forest K D), ([] : Forest K D) ≠ next :: behind := by simp
      cases isRight : place.right with
      | none =>
          refine (runs_pure ..).mpr ⟨rfl, not_mem_none, rfl, ?_⟩
          exact fun next behind same => absurd same (never next behind)
      | some right =>
          obtain ⟨other, rfl, stored, otherFormed⟩ := beside.right right isRight
          obtain ⟨otherPtr, otherKeys, kids, rfl⟩ := otherFormed.exists_inner
          cases kids with
          | nil => cases (slotuse_eq stored).2
          | cons first kids =>
              have node := isNode_of_kid stored otherFormed positive
                (List.mem_cons_self : first ∈ first :: kids)
              have isChild : childAt table otherPtr 0 = first.ptr :=
                @childAt_eq K D table height first [] kids otherPtr otherKeys stored
              simp only [runs_bind, runs_getChild, runs_getNode, runs_pure, Tree.ptr_inner, isChild]
              refine ⟨stored.1, node.allocated, trivial, ?_, rfl, ?_⟩
              · intro n member
                rw [Option.mem_some_iff] at member
                exact member ▸ node
              · exact fun next behind same => absurd same (never next behind)
  | cons next behind =>
      have node := isNode_of_kid represents formed positive
        (List.mem_append_right front (List.mem_cons_of_mem kid List.mem_cons_self) :
          next ∈ front ++ kid :: next :: behind)
      have isChild : childAt table ptr ((front.length : Int) + 1) = next.ptr := by
        rw [← List.singleton_append, ← List.append_assoc] at represents
        rw [← childAt_eq represents, List.length_append, List.length_singleton, Nat.cast_add]
        rfl
      rw [List.length_cons] at count
      rw [if_neg (by omega)]
      simp only [runs_bind, runs_getChild, runs_getNode, runs_pure, isChild]
      refine ⟨inUse, node.allocated, trivial, ?_, by simp, ?_⟩
      · intro n member
        rw [Option.mem_some_iff] at member
        exact member ▸ node
      · intro other others same
        rw [(List.cons.inj same).1]

end Places

/-- What the recursive call for a child is told. -/
structure Descends (table : Table (Slots K D)) (bounds : Bounds) (height : Nat) (ptr : Memory.Ptr)
    (front : Forest K D) (kid : Tree K D) (back : Forest K D) (place below : Place) : Prop where
  beside : Beside table bounds height below
  placed : Placed table height (kid.ptr : PageId) below
  parentslot : below.parentslot = front.length
  left : below.left.isSome = (place.left.isSome || decide (front ≠ []))
  right : below.right.isSome = (place.right.isSome || decide (back ≠ []))
  adjacent : ∀ left right parent, Merging table height (kid.ptr : PageId) below left right parent →
    ∃ (before behind : Forest K D) (first second : Tree K D), front ++ kid :: back =
      before ++ first :: second :: behind ∧ before.length + 1 = max front.length 1 ∧
      left = first.ptr ∧ right = second.ptr

omit [LinearOrder K] in
private theorem ptr_ne {first second : Tree K D}
    (nodup : (Forest.foot (front ++ first :: second :: back)).Nodup) :
    (first.ptr : PageId) ≠ second.ptr := by
  have distinct := Multiset.coe_nodup.mp (Multiset.nodup_of_le (ptrs_le_foot _) nodup)
  rw [List.map_append, List.map_cons, List.map_cons] at distinct
  have rest := (List.nodup_append.mp distinct).2.1
  intro same
  exact (List.nodup_cons.mp rest).1 (Int.ofNat.inj same ▸ List.mem_cons_self)

theorem placeOf_runs
    (represents : table.Represents (height + 1) (.inner ptr keys (front ++ kid :: back)))
    (formed : WellFormed bounds 1 (height + 1) (.inner ptr keys (front ++ kid :: back)))
    (nodup : (Tree.inner ptr keys (front ++ kid :: back)).foot.Nodup)
    (positive : Positive bounds) (beside : Beside table bounds (height + 1) place) :
    Runs (placeOf (arrays K D) ptr front.length place) table fun found after => after = table ∧
      found.1 = kid.ptr ∧ Descends table bounds height ptr front kid back place found.2 := by
  have inUse : table.store.Allocated ptr := represents.1
  have level : (table.nodeAt ptr).level = height + 1 := represents.2.1
  obtain ⟨-, count⟩ := slotuse_eq represents
  have some_ : 1 ≤ keys.length := formed.1
  rw [List.length_append, List.length_cons] at count
  rw [Tree.foot_inner, Multiset.nodup_cons] at nodup
  have node := isNode_of_kid represents formed positive
    (List.mem_append_right front List.mem_cons_self : kid ∈ front ++ kid :: back)
  unfold placeOf
  refine (runs_bind ..).mpr ((leftOf_runs represents formed positive beside).mono ?_)
  intro found after reached
  obtain ⟨left, leftparent⟩ := found
  obtain ⟨rfl, leftNode, leftAbove, hasLeft, outer, sibling⟩ := reached
  refine (runs_bind ..).mpr ((rightOf_runs represents formed positive beside).mono ?_)
  intro found after reached
  obtain ⟨right, rightparent⟩ := found
  obtain ⟨rfl, rightNode, hasRight, rightSibling⟩ := reached
  simp only [runs_bind, runs_getChild, runs_getNode, runs_pure, childAt_eq represents]
  refine ⟨inUse, node.allocated, trivial, trivial, ?_⟩
  have parent : ∃ parent : PageId, some (ptr : PageId) = some parent ∧ after.store.Allocated parent ∧
      (after.nodeAt parent).level = height + 1 := ⟨ptr, rfl, inUse, level⟩
  have leftKnown : ∀ n ∈ left, after.store.Allocated n ∧ (after.nodeAt n).level = height :=
    fun n member => ⟨(leftNode n member).allocated, (leftNode n member).level⟩
  have rightKnown : ∀ n ∈ right, after.store.Allocated n ∧ (after.nodeAt n).level = height :=
    fun n member => ⟨(rightNode n member).allocated, (rightNode n member).level⟩
  rcases List.eq_nil_or_concat' front with rfl | ⟨before, last, rfl⟩
  · cases back with
    | nil =>
        simp only [List.length_nil] at count
        omega
    | cons next behind =>
        cases rightSibling next behind rfl
        have apart := @ptr_ne K D [] behind kid next nodup.2
        refine ⟨⟨leftNode, rightNode, leftAbove⟩, ⟨parent, leftKnown, rightKnown, .inr ⟨rfl, ?_, rfl,
          _, rfl, apart⟩⟩, rfl, hasLeft, hasRight, ?_⟩
        · intro ours
          have higher := beside.leftparent ptr ((outer rfl).symm.trans ours)
          rw [level] at higher
          exact lt_irrefl _ higher
        · intro first second parent merging
          rcases merging.side with ⟨later, -⟩ | ⟨-, isFirst, isSecond⟩
          · exact absurd rfl later
          · exact ⟨[], behind, kid, next, rfl, rfl, isFirst, (Option.some.inj isSecond).symm⟩
  · cases sibling before last rfl
    rw [List.append_assoc, List.singleton_append] at nodup
    refine ⟨⟨leftNode, rightNode, leftAbove⟩, ⟨parent, leftKnown, rightKnown, .inl ⟨by simp, rfl, _,
      rfl, ptr_ne nodup.2⟩⟩, rfl, hasLeft, hasRight, ?_⟩
    intro first second parent merging
    rcases merging.side with ⟨-, isSecond, isFirst⟩ | ⟨none_, -⟩
    · refine ⟨before, back, last, kid, by simp, by simp, (Option.some.inj isFirst).symm, isSecond⟩
    · exact absurd none_ (by simp)

end PersistentBTree.Tables.NullSafe
