import PersistentBTree.Memory.Invariant
import PersistentBTree.Memory.SplitProperties

/-! Insertion keeps a stored tree well formed and adds exactly one pair. A call
of `insert_descend` replaces a subtree by one or two subtrees; `Grown` says what
becomes of the memory and `Inserted` where the new pair is. -/

set_option autoImplicit false

namespace PersistentBTree.Memory

open Imperative Multimap

variable {K D : Type}

/-- What insertion relies on besides the shape of the subtree: its nodes are
distinct, addresses from `brk` on are unused, and its leaves are part of the
chain. -/
structure Ready (tree : BTree K D) (sub : Tree K D) (lefts rights : List Ptr) : Prop where
  nodup : sub.foot.Nodup
  unused : ∀ ptr, tree.brk ≤ ptr → tree.heap ptr = none
  chained : tree.Chained (lefts ++ sub.leaves ++ rights)
  distinct : (lefts ++ sub.leaves ++ rights).Nodup

/-- A subtree was replaced by a forest that uses its nodes and new ones. -/
structure Grown (before after : BTree K D) (height : Nat) (old : Tree K D) (forest : Forest K D)
    (lefts rights : List Ptr) : Prop where
  frame : before.Frame after {ptr | ptr ∈ old.foot ∨ before.brk ≤ ptr}
  stored : ∀ sub ∈ forest, after.Represents height sub
  brk : before.brk ≤ after.brk
  unused : ∀ ptr, after.brk ≤ ptr → after.heap ptr = none
  foot : ∃ fresh : Multiset Ptr, Forest.foot forest = old.foot + fresh ∧ fresh.Nodup ∧
    ∀ ptr, ptr ∈ fresh ↔ before.brk ≤ ptr ∧ ptr < after.brk
  chained : after.Chained (lefts ++ Forest.leaves forest ++ rights)
  mRoot : after.mRoot = before.mRoot
  itemcount : after.mStats.itemcount = before.mStats.itemcount
  leaves : after.mStats.leaves + old.leaves.length =
    before.mStats.leaves + (Forest.leaves forest).length
  innernodes : after.mStats.innernodes + old.innerCount =
    before.mStats.innernodes + Forest.innerCount forest

/-! ## What happens to the memory -/

private theorem ranges_append {start middle stop ptr : Ptr} (lower : start ≤ middle)
    (upper : middle ≤ stop) :
    (start ≤ ptr ∧ ptr < middle) ∨ (middle ≤ ptr ∧ ptr < stop) ↔ start ≤ ptr ∧ ptr < stop := by
  constructor
  · rintro (⟨above, below⟩ | ⟨above, below⟩)
    · exact ⟨above, Nat.lt_of_lt_of_le below upper⟩
    · exact ⟨Nat.le_trans lower above, below⟩
  · rintro ⟨above, below⟩
    exact (Nat.lt_or_ge ptr middle).imp (⟨above, ·⟩) (⟨·, below⟩)

private theorem range_succ {start ptr : Ptr} :
    ptr = start ↔ start ≤ ptr ∧ ptr < start + 1 := by
  constructor
  · rintro rfl
    exact ⟨Nat.le_refl _, Nat.lt_succ_self _⟩
  · rintro ⟨above, below⟩
    exact Nat.le_antisymm (Nat.le_of_lt_succ below) above

namespace Ready

variable {tree : BTree K D} {height : Nat} {ptr : Ptr} {pairs : List (K × D)} {keys : List K}
  {front back : Forest K D} {kid : Tree K D} {lefts rights : List Ptr}

/-- The part of the tree that a recursive call works on. -/
theorem child (ready : Ready tree (.inner ptr keys (front ++ kid :: back)) lefts rights) :
    Ready tree kid (lefts ++ Forest.leaves front) (Forest.leaves back ++ rights) where
  nodup := by
    have nodup := ready.nodup
    simp only [Tree.foot_inner, Forest.foot_append, Forest.foot_cons, Multiset.nodup_cons,
      Multiset.nodup_add] at nodup
    exact nodup.2.2.1.1
  unused := ready.unused
  chained := by simpa using ready.chained
  distinct := by simpa using ready.distinct

end Ready

namespace Grown

variable {before after : BTree K D} {height : Nat} {ptr : Ptr} {lefts rights : List Ptr}

theorem of_setLeaf {old pairs : List (K × D)} (ready : Ready before (.leaf ptr old) lefts rights)
    {node node' : LeafNode K D} (found : before.heap ptr = some (.leaf node))
    (links : node'.links = node.links) (stores : node'.Stores before.sizes.leafslotmax pairs) :
    Grown before (before.setNode ptr (some (.leaf node'))) 0 (.leaf ptr old) [.leaf ptr pairs]
      lefts rights where
  frame := (BTree.Frame.setNode before ptr _).mono (by simp)
  stored := by simpa using ⟨node', by simp, stores⟩
  brk := Nat.le_refl _
  unused other above := by
    have isNone := ready.unused other above
    rw [BTree.heap_setNode_of_ne _ _ (by rintro rfl; simp [isNone] at found)]
    exact isNone
  foot := ⟨0, by simp⟩
  chained := by
    have kept : (before.setNode ptr (some (.leaf node'))).Chained
        (lefts ++ Tree.leaves (.leaf ptr old) ++ rights) := by
      refine ready.chained.congr (fun other _ => ?_) rfl rfl
      by_cases same : other = ptr
      · subst same
        rw [BTree.links_setNode_leaf, links, BTree.links_of_leaf found]
      · exact BTree.links_setNode_of_ne _ _ same
    simpa using kept
  mRoot := rfl
  itemcount := rfl
  leaves := by simp
  innernodes := by simp

theorem of_leafSplit {old front back : List (K × D)}
    (ready : Ready before (.leaf ptr old) lefts rights) (stored : before.heap ptr ≠ none)
    (split : LeafSplit before after ptr front back) :
    Grown before after 0 (.leaf ptr old) [.leaf ptr front, .leaf before.brk back] lefts
      rights where
  frame := split.frame.mono (by simp)
  stored := by simpa using ⟨split.left, split.right⟩
  brk := split.brk ▸ Nat.le_succ _
  unused other above := by
    rw [split.brk] at above
    refine split.frame.heap_eq_none ?_ (ready.unused other (Nat.le_of_succ_le above))
    rintro (rfl | rfl)
    · exact stored.elim (ready.unused other (Nat.le_of_succ_le above))
    · exact Nat.not_succ_le_self _ above
  foot := ⟨{before.brk}, by simp, by simp, by simp [split.brk, range_succ]⟩
  chained := by
    simpa using split.chained lefts rights (by simpa using ready.chained)
      (by simpa using ready.distinct)
  mRoot := split.mRoot
  itemcount := by rw [split.mStats]
  leaves := by simp [split.mStats, Nat.add_assoc]
  innernodes := by simp [split.mStats]

end Grown

/-- Only the inner node at `ptr` changed, and new inner nodes were allocated. -/
structure Retouched (before after : BTree K D) (ptr : Ptr) (fresh : Multiset Ptr) : Prop where
  frame : before.Frame after {other | other = ptr ∨ other ∈ fresh}
  links : ∀ other, after.links other = before.links other
  mRoot : after.mRoot = before.mRoot
  mHeadleaf : after.mHeadleaf = before.mHeadleaf
  mTailleaf : after.mTailleaf = before.mTailleaf
  brk : before.brk ≤ after.brk
  nodup : fresh.Nodup
  range : ∀ other, other ∈ fresh ↔ before.brk ≤ other ∧ other < after.brk
  mStats : after.mStats =
    { before.mStats with innernodes := before.mStats.innernodes + fresh.card }

namespace Retouched

variable {before after : BTree K D} {ptr : Ptr}

theorem refl (tree : BTree K D) (ptr : Ptr) : Retouched tree tree ptr 0 :=
  ⟨⟨rfl, rfl, fun _ _ => rfl⟩, fun _ => rfl, rfl, rfl, rfl, Nat.le_refl _, by simp, by simp,
    by simp⟩

theorem of_setInner {level : Nat} {keys : List K} {children : List Ptr}
    (stored : before.InnerAt ptr level keys children) (node : InnerNode K) :
    Retouched before (before.setNode ptr (some (.inner node))) ptr 0 :=
  ⟨(BTree.Frame.setNode before ptr _).mono (by simp),
    BTree.links_setNode_inner stored.links_eq_none, rfl, rfl, rfl, Nat.le_refl _, by simp, by simp,
    by simp⟩

theorem of_split {level : Nat} {leftKeys rightKeys : List K}
    {leftChildren rightChildren : List Ptr}
    (split : InnerSplit before after ptr level leftKeys rightKeys leftChildren rightChildren) :
    Retouched before after ptr {before.brk} :=
  ⟨split.frame.mono (by simp), split.links, split.mRoot, split.mHeadleaf, split.mTailleaf,
    split.brk ▸ Nat.le_succ _, by simp, by simp [split.brk, range_succ],
    by simp [split.mStats]⟩

end Retouched

namespace Grown

variable {before middle after : BTree K D} {height : Nat} {ptr : Ptr} {keys : List K}
  {front back forest whole : Forest K D} {kid : Tree K D} {lefts rights : List Ptr}

theorem allocated {old : Tree K D}
    (grown : Grown before after height old forest lefts rights)
    (all : ∀ ptr, before.heap ptr ≠ none → ptr ∈ old.foot)
    (isStored : after.heap ptr ≠ none) : ptr ∈ Forest.foot forest := by
  obtain ⟨fresh, isFoot, -, range⟩ := grown.foot
  rw [isFoot, Multiset.mem_add, range]
  by_cases within : ptr ∈ old.foot
  · exact .inl within
  · refine .inr ⟨?_, ?_⟩
    · by_contra below
      refine isStored (grown.frame.heap_eq_none ?_ (by_contra fun other => within (all ptr other)))
      rintro (inOld | above)
      · exact within inOld
      · exact below above
    · by_contra above
      exact isStored (grown.unused ptr (Nat.le_of_not_lt above))

theorem foot_lt_brk {old : Tree K D} (grown : Grown before after height old forest lefts rights)
    (stored : before.Represents height old)
    (unused : ∀ ptr, before.brk ≤ ptr → before.heap ptr = none) {other : Ptr}
    (member : other ∈ Forest.foot forest) : other < after.brk := by
  obtain ⟨fresh, isFoot, -, range⟩ := grown.foot
  rw [isFoot, Multiset.mem_add] at member
  rcases member with inOld | isFresh
  · exact Nat.lt_of_lt_of_le (stored.lt_brk unused inOld) grown.brk
  · exact ((range other).mp isFresh).2

section Above

variable (ready : Ready before (.inner ptr keys (front ++ kid :: back)) lefts rights)
  (stored : before.Represents (height + 1) (.inner ptr keys (front ++ kid :: back)))

include ready stored

theorem untouched {other : Ptr}
    (outside : other = ptr ∨ other ∈ Forest.foot front ∨ other ∈ Forest.foot back) :
    other ∉ {other | other ∈ kid.foot ∨ before.brk ≤ other} := by
  have nodup := ready.nodup
  simp only [Tree.foot_inner, Forest.foot_append, Forest.foot_cons, Multiset.nodup_cons,
    Multiset.nodup_add, Multiset.mem_add, not_or, Multiset.disjoint_add_right] at nodup
  have old : other < before.brk := by
    refine stored.lt_brk ready.unused ?_
    simp only [Tree.foot_inner, Forest.foot_append, Forest.foot_cons, Multiset.mem_cons,
      Multiset.mem_add]
    tauto
  rintro (within | above)
  · rcases outside with rfl | inFront | inBack
    · exact nodup.1.2.1 within
    · exact Multiset.disjoint_left.mp nodup.2.2.2.1 inFront within
    · exact Multiset.disjoint_left.mp nodup.2.2.1.2.2 within inBack
  · exact Nat.not_lt_of_le above old

variable (grown : Grown before middle height kid forest (lefts ++ Forest.leaves front)
  (Forest.leaves back ++ rights))

include grown

theorem notMem_foot : ptr ∉ Forest.foot (front ++ forest ++ back) := by
  have nodup := ready.nodup
  simp only [Tree.foot_inner, Forest.foot_append, Forest.foot_cons, Multiset.nodup_cons,
    Multiset.mem_add, not_or] at nodup
  obtain ⟨fresh, isFoot, -, range⟩ := grown.foot
  have old : ptr < before.brk := stored.lt_brk ready.unused (Tree.ptr_mem_foot _)
  simp only [Forest.foot_append, isFoot, Multiset.mem_add, not_or]
  exact ⟨⟨nodup.1.1, nodup.1.2.1, fun isFresh => Nat.not_lt_of_le ((range ptr).mp isFresh).1 old⟩,
    nodup.1.2.2⟩

/-- The children are stored, and stay stored when the node above is changed. -/
theorem kids_stored {fresh : Multiset Ptr} (touched : Retouched middle after ptr fresh) :
    ∀ sub ∈ front ++ forest ++ back, after.Represents height sub := by
  have inMiddle : ∀ sub ∈ front ++ forest ++ back, middle.Represents height sub := by
    intro sub member
    simp only [List.mem_append, or_assoc] at member
    rcases member with inFront | inForest | inBack
    · refine grown.frame.represents (fun other within => ?_)
        (stored.2 sub (List.mem_append_left _ inFront))
      exact untouched ready stored (.inr (.inl (Forest.mem_foot.mpr ⟨sub, inFront, within⟩)))
    · exact grown.stored sub inForest
    · refine grown.frame.represents (fun other within => ?_)
        (stored.2 sub (List.mem_append_right _ (List.mem_cons_of_mem _ inBack)))
      exact untouched ready stored (.inr (.inr (Forest.mem_foot.mpr ⟨sub, inBack, within⟩)))
  intro sub member
  refine touched.frame.represents (fun other within => ?_) (inMiddle sub member)
  rintro (rfl | isFresh)
  · exact notMem_foot ready stored grown (Forest.mem_foot.mpr ⟨sub, member, within⟩)
  · exact Nat.not_lt_of_le ((touched.range other).mp isFresh).1
      ((inMiddle sub member).lt_brk grown.unused within)

theorem above {fresh : Multiset Ptr} (touched : Retouched middle after ptr fresh)
    (wholeStored : ∀ sub ∈ whole, after.Represents (height + 1) sub)
    (wholeFoot : Forest.foot whole = ptr ::ₘ Forest.foot (front ++ forest ++ back) + fresh)
    (wholeLeaves : Forest.leaves whole = Forest.leaves (front ++ forest ++ back))
    (wholeInner : Forest.innerCount whole =
      1 + Forest.innerCount (front ++ forest ++ back) + fresh.card) :
    Grown before after (height + 1) (.inner ptr keys (front ++ kid :: back)) whole lefts
      rights where
  frame := by
    refine (grown.frame.mono ?_).trans (touched.frame.mono ?_)
    · rintro other (within | above)
      · exact .inl (by simp [within])
      · exact .inr above
    · rintro other (rfl | isFresh)
      · exact .inl (by simp)
      · exact .inr (Nat.le_trans grown.brk ((touched.range other).mp isFresh).1)
  stored := wholeStored
  brk := Nat.le_trans grown.brk touched.brk
  unused other above := by
    refine touched.frame.heap_eq_none ?_ (grown.unused other (Nat.le_trans touched.brk above))
    rintro (rfl | isFresh)
    · have old := stored.lt_brk ready.unused (Tree.ptr_mem_foot _)
      exact Nat.not_lt_of_le (Nat.le_trans (Nat.le_trans grown.brk touched.brk) above) old
    · exact Nat.not_lt_of_le above ((touched.range other).mp isFresh).2
  foot := by
    obtain ⟨new, isFoot, nodup, range⟩ := grown.foot
    refine ⟨new + fresh, ?_, ?_, ?_⟩
    · rw [wholeFoot]
      simp only [Forest.foot_append, Tree.foot_inner, Forest.foot_cons, isFoot, ←
        Multiset.singleton_add]
      abel
    · refine Multiset.nodup_add.mpr ⟨nodup, touched.nodup, ?_⟩
      refine Multiset.disjoint_left.mpr fun {other} isNew isFresh => ?_
      exact Nat.not_lt_of_le ((touched.range other).mp isFresh).1 ((range other).mp isNew).2
    · intro other
      rw [Multiset.mem_add, range, touched.range]
      exact ranges_append grown.brk touched.brk
  chained := by
    have kept := grown.chained.congr (fun other _ => touched.links other) touched.mHeadleaf
      touched.mTailleaf
    rw [wholeLeaves]
    simpa using kept
  mRoot := touched.mRoot.trans grown.mRoot
  itemcount := by rw [touched.mStats]; exact grown.itemcount
  leaves := by
    have below := grown.leaves
    rw [touched.mStats, wholeLeaves]
    simp only [Tree.leaves_inner, Forest.leaves_append, Forest.leaves_cons, List.length_append]
    omega
  innernodes := by
    have below := grown.innernodes
    rw [touched.mStats, wholeInner]
    simp only [Tree.innerCount_inner, Forest.innerCount_append, Forest.innerCount_cons]
    omega

end Above

end Grown

/-! ## The descent -/

section Descent

variable [LinearOrder K]

/-- The sizes allow a split to fill both halves within the bounds. -/
structure Bounds.Splits (bounds : Bounds) (sizes : NodeSizes) : Prop where
  leafMax : bounds.leafMax = sizes.leafslotmax
  innerMax : bounds.innerMax = sizes.innerslotmax
  leafLarge : 2 ≤ sizes.leafslotmax
  innerLarge : 2 ≤ sizes.innerslotmax
  positive : 1 ≤ bounds.leafMin
  leafMin : bounds.leafMin ≤ sizes.leafslotmax / 2
  innerMin : bounds.innerMin ≤ sizes.innerslotmax / 2

/-- The trees that `insert_descend` leaves in place of `old`: one, or two in place of
a full one, with the last key of the first one as the separator to add above. -/
def Insertion.Shape (result : Insertion K) (bounds : Bounds) (least height : Nat)
    (old : Tree K D) (forest : Forest K D) : Prop :=
  match result.splitnode with
  | none => ∃ sub, forest = [sub] ∧ sub.ptr = old.ptr ∧ WellFormed bounds least height sub
  | some splitnode => old.used = bounds.greatest height ∧
      ∃ left right, forest = [left, right] ∧ left.ptr = old.ptr ∧ right.ptr = splitnode ∧
        left.lastKey? = some result.splitkey ∧
        WellFormed bounds (bounds.least height) height left ∧
        WellFormed bounds (bounds.least height) height right

/-- The new pair stands right before the first key that is not less. -/
def Insertion.Places (result : Insertion K) (old : List (K × D)) (blocks : List (Block K D))
    (key : K) (value : D) : Prop :=
  result.inserted = true ∧ ∃ front back, old = front ++ back ∧ Cut (· < key) front back ∧
    Denotes blocks result.iter front (key, value) back

variable [Inhabited K] {tree : BTree K D} {bounds : Bounds} {height least : Nat}
  {lefts rights : List Ptr} {key : K} {value : D}

private theorem insertDescend_leaf {ptr : Ptr} {pairs : List (K × D)} {node : LeafNode K D}
    {fuel : Nat} (splits : bounds.Splits tree.sizes) (found : tree.heap ptr = some (.leaf node))
    (stores : node.Stores tree.sizes.leafslotmax pairs)
    (wellFormed : WellFormed bounds least 0 (.leaf ptr pairs)) (sorted : Sorted pairs)
    (finds : Finds pairs.length (pairs.countP (·.1 < key)))
    (ready : Ready tree (.leaf ptr pairs) lefts rights) :
    Runs (insertDescend (fuel + 1) ptr key value) tree fun result after =>
      ∃ forest, Grown tree after 0 (.leaf ptr pairs) forest lefts rights ∧
        result.Shape bounds least 0 (.leaf ptr pairs) forest ∧
        result.Places pairs (Forest.blocks forest) key value := by
  simp only [insertDescend, runs_bind, runs_getNode]
  refine ⟨_, found, ?_⟩
  simp only [runs_bind]
  have count : (pairs.map Prod.fst).length = pairs.length := List.length_map _
  rw [stores.used, ← count]
  have findsKey : Finds (pairs.map Prod.fst).length ((pairs.map Prod.fst).countP (· < key)) := by
    rw [List.countP_map, List.length_map]
    exact finds
  refine findLower_runs stores.keys (List.pairwise_map.mpr sorted) findsKey
    fun frontKeys backKeys split lower upper => ?_
  obtain ⟨front, back, rfl, rfl, rfl, cut⟩ := cut_pairs split lower upper
  have stored : tree.heap ptr ≠ none := by simp [found]
  have fits : front.length + back.length ≤ tree.sizes.leafslotmax := by
    have enough : (front ++ back).length ≤ bounds.leafMax := wellFormed.2
    rwa [List.length_append, splits.leafMax] at enough
  have least_le : least ≤ front.length + back.length := by
    have enough : least ≤ (front ++ back).length := wellFormed.1
    rwa [List.length_append] at enough
  have leafMin := splits.leafMin
  have leafMax := splits.leafMax
  have large := splits.leafLarge
  rw [List.length_map]
  refine insertIntoLeaf_runs ⟨node, found, stores⟩ splits.leafLarge fits
    (by simpa using ready.chained) (by simpa using ready.distinct)
    (ready.unused _ (Nat.le_refl _)) ?_ ?_ ?_
  · intro node node' found links stores' room splitkey
    refine ⟨_, Grown.of_setLeaf ready found links stores', ⟨_, rfl, rfl, ?_⟩, rfl, front, back,
      rfl, cut, [], ptr, front, back, [], by simp, rfl, by simp, by simp⟩
    simp only [WellFormed, List.length_append, List.length_cons]
    omega
  · intro after newkey moved staying isBack isSplit size full last
    subst isBack
    simp only [List.length_append] at full
    have isFull : (Tree.leaf ptr (front ++ (staying ++ moved))).used = bounds.greatest 0 := by
      simp only [Tree.used_leaf, Bounds.greatest, List.length_append]
      omega
    refine ⟨_, Grown.of_leafSplit ready stored isSplit,
      ⟨isFull, _, _, rfl, rfl, rfl, ?_, ?_, ?_⟩, rfl, front, staying ++ moved, rfl, cut, [], ptr,
      front, staying, [(tree.brk, moved)], by simp, rfl, by simp, by simp⟩
    · simpa [Tree.lastKey?_eq] using last
    · simp only [WellFormed, Bounds.least, List.length_append, List.length_cons]
      omega
    · simp only [WellFormed, Bounds.least]
      omega
  · intro after newkey staying moved isFront isSplit size full last
    subst isFront
    simp only [List.length_append] at full
    have isFull : (Tree.leaf ptr (staying ++ moved ++ back)).used = bounds.greatest 0 := by
      simp only [Tree.used_leaf, Bounds.greatest, List.length_append]
      omega
    refine ⟨_, Grown.of_leafSplit ready stored isSplit,
      ⟨isFull, _, _, rfl, rfl, rfl, ?_, ?_, ?_⟩, rfl, staying ++ moved, back, rfl, cut,
      [(ptr, staying)], tree.brk, moved, back, [], by simp, rfl, by simp, by simp⟩
    · simpa [Tree.lastKey?_eq] using last
    · simp only [WellFormed, Bounds.least]
      omega
    · simp only [WellFormed, Bounds.least, List.length_append, List.length_cons]
      omega

omit [Inhabited K] in
/-- Seen from the node above, the pair is placed among the pairs of all its
children. -/
private theorem Insertion.Places.extend {result upper : Insertion K} {old : List (K × D)}
    {blocks : List (Block K D)} (places : result.Places old blocks key value)
    (front back : Forest K D) (iter : upper.iter = result.iter)
    (inserted : upper.inserted = result.inserted)
    (before : ∀ pair ∈ Forest.pairs front, pair.1 < key)
    (behind : ∀ pair ∈ Forest.pairs back, ¬ pair.1 < key) :
    upper.Places (Forest.pairs front ++ old ++ Forest.pairs back)
      (Forest.blocks front ++ blocks ++ Forest.blocks back) key value := by
  obtain ⟨isInserted, lower, higher, rfl, cut, denotes⟩ := places
  refine ⟨inserted.trans isInserted, Forest.pairs front ++ lower, higher ++ Forest.pairs back,
    by simp, ⟨?_, ?_⟩, ?_⟩
  · intro pair member
    exact (List.mem_append.mp member).elim (before pair) (cut.1 pair)
  · intro pair member
    exact (List.mem_append.mp member).elim (cut.2 pair) (behind pair)
  · rw [iter]
    exact denotes.extend _ _

omit [Inhabited K] in
/-- Below a child that has a separator the last key stays the last one. -/
private theorem Insertion.Places.lastKey {result : Insertion K} {old : List (K × D)}
    {forest : Forest K D} (places : result.Places old (Forest.blocks forest) key value)
    {last : K} (isLast : lastKeyOf old = some last) (notLess : ¬ last < key) :
    lastKeyOf (Forest.pairs forest) = some last := by
  obtain ⟨-, lower, higher, rfl, cut, denotes⟩ := places
  have some_ : higher ≠ [] := cut.back_ne_nil isLast notLess
  rw [Forest.pairs, denotes.pairsIn_eq, lastKeyOf_append (by simp), ← List.singleton_append,
    lastKeyOf_append some_, ← lastKeyOf_append some_, isLast]

theorem insertDescend_runs {sub : Tree K D} (splits : bounds.Splits tree.sizes)
    (inRange : height ≠ 0 → tree.sizes.innerslotmax + 1 < 2 ^ 32)
    (stored : tree.Represents height sub) (wellFormed : WellFormed bounds least height sub)
    (sorted : Sorted sub.pairs) (reaches : sub.Reaches key) (ready : Ready tree sub lefts rights) :
    Runs (insertDescend (height + 1) sub.ptr key value) tree fun result after =>
      ∃ forest, Grown tree after height sub forest lefts rights ∧
        result.Shape bounds least height sub forest ∧
        result.Places sub.pairs (Forest.blocks forest) key value := by
  induction height generalizing sub least lefts rights with
  | zero =>
      obtain ⟨ptr, pairs, rfl⟩ := stored.exists_leaf
      obtain ⟨node, found, stores⟩ := stored
      rw [Tree.pairs_leaf] at sorted ⊢
      cases reaches with
      | leaf finds => exact insertDescend_leaf splits found stores wellFormed sorted finds ready
  | succ height ih =>
      obtain ⟨ptr, keys, kids, rfl⟩ := stored.exists_inner
      obtain ⟨node, found, isLevel, stores⟩ := stored.1
      rw [Tree.pairs_inner] at sorted
      rw [insertDescend]
      simp only [runs_bind, runs_getNode, Tree.ptr_inner]
      refine ⟨_, found, ?_⟩
      simp only [runs_bind]
      rw [stores.used]
      obtain ⟨finds, reachesBelow⟩ : Finds keys.length (keys.countP (· < key)) ∧
          ∀ front kid back, kids = front ++ kid :: back →
            front.length = keys.countP (· < key) → Tree.Reaches key kid := by
        cases reaches with
        | inner finds below => exact ⟨finds, below⟩
      refine findLower_runs stores.keys (separators_sorted wellFormed.2.2.2.1 sorted) finds
        fun frontKeys backKeys split lower upper => ?_
      subst split
      obtain ⟨front, kid, back, rfl, aligned, frontMatch, backMatch, cut, lastBehind⟩ :=
        cut_kids (fun _ _ => lt_of_le_of_lt) wellFormed sorted lower upper
      have reachesKid := reachesBelow front kid back rfl
        (aligned.trans (countP_of_cut lower upper).symm)
      have kidMember : kid ∈ front ++ kid :: back := by simp
      have children : node.childid.Holds (front.map Tree.ptr ++ kid.ptr :: back.map Tree.ptr) := by
        simpa using stores.children
      simp only [runs_readSlot]
      refine ⟨kid.ptr, by simpa [aligned] using children.read, ?_⟩
      have kidSorted : Sorted kid.pairs := by
        simp only [Forest.pairs_append, Forest.pairs_cons] at sorted
        exact (sorted_append.mp (sorted_append.mp sorted).2.1).1
      have wide := inRange (Nat.succ_ne_zero height)
      refine (ih (fun _ => wide) (stored.2 kid kidMember) (wellFormed.2.2.2.2 kid kidMember)
        kidSorted reachesKid ready.child).mono ?_
      rintro result middle ⟨forest, grown, shape, places⟩
      have nodeKept : middle.InnerAt ptr (height + 1) (frontKeys ++ backKeys)
          (front.map Tree.ptr ++ kid.ptr :: back.map Tree.ptr) := by
        refine grown.frame.innerAt (Grown.untouched ready stored (.inl rfl)) ?_
        simpa using stored.1
      obtain ⟨least_le, used_le, count, -, below⟩ := wellFormed
      rw [List.length_append] at least_le used_le
      have placesAbove : ∀ upper : Insertion K, upper.iter = result.iter →
          upper.inserted = result.inserted →
          upper.Places (Forest.pairs (front ++ kid :: back))
            (Forest.blocks (front ++ forest ++ back)) key value := by
        intro upper iter inserted
        simpa using places.extend front back iter inserted cut.1 cut.2
      have lastKept : back ≠ [] → lastKeyOf (Forest.pairs forest) = kid.lastKey? := by
        intro more
        obtain ⟨last, isLast, notLess⟩ := lastBehind more
        rw [isLast]
        exact places.lastKey isLast notLess
      cases isSplit : result.splitnode with
      | none =>
          rw [Insertion.Shape, isSplit] at shape
          obtain ⟨new, rfl, samePtr, newFormed⟩ := shape
          have touched := Retouched.refl middle ptr
          have kidsStored := grown.kids_stored ready stored touched
          simp only [runs_pure]
          refine ⟨[.inner ptr (frontKeys ++ backKeys) (front ++ new :: back)],
            grown.above ready stored touched ?_ (by simp) (by simp) (by simp),
            ⟨_, rfl, rfl, ?_⟩, ?_⟩
          · intro sub member
            rw [List.mem_singleton] at member
            subst member
            refine ⟨?_, by simpa using kidsStored⟩
            simpa [samePtr] using nodeKept
          · refine ⟨by simpa using least_le, by simpa using used_le, by simpa using count, ?_, ?_⟩
            · rw [List.map_append, separators_append, frontMatch, backMatch]
              rw [separators_congr fun more => by simpa [Tree.lastKey?_eq] using (lastKept more).symm]
            · intro other member
              rcases List.mem_append.mp member with inFront | inBack
              · exact below other (by simp [inFront])
              · rcases List.mem_cons.mp inBack with rfl | inBack
                · exact newFormed
                · exact below other (by simp [inBack])
          · simpa using placesAbove { result with splitkey := default, splitnode := none } rfl rfl
      | some splitnode =>
          rw [Insertion.Shape, isSplit] at shape
          obtain ⟨-, left, right, rfl, leftPtr, rightPtr, leftLast, leftFormed, rightFormed⟩ := shape
          have matching : (frontKeys ++ result.splitkey :: backKeys).map some =
              separators (front ++ left :: right :: back) := by
            have rightNonempty := rightFormed.pairs_ne_nil splits.positive
            rw [List.map_append, List.map_cons, separators_append, separators_cons_cons, frontMatch,
              backMatch, leftLast]
            rw [separators_congr fun more => ?_]
            rw [← lastKept more, Tree.lastKey?_eq]
            simp [lastKeyOf_append rightNonempty]
          have formed : ∀ sub ∈ front ++ left :: right :: back,
              WellFormed bounds (bounds.least height) height sub := by
            intro sub member
            simp only [List.mem_append, List.mem_cons] at member
            rcases member with inFront | rfl | rfl | inBack
            · exact below sub (by simp [inFront])
            · exact leftFormed
            · exact rightFormed
            · exact below sub (by simp [inBack])
          have innerLarge := splits.innerLarge
          have innerMax := splits.innerMax
          have innerMin := splits.innerMin
          rw [← leftPtr] at nodeKept
          refine insertSplitChild_runs nodeKept (Nat.succ_ne_zero _) (by simpa using aligned)
            (by rwa [grown.frame.sizes]) (by rwa [grown.frame.sizes])
            (by rw [grown.frame.sizes]; omega) (grown.unused _ (Nat.le_refl _)) ?_ ?_
          · intro node' isLevel' stores' room
            rw [grown.frame.sizes] at room
            have touched := Retouched.of_setInner nodeKept node'
            have kidsStored := grown.kids_stored ready stored touched
            refine ⟨[.inner ptr (frontKeys ++ result.splitkey :: backKeys)
                (front ++ left :: right :: back)],
              grown.above ready stored touched ?_ (by simp) (by simp) (by simp),
              ⟨_, rfl, rfl, ?_⟩, ?_⟩
            · intro sub member
              rw [List.mem_singleton] at member
              subst member
              refine ⟨⟨node', by simp, isLevel', ?_⟩, by simpa using kidsStored⟩
              simpa [rightPtr] using stores'
            · simp only [List.length_append, List.length_cons] at count
              refine ⟨?_, ?_, ?_, matching, formed⟩
              all_goals
                simp only [List.length_append, List.length_cons]
                omega
            · simpa using placesAbove { result with splitkey := default, splitnode := none } rfl
                rfl
          · intro after newkey leftKeys rightKeys leftChildren rightChildren halves keysSplit
              childrenSplit childCount leftFull rightFull total
            rw [grown.frame.sizes] at leftFull rightFull total
            have touched := Retouched.of_split halves
            have kidsStored := grown.kids_stored ready stored touched
            obtain ⟨lower, upper, kidsSplit, rfl, rfl⟩ : ∃ lower upper,
                front ++ left :: right :: back = lower ++ upper ∧
                  lower.map Tree.ptr = leftChildren ∧ upper.map Tree.ptr = rightChildren := by
              refine List.map_eq_append_iff.mp ?_
              simpa [rightPtr] using childrenSplit
            rw [keysSplit, kidsSplit] at matching
            rw [kidsSplit] at formed
            have flat : front ++ [left, right] ++ back = lower ++ upper := by simpa using kidsSplit
            rw [flat] at kidsStored placesAbove
            rw [List.length_map] at childCount
            have upperCount : upper.length = rightKeys.length + 1 := by
              obtain ⟨_, _, _, rightStores⟩ := halves.right
              simpa using rightStores.count
            obtain ⟨before, last, isLower, lastIs, leftMatch, rightMatch⟩ :=
              separators_halves matching childCount (by rintro rfl; simp at upperCount)
            have isFull : (Tree.inner ptr (frontKeys ++ backKeys) (front ++ kid :: back)).used =
                bounds.greatest (height + 1) := by
              have lengths := congrArg List.length keysSplit
              simp only [List.length_append, List.length_cons] at lengths
              simp only [Tree.used_inner, Bounds.greatest, List.length_append]
              omega
            refine ⟨[.inner ptr leftKeys lower, .inner middle.brk rightKeys upper],
              grown.above ready stored touched ?_ ?_ ?_ ?_,
              ⟨isFull, _, _, rfl, rfl, rfl, ?_, ?_, ?_⟩, ?_⟩
            · intro sub member
              simp only [List.mem_cons, List.not_mem_nil, or_false] at member
              rcases member with rfl | rfl
              · exact ⟨halves.left, fun kid member => kidsStored kid (by simp [member])⟩
              · exact ⟨halves.right, fun kid member => kidsStored kid (by simp [member])⟩
            · rw [flat]
              simp only [Forest.foot_cons, Forest.foot_nil, Tree.foot_inner, Forest.foot_append,
                ← Multiset.singleton_add]
              abel
            · rw [flat]
              simp
            · rw [flat]
              simp only [Forest.innerCount_cons, Forest.innerCount_nil, Tree.innerCount_inner,
                Forest.innerCount_append, Multiset.card_singleton]
              omega
            · subst isLower
              rw [lastKey?_inner ((formed last (by simp)).pairs_ne_nil splits.positive), lastIs]
            · exact ⟨by simp only [Bounds.least]; omega, by omega, childCount, leftMatch,
                fun kid member => formed kid (by simp [member])⟩
            · exact ⟨by simp only [Bounds.least]; omega, by omega, upperCount, rightMatch,
                fun kid member => formed kid (by simp [member])⟩
            · simpa using placesAbove { result with
                splitkey := newkey, splitnode := some middle.brk } rfl rfl

/-! ## The new root -/

/-- The key can be inserted: every search on the way down ends at the right slot, and
no inner node is needed or the number of its children is in range. -/
structure Tree.Takes (sub : Tree K D) (key : K) (sizes : NodeSizes) : Prop where
  reaches : sub.Reaches key
  room : (∃ ptr pairs, sub = .leaf ptr pairs ∧ pairs.length < sizes.leafslotmax) ∨
    sizes.innerslotmax + 1 < 2 ^ 32

omit [LinearOrder K] [Inhabited K] in
/-- The new root above the two halves of the old one. -/
theorem growRoot_runs {left right : Tree K D} {newkey : K} {post : Unit → BTree K D → Prop}
    (large : 2 ≤ tree.sizes.innerslotmax) (inRange : tree.sizes.innerslotmax + 1 < 2 ^ 32)
    (leftStored : tree.Represents height left)
    (rightStored : tree.Represents height right)
    (unused : ∀ ptr, tree.brk ≤ ptr → tree.heap ptr = none)
    (next : ∀ after, after.Represents (height + 1) (.inner tree.brk [newkey] [left, right]) →
      Retouched tree after tree.brk {tree.brk} →
      post () { after with mRoot := some tree.brk }) :
    Runs (growRoot left.ptr newkey (some right.ptr)) tree post := by
  have noLinks : tree.links tree.brk = none := by simp [BTree.links, unused _ (Nat.le_refl _)]
  obtain ⟨newKeys, keysWritten, keysHold, keysSize⟩ :=
    (Buffer.holds_nil (Buffer.alloc tree.sizes.innerslotmax)).push (by simp; omega) newkey
  obtain ⟨oneChild, firstWritten, firstHolds, firstSize⟩ :=
    (Buffer.holds_nil (Buffer.alloc (uadd tree.sizes.innerslotmax 1))).push
      (by simp [uadd_of_lt inRange]) left.ptr
  obtain ⟨twoChildren, secondWritten, secondHolds, secondSize⟩ :=
    firstHolds.push (by rw [firstSize]; simp [uadd_of_lt inRange]; omega) right.ptr
  have others : ∀ {sub : Tree K D}, tree.Represents height sub → ∀ ptr ∈ sub.foot,
      ptr ∉ ({tree.brk} : Set Ptr) := fun stored ptr within isNew =>
    Nat.lt_irrefl _ (Set.mem_singleton_iff.mp isNew ▸ stored.lt_brk unused within)
  simp only [growRoot, runs_bind, leftStored.runs_level, runs_allocateInner, runs_getInner,
    runs_writeSlot, runs_setInner, runs_modify]
  refine ⟨_, BTree.heap_setNode_self .., newKeys, keysWritten, oneChild, firstWritten, twoChildren,
    secondWritten, ?_⟩
  have frame : tree.Frame ((tree.withInner (height + 1)).setNode tree.brk (some (.inner
      ⟨height + 1, 1, newKeys, twoChildren⟩))) {tree.brk} :=
    BTree.frame_withInner.trans (BTree.Frame.setNode _ _ _)
  refine next _ ⟨⟨_, BTree.heap_setNode_self .., rfl, rfl, rfl, keysHold, secondHolds, ?_, ?_⟩, ?_⟩
    ⟨frame.mono (by simp), fun ptr => ?_, rfl, rfl, rfl, Nat.le_succ _, by simp, ?_, rfl⟩
  · exact keysSize.trans (Buffer.length_alloc _)
  · exact secondSize.trans (firstSize.trans (Buffer.length_alloc _))
  · intro kid member
    simp only [List.mem_cons, List.not_mem_nil, or_false] at member
    rcases member with rfl | rfl
    · exact frame.represents (others leftStored) leftStored
    · exact frame.represents (others rightStored) rightStored
  · refine (BTree.links_setNode_inner ?_ ptr).trans (BTree.links_setNode_inner noLinks ptr)
    simp [BTree.links, BTree.withInner]
  · intro other
    rw [Multiset.mem_singleton]
    exact range_succ

omit [LinearOrder K] [Inhabited K] in
/-- What a node above the trees that the descent leaves adds. -/
private theorem Grown.root {before middle after : BTree K D} {old whole : Tree K D}
    {forest : Forest K D} {upper : Nat} {fresh : Multiset Ptr} {ptr : Ptr}
    (grown : Grown before middle height old forest [] [])
    (unused : ∀ ptr, before.brk ≤ ptr → before.heap ptr = none)
    (oldStored : before.Represents height old) (touched : Retouched middle after ptr fresh)
    (isNew : ptr ∈ whole.foot) (stored : after.Represents upper whole)
    (blocks : whole.blocks = Forest.blocks forest) (foot : whole.foot = fresh + Forest.foot forest)
    (innernodes : whole.innerCount = fresh.card + Forest.innerCount forest) :
    Grown before after upper old [whole] [] [] where
  frame := by
    have added : ∀ other ∈ whole.foot, other ∈ old.foot ∨ before.brk ≤ other := by
      intro other within
      obtain ⟨new, isFoot, -, range⟩ := grown.foot
      rw [foot, isFoot, Multiset.mem_add, Multiset.mem_add] at within
      rcases within with isFresh | inOld | isAdded
      · exact .inr (Nat.le_trans grown.brk ((touched.range other).mp isFresh).1)
      · exact .inl inOld
      · exact .inr ((range other).mp isAdded).1
    refine grown.frame.trans (touched.frame.mono ?_)
    rintro other (rfl | isFresh)
    · exact added other isNew
    · exact added other (foot ▸ Multiset.mem_add.mpr (.inl isFresh))
  stored := by simpa using stored
  brk := Nat.le_trans grown.brk touched.brk
  unused other above := by
    refine touched.frame.heap_eq_none ?_ (grown.unused other (Nat.le_trans touched.brk above))
    have below : ∀ other ∈ whole.foot, other < after.brk := by
      intro other within
      rw [foot, Multiset.mem_add] at within
      rcases within with isFresh | inForest
      · exact ((touched.range other).mp isFresh).2
      · exact Nat.lt_of_lt_of_le (grown.foot_lt_brk oldStored unused inForest) touched.brk
    rintro (rfl | isFresh)
    · exact Nat.not_lt_of_le above (below _ isNew)
    · exact Nat.not_lt_of_le above ((touched.range other).mp isFresh).2
  foot := by
    obtain ⟨new, isFoot, nodup, range⟩ := grown.foot
    refine ⟨new + fresh, ?_, ?_, fun other => ?_⟩
    · simp only [Forest.foot_cons, Forest.foot_nil, foot, isFoot]
      abel
    · refine Multiset.nodup_add.mpr ⟨nodup, touched.nodup, ?_⟩
      refine Multiset.disjoint_left.mpr fun {other} isAdded isFresh => ?_
      exact Nat.not_lt_of_le ((touched.range other).mp isFresh).1 ((range other).mp isAdded).2
    · rw [Multiset.mem_add, range, touched.range]
      exact ranges_append grown.brk touched.brk
  chained := by
    have kept := grown.chained.congr (fun other _ => touched.links other) touched.mHeadleaf
      touched.mTailleaf
    simpa [Tree.leaves, Forest.leaves, blocks] using kept
  mRoot := touched.mRoot.trans grown.mRoot
  itemcount := by rw [touched.mStats]; exact grown.itemcount
  leaves := by
    have leaves := grown.leaves
    have same : whole.leaves = Forest.leaves forest := by rw [Tree.leaves, blocks, Forest.leaves]
    simpa only [Forest.leaves_cons, Forest.leaves_nil, List.append_nil, touched.mStats, same]
  innernodes := by
    have nodes := grown.innernodes
    simp only [Forest.innerCount_cons, Forest.innerCount_nil, innernodes, touched.mStats]
    omega

omit [Inhabited K] in
theorem Tree.Takes.emptyLeaf {sizes : NodeSizes} (ptr : Ptr) (some_ : 0 < sizes.leafslotmax) :
    (Tree.leaf ptr ([] : List (K × D))).Takes key sizes :=
  ⟨.leaf (finds_first _), .inl ⟨ptr, [], rfl, some_⟩⟩

/-- The descent and the new root: one tree with the pair in place of the old
one. -/
private theorem descendAndGrow_runs {sub : Tree K D} (splits : bounds.Splits tree.sizes)
    (takes : sub.Takes key tree.sizes) (root : tree.mRoot = some sub.ptr)
    (stored : tree.Represents height sub)
    (wellFormed : WellFormed bounds least height sub) (sorted : Sorted sub.pairs)
    (ready : Ready tree sub [] []) :
    Runs (insertDescend (height + 1) sub.ptr key value) tree fun result middle =>
      Runs (growRoot sub.ptr result.splitkey result.splitnode) middle fun _ final =>
        ∃ after upper whole, final = { after with mRoot := some whole.ptr } ∧
          Grown tree after upper sub [whole] [] [] ∧ WellFormed bounds 0 upper whole ∧
          (1 ≤ least ∨ height = 0 → 1 ≤ whole.used) ∧
          result.Places sub.pairs whole.blocks key value := by
  have inRange : sub.used = bounds.greatest height ∨ height ≠ 0 →
      tree.sizes.innerslotmax + 1 < 2 ^ 32 := by
    intro grows
    rcases takes.room with ⟨ptr, pairs, rfl, room⟩ | inRange
    · cases height with
      | zero =>
          have leafMax := splits.leafMax
          simp only [Tree.used_leaf, Bounds.greatest] at grows
          omega
      | succ height => exact stored.elim
    · exact inRange
  refine (insertDescend_runs splits (fun notLeaf => inRange (.inr notLeaf)) stored wellFormed sorted
    takes.reaches ready).mono ?_
  rintro result middle ⟨forest, grown, shape, places⟩
  cases isSplit : result.splitnode with
  | none =>
      rw [Insertion.Shape, isSplit] at shape
      obtain ⟨new, rfl, samePtr, formed⟩ := shape
      rw [Forest.blocks_cons, Forest.blocks_nil, List.append_nil] at places
      have isRoot : middle.mRoot = some new.ptr := by rw [grown.mRoot, root, samePtr]
      rw [growRoot, runs_pure]
      refine ⟨middle, height, new, by rw [← isRoot], grown, formed.weaken (Nat.zero_le _), ?_, places⟩
      rintro (used | rfl)
      · exact used.trans formed.used_ge
      · obtain ⟨ptr, pairs, rfl⟩ := formed.exists_leaf
        obtain ⟨-, front, back, -, -, denotes⟩ := places
        have length := congrArg List.length denotes.pairsIn_eq
        simp only [Tree.blocks_leaf, pairsIn_cons, pairsIn_nil, List.append_nil, List.length_append,
          List.length_cons] at length
        rw [Tree.used_leaf]
        omega
  | some splitnode =>
      rw [Insertion.Shape, isSplit] at shape
      obtain ⟨isFull, left, right, rfl, leftPtr, rfl, leftLast, leftFormed, rightFormed⟩ := shape
      rw [← leftPtr]
      refine growRoot_runs (by rw [grown.frame.sizes]; exact splits.innerLarge)
        (by rw [grown.frame.sizes]; exact inRange (.inl isFull)) (grown.stored left (by simp))
        (grown.stored right (by simp)) grown.unused
        fun after wholeStored touched => ?_
      refine ⟨after, height + 1, _, rfl, grown.root ready.unused stored touched (by simp)
        wholeStored (by simp) ?_ (by simp), ?_, fun _ => by simp, by simpa using places⟩
      · simp only [Tree.foot_inner, Multiset.singleton_add]
      · refine ⟨Nat.zero_le _, ?_, by simp, by simp [leftLast], ?_⟩
        · have := splits.innerMax
          have := splits.innerLarge
          simp only [List.length_singleton]
          omega
        · intro kid member
          simp only [List.mem_cons, List.not_mem_nil, or_false] at member
          rcases member with rfl | rfl
          · exact leftFormed
          · exact rightFormed

/-! ## The whole insertion -/

/-- The object stores the subtree in distinct nodes with linked leaves. Of its
root nothing is required, nor of its statistics. -/
structure BTree.Rooted (bounds : Bounds) (tree : BTree K D) (height : Nat) (sub : Tree K D) :
    Prop where
  root : tree.mRoot = some sub.ptr
  stored : tree.Represents height sub
  wellFormed : WellFormed bounds 0 height sub
  sorted : Sorted sub.pairs
  nodup : sub.foot.Nodup
  unused : ∀ ptr, tree.brk ≤ ptr → tree.heap ptr = none
  chained : tree.Chained sub.leaves

namespace BTree.Rooted

omit [Inhabited K]

variable {sub : Tree K D}

theorem of_intact (intact : tree.Intact bounds least height sub) :
    tree.Rooted bounds height sub where
  root := intact.root
  stored := intact.stored
  wellFormed := intact.wellFormed.weaken (Nat.zero_le _)
  sorted := intact.sorted
  nodup := intact.nodup
  unused := intact.unused
  chained := intact.chained

theorem ready (rooted : tree.Rooted bounds height sub) : Ready tree sub [] [] where
  nodup := rooted.nodup
  unused := rooted.unused
  chained := by simpa using rooted.chained
  distinct := by
    have distinct : sub.leaves.Nodup :=
      Multiset.coe_nodup.mp (Multiset.nodup_of_le rooted.stored.leaves_le_foot rooted.nodup)
    simpa using distinct

theorem leafBlocks_eq (rooted : tree.Rooted bounds height sub) : tree.leafBlocks = sub.blocks :=
  rooted.stored.leafBlocks_eq rooted.root

/-- The root leaf that `insert_start` gives to a tree without one. -/
theorem withLeaf (bounds : Bounds) (unused : ∀ ptr, tree.brk ≤ ptr → tree.heap ptr = none) :
    BTree.Rooted bounds { tree.withLeaf with
      mRoot := some tree.brk, mHeadleaf := some tree.brk, mTailleaf := some tree.brk }
      0 (.leaf tree.brk ([] : List (K × D))) where
  root := rfl
  stored := ⟨.initial tree.sizes.leafslotmax, BTree.heap_setNode_self .., rfl, ⟨_, rfl⟩, ⟨_, rfl⟩,
    Buffer.length_alloc _, Buffer.length_alloc _⟩
  wellFormed := by simp [WellFormed]
  sorted := by simp [Sorted]
  nodup := by simp
  unused ptr above := (BTree.heap_withLeaf_of_ne (Nat.ne_of_gt above)).trans
    (unused ptr (Nat.le_of_succ_le above))
  chained := by
    rw [Tree.leaves_leaf]
    exact ⟨⟨BTree.links_setNode_leaf tree tree.brk _, trivial⟩, rfl, rfl⟩

theorem of_grown {start after : BTree K D} {whole : Tree K D} {upper : Nat}
    (rooted : start.Rooted bounds height sub) (grown : Grown start after upper sub [whole] [] [])
    (formed : WellFormed bounds 0 upper whole) (sorted : Sorted whole.pairs) :
    BTree.Rooted bounds { after with mRoot := some whole.ptr } upper whole where
  root := rfl
  stored := (grown.stored whole (by simp)).congr rfl fun _ _ => rfl
  wellFormed := formed
  sorted := sorted
  nodup := by
    obtain ⟨new, isFoot, newNodup, range⟩ := grown.foot
    rw [Forest.foot_cons, Forest.foot_nil, add_zero] at isFoot
    rw [isFoot, Multiset.nodup_add, Multiset.disjoint_left]
    refine ⟨rooted.nodup, newNodup, fun {other} inOld inNew => ?_⟩
    exact Nat.not_lt_of_le ((range other).mp inNew).1 (rooted.stored.lt_brk rooted.unused inOld)
  unused := grown.unused
  chained := by
    have chained : after.Chained whole.leaves := by simpa using grown.chained
    exact chained.congr (fun _ _ => rfl) rfl rfl

/-- With the other facts about the memory, the tree is intact. -/
theorem intact (rooted : tree.Rooted bounds height sub) (used : least ≤ sub.used)
    (allocated : ∀ ptr, tree.heap ptr ≠ none → ptr ∈ sub.foot)
    (leaves : tree.mStats.leaves = sub.leaves.length)
    (innernodes : tree.mStats.innernodes = sub.innerCount) : tree.Intact bounds least height sub where
  root := rooted.root
  stored := rooted.stored
  wellFormed := rooted.wellFormed.weaken used
  sorted := rooted.sorted
  nodup := rooted.nodup
  allocated := allocated
  unused := rooted.unused
  chained := rooted.chained
  leaves := leaves
  innernodes := innernodes

end BTree.Rooted

/-- The pair goes before the first one whose key is not less. -/
theorem insertRooted_runs {sub : Tree K D} (splits : bounds.Splits tree.sizes)
    (takes : sub.Takes key tree.sizes) (rooted : tree.Rooted bounds height sub)
    (wellFormed : WellFormed bounds least height sub) :
    Runs (insertDescend (height + 1) sub.ptr key value) tree fun result middle =>
      Runs (growRoot sub.ptr result.splitkey result.splitnode) middle fun _ final =>
        ∃ after upper whole, final = { after with mRoot := some whole.ptr } ∧
          Grown tree after upper sub [whole] [] [] ∧ final.Rooted bounds upper whole ∧
          (1 ≤ least ∨ height = 0 → 1 ≤ whole.used) ∧
          result.Places sub.pairs whole.blocks key value := by
  refine (descendAndGrow_runs splits takes rooted.root rooted.stored wellFormed rooted.sorted
    rooted.ready).mono fun result middle grows => grows.mono ?_
  rintro - final ⟨after, upper, whole, rfl, grown, formed, used, places⟩
  refine ⟨after, upper, whole, rfl, grown, rooted.of_grown grown formed ?_, used, places⟩
  obtain ⟨-, front, back, split, cut, denotes⟩ := places
  have oldSorted := rooted.sorted
  rw [split] at oldSorted
  rw [Tree.pairs, denotes.pairsIn_eq]
  exact oldSorted.insert cut value

omit [Inhabited K] in
theorem insertRoot_runs {post : Ptr → BTree K D → Prop}
    (holds : tree.Invariant bounds)
    (next : ∀ start height sub least, start.Intact bounds least height sub →
      (tree.Intact bounds 1 height sub ∨ ∃ ptr, sub = .leaf ptr []) →
      1 ≤ least ∨ height = 0 → start.sizes = tree.sizes → start.checks = tree.checks →
      sub.pairs = tree.contents → start.mStats.itemcount = tree.contents.length →
      post sub.ptr start) :
    Runs insertRoot tree post := by
  rcases holds.shape with vacant | ⟨height, sub, intact⟩
  · simp only [insertRoot, runs_bind, runs_get, vacant.root, runs_allocateLeaf, runs_modify,
      runs_pure]
    have rooted := BTree.Rooted.withLeaf bounds fun ptr _ => vacant.unused ptr
    have intact := rooted.intact (Nat.zero_le _) (fun ptr isStored => ?_) ?_ ?_
    · refine next _ 0 _ 0 intact (.inr ⟨_, rfl⟩) (.inr rfl) rfl rfl ?_ holds.itemcount
      simp [BTree.contents, vacant.leafBlocks_eq]
    · rw [Tree.foot_leaf, Multiset.mem_singleton]
      by_contra different
      exact isStored ((BTree.heap_withLeaf_of_ne different).trans (vacant.unused ptr))
    · simp [BTree.withLeaf, vacant.stats]
    · simp [BTree.withLeaf, vacant.stats]
  · simp only [insertRoot, runs_bind, runs_get, intact.root, runs_pure]
    exact next tree height sub 1 intact (.inl intact) (.inl (le_refl 1)) rfl rfl
      intact.contents_eq.symm holds.itemcount

/-- `insert` puts the pair before the first one whose key is not less, and
returns an iterator to it. -/
theorem insert_runs (splits : bounds.Splits tree.sizes) (holds : tree.Invariant bounds)
    (takes : ∀ height sub, tree.Intact bounds 1 height sub → sub.Takes key tree.sizes) :
    Runs (insert key value) tree fun outcome after =>
      after.Invariant bounds ∧ after.sizes = tree.sizes ∧ after.checks = tree.checks ∧
        outcome.2 = true ∧ ∃ front back, tree.contents = front ++ back ∧
          Cut (· < key) front back ∧ Denotes after.leafBlocks outcome.1 front (key, value) back := by
  simp only [insert, runs_bind]
  refine insertRoot_runs holds
    fun start height sub least intact whole small sizes checks pairs count => ?_
  rw [intact.stored.runs_level]
  have takesStart : sub.Takes key start.sizes := by
    rw [sizes]
    rcases whole with whole | ⟨ptr, rfl⟩
    · exact takes height sub whole
    · exact .emptyLeaf ptr (Nat.lt_of_lt_of_le (by decide) splits.leafLarge)
  refine (insertRooted_runs (sizes ▸ splits) takesStart (.of_intact intact) intact.wellFormed).mono
    fun result middle grows => grows.mono ?_
  rintro - _ ⟨after, upper, whole, rfl, grown, rooted, used, inserted, front, back, split, cut,
    denotes⟩
  simp only [inserted, ↓reduceIte, runs_modify, runs_pure, true_and]
  have intact' := rooted.intact (used small) (fun ptr isStored => ?_) ?_ ?_
  · have counted := intact'.setItemcount (after.mStats.itemcount + 1)
    refine ⟨⟨.inr ⟨upper, whole, counted⟩, ?_⟩, grown.frame.sizes.trans sizes,
      grown.frame.checks.trans checks, front, back, pairs ▸ split, cut, ?_⟩
    · rw [counted.contents_eq, Tree.pairs, denotes.pairsIn_eq]
      simp only [grown.itemcount, count, ← pairs, split, List.length_append, List.length_cons]
      omega
    · rwa [counted.leafBlocks_eq]
  · simpa using grown.allocated intact.allocated isStored
  · have leaves := grown.leaves
    simp only [Forest.leaves_cons, Forest.leaves_nil, List.append_nil, intact.leaves] at leaves
    change after.mStats.leaves = whole.leaves.length
    omega
  · have nodes := grown.innernodes
    simp only [Forest.innerCount_cons, Forest.innerCount_nil, intact.innernodes] at nodes
    change after.mStats.innernodes = whole.innerCount
    omega

end Descent

end PersistentBTree.Memory
