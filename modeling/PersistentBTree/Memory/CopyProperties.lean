import PersistentBTree.Memory.ClearProperties
import PersistentBTree.Memory.Copy
import PersistentBTree.Memory.SplitProperties

/-! A copy has the shape of its source, in new nodes. It is completed exactly when
every node fits into the arrays of the object that is written and none has too
many children for the loop over them to end. -/

set_option autoImplicit false

namespace PersistentBTree.Memory

open Imperative Multimap

variable {K D : Type} {tree other : BTree K D} {height : Nat} {sub : Tree K D}

/-! ## Shapes -/

namespace Tree

/-- The tree with the addresses of its nodes forgotten. -/
def bare : Tree K D → Tree K D
  | .leaf _ pairs => .leaf 0 pairs
  | .inner _ keys kids => .inner 0 keys (kids.map bare)

@[simp] theorem bare_leaf (ptr : Ptr) (pairs : List (K × D)) :
    (leaf ptr pairs).bare = .leaf 0 pairs := by
  rw [bare]

@[simp] theorem bare_inner (ptr : Ptr) (keys : List K) (kids : Forest K D) :
    (inner ptr keys kids).bare = .inner 0 keys (kids.map bare) := by
  rw [bare]

theorem blocks_bare : (tree : Tree K D) → tree.bare.blocks.map Prod.snd = tree.blocks.map Prod.snd
  | .leaf _ _ => by simp
  | .inner _ _ kids => by
      rw [bare_inner, blocks_inner, blocks_inner, Forest.blocks, Forest.blocks, List.map_flatMap,
        List.map_flatMap, List.flatMap_map]
      exact List.flatMap_congr fun kid _ => blocks_bare kid

theorem innerCount_bare : (tree : Tree K D) → tree.bare.innerCount = tree.innerCount
  | .leaf _ _ => by simp
  | .inner _ _ kids => by
      rw [bare_inner, innerCount_inner, innerCount_inner, Forest.innerCount, Forest.innerCount,
        List.map_map]
      exact congrArg (1 + List.sum ·) (List.map_congr_left fun kid _ => innerCount_bare kid)

theorem blocks_eq_of_bare {tree other : Tree K D} (same : tree.bare = other.bare) :
    tree.blocks.map Prod.snd = other.blocks.map Prod.snd := by
  rw [← blocks_bare, same, blocks_bare]

theorem innerCount_eq_of_bare {tree other : Tree K D} (same : tree.bare = other.bare) :
    tree.innerCount = other.innerCount := by
  rw [← innerCount_bare, same, innerCount_bare]

theorem pairs_eq_flatten (tree : Tree K D) : tree.pairs = (tree.blocks.map Prod.snd).flatten := by
  rw [pairs, pairsIn, List.flatMap_def]

theorem pairs_bare (tree : Tree K D) : tree.bare.pairs = tree.pairs := by
  rw [pairs_eq_flatten, blocks_bare, ← pairs_eq_flatten]

theorem length_leaves (tree : Tree K D) : tree.leaves.length = (tree.blocks.map Prod.snd).length := by
  rw [leaves, List.length_map, List.length_map]

theorem leafCount_eq_of_bare {tree other : Tree K D} (same : tree.bare = other.bare) :
    tree.leaves.length = other.leaves.length := by
  rw [length_leaves, blocks_eq_of_bare same, length_leaves]

theorem lastKey?_bare (tree : Tree K D) : tree.bare.lastKey? = tree.lastKey? := by
  rw [lastKey?_eq, lastKey?_eq, pairs_bare]

/-- Every node fits into the arrays that are allocated with these sizes. -/
def Fits (sizes : NodeSizes) : Tree K D → Prop
  | .leaf _ pairs => pairs.length ≤ sizes.leafslotmax
  | .inner _ keys kids => keys.length ≤ sizes.innerslotmax ∧
      kids.length ≤ uadd sizes.innerslotmax 1 ∧ ∀ kid ∈ kids, kid.Fits sizes

@[simp] theorem fits_leaf (sizes : NodeSizes) (ptr : Ptr) (pairs : List (K × D)) :
    (leaf ptr pairs).Fits sizes ↔ pairs.length ≤ sizes.leafslotmax := by
  rw [Fits]

@[simp] theorem fits_inner (sizes : NodeSizes) (ptr : Ptr) (keys : List K) (kids : Forest K D) :
    (inner ptr keys kids).Fits sizes ↔ keys.length ≤ sizes.innerslotmax ∧
      kids.length ≤ uadd sizes.innerslotmax 1 ∧ ∀ kid ∈ kids, kid.Fits sizes := by
  rw [Fits]

theorem Fits.branches {sizes : NodeSizes} : {tree : Tree K D} → tree.Fits sizes →
    tree.Branches (uadd sizes.innerslotmax 1)
  | .leaf _ _, _ => branches_leaf ..
  | .inner _ _ _, fits => by
      obtain ⟨-, room, below⟩ := (fits_inner ..).mp fits
      exact (branches_inner ..).mpr ⟨room, fun kid member => (below kid member).branches⟩

end Tree

theorem separators_bare (kids : Forest K D) : separators (kids.map Tree.bare) = separators kids := by
  rw [separators, separators, ← List.map_dropLast, List.map_map]
  exact List.map_congr_left fun kid _ => kid.lastKey?_bare

/-- Whether a tree is well formed is a matter of its shape. -/
theorem wellFormed_bare {bounds : Bounds} {least : Nat} :
    WellFormed bounds least height sub.bare ↔ WellFormed bounds least height sub := by
  induction height generalizing sub least with
  | zero => cases sub <;> simp [WellFormed]
  | succ height ih =>
      cases sub with
      | leaf => simp [WellFormed]
      | inner ptr keys kids =>
          rw [Tree.bare_inner, WellFormed, WellFormed, separators_bare, List.length_map,
            List.forall_mem_map]
          exact and_congr_right fun _ => and_congr_right fun _ => and_congr_right fun _ =>
            and_congr_right fun _ => forall₂_congr fun _ _ => ih

theorem WellFormed.fits {bounds : Bounds} {least : Nat} {sizes : NodeSizes}
    (leafMax : bounds.leafMax ≤ sizes.leafslotmax) (innerMax : bounds.innerMax ≤ sizes.innerslotmax)
    (inRange : height ≠ 0 → sizes.innerslotmax + 1 < 2 ^ 32)
    (formed : WellFormed bounds least height sub) : sub.Fits sizes := by
  induction height generalizing sub least with
  | zero =>
      obtain ⟨ptr, pairs, rfl⟩ := formed.exists_leaf
      exact (Tree.fits_leaf ..).mpr (formed.2.trans leafMax)
  | succ height ih =>
      obtain ⟨ptr, keys, kids, rfl⟩ := formed.exists_inner
      have most := formed.2.1.trans innerMax
      have wide := inRange (Nat.succ_ne_zero height)
      refine (Tree.fits_inner ..).mpr ⟨most, ?_, fun kid member =>
        ih (fun _ => wide) (formed.2.2.2.2 kid member)⟩
      rw [uadd_of_lt wide, formed.2.2.1]
      exact Nat.succ_le_succ most

/-! ## One leaf -/

/-- The new leaf becomes the last one of the chain. -/
private theorem appendLeaf_runs {newleaf : Ptr} {node : LeafNode K D} {lefts : List Ptr}
    {capacity : Nat} {pairs : List (K × D)} (stores : node.Stores capacity pairs)
    (isLast : node.nextleaf = none) (chained : tree.Chained lefts) (nodup : lefts.Nodup)
    (fresh : newleaf ∉ lefts) :
    Runs (appendLeaf newleaf node) tree fun _ after =>
      (∃ stored, after.heap newleaf = some (.leaf stored) ∧ stored.Stores capacity pairs) ∧
        tree.Frame after {newleaf} ∧ after.Chained (lefts ++ [newleaf]) ∧
        after.mRoot = tree.mRoot ∧ after.mStats = tree.mStats ∧ after.brk = tree.brk := by
  rw [appendLeaf, runs_bind, runs_get]
  rcases List.eq_nil_or_concat' lefts with rfl | ⟨front, tail, rfl⟩
  · have noHead : tree.mHeadleaf = none := chained.2.1
    rw [noHead]
    simp only [runs_bind, runs_setLeaf, runs_modify]
    refine ⟨⟨_, BTree.heap_setNode_self .., ?_⟩,
      ⟨rfl, rfl, fun _ outside => BTree.content_setNode_of_ne tree _ outside⟩, ?_, rfl, rfl, rfl⟩
    · exact ⟨stores.used, stores.keys, stores.data, stores.keyRoom, stores.dataRoom⟩
    · exact ⟨⟨BTree.links_setNode_leaf tree newleaf _, trivial⟩, rfl, rfl⟩
  · have isHead : ∃ head, tree.mHeadleaf = some head := by
      rw [chained.2.1]
      cases front with
      | nil => exact ⟨tail, rfl⟩
      | cons head front => exact ⟨head, rfl⟩
    obtain ⟨head, isHead⟩ := isHead
    have isTail : tree.mTailleaf = some tail := by rw [chained.2.2, List.getLast?_concat]
    obtain ⟨last, atTail, before, -⟩ := chained.exists_leaf
    have apart : tail ≠ newleaf := fun same => fresh (by simp [same])
    rw [isHead]
    simp only [runs_bind, runs_setLeaf, isTail, runs_nonNull, runs_getLeaf, runs_modify]
    refine ⟨tail, rfl, last, (BTree.heap_setNode_of_ne tree _ apart).trans atTail, ?_⟩
    refine ⟨⟨_, (BTree.heap_setNode_of_ne _ _ apart.symm).trans (BTree.heap_setNode_self ..), ?_⟩,
      ⟨rfl, rfl, fun ptr outside => ?_⟩, ?_, rfl, rfl, rfl⟩
    · exact ⟨stores.used, stores.keys, stores.data, stores.keyRoom, stores.dataRoom⟩
    · by_cases isLast : ptr = tail
      · subst isLast
        simp [BTree.content, BTree.setNode, atTail, Node.content]
      · exact (BTree.content_setNode_of_ne _ _ isLast).trans
          (BTree.content_setNode_of_ne _ _ outside)
    · rw [List.append_assoc]
      refine chained.insert_after nodup fresh ?_ ?_ (by simp) ?_ rfl rfl
      · refine (BTree.links_setNode_leaf _ tail _).trans ?_
        rw [LeafNode.links, before]
      · refine (BTree.links_setNode_of_ne _ _ apart.symm).trans
          ((BTree.links_setNode_leaf _ newleaf _).trans ?_)
        rw [LeafNode.links, isLast, List.head?_nil]
      · intro ptr notTail notNew _
        exact (BTree.links_setNode_of_ne _ _ notTail).trans (BTree.links_setNode_of_ne _ _ notNew)

/-! ## Copied trees -/

/-- The trees were copied to the addresses from `before.brk` on, and their leaves
linked in behind `lefts`. Of the older nodes only the one at `base` changed. -/
structure Copied (before after : BTree K D) (base : Ptr) (lefts : List Ptr) (height : Nat)
    (sources copies : Forest K D) : Prop where
  stored : ∀ copy ∈ copies, after.Represents height copy
  bare : copies.map Tree.bare = sources.map Tree.bare
  frame : before.Frame after {ptr | ptr = base ∨ before.brk ≤ ptr}
  brk : before.brk ≤ after.brk
  unused : ∀ ptr, after.brk ≤ ptr → after.heap ptr = none
  nodup : (Forest.foot copies).Nodup
  foot : ∀ ptr, ptr ∈ Forest.foot copies ↔ before.brk ≤ ptr ∧ ptr < after.brk
  chained : after.Chained (lefts ++ Forest.leaves copies)
  mRoot : after.mRoot = before.mRoot
  itemcount : after.mStats.itemcount = before.mStats.itemcount
  leaves : after.mStats.leaves = before.mStats.leaves + (Forest.leaves sources).length
  innernodes : after.mStats.innernodes = before.mStats.innernodes + Forest.innerCount sources

namespace Copied

variable {before middle between after : BTree K D} {base : Ptr} {lefts : List Ptr}
  {source copy : Tree K D} {sources copies : Forest K D}

theorem refl (unused : ∀ ptr, before.brk ≤ ptr → before.heap ptr = none)
    (chained : before.Chained lefts) : Copied before before base lefts height [] [] where
  stored := by simp
  bare := rfl
  frame := ⟨rfl, rfl, fun _ _ => rfl⟩
  brk := Nat.le_refl _
  unused := unused
  nodup := Multiset.nodup_zero
  foot ptr := by
    rw [Forest.foot_nil]
    exact ⟨fun member => absurd member (Multiset.notMem_zero ptr),
      fun range => absurd range.2 (Nat.not_lt_of_le range.1)⟩
  chained := by simpa using chained
  mRoot := rfl
  itemcount := rfl
  leaves := rfl
  innernodes := rfl

/-- One more tree in front; in between its address was stored in the node at
`base`. -/
theorem cons (first : Copied before middle before.brk lefts height [source] [copy])
    (older : base < before.brk) (written : middle.Rewritten between {base})
    (rest : Copied between after base (lefts ++ copy.leaves) height sources copies) :
    Copied before after base lefts height (source :: sources) (copy :: copies) := by
  have range : ∀ ptr, ptr ∈ copy.foot ↔ before.brk ≤ ptr ∧ ptr < middle.brk := by
    simpa using first.foot
  have notBase : ∀ ptr, before.brk ≤ ptr → ptr ≠ base := by
    rintro ptr above rfl
    exact Nat.not_lt_of_le above older
  have upper : middle.brk ≤ after.brk := written.brk ▸ rest.brk
  have stored : after.Represents height copy := by
    have inBetween : between.Represents height copy := by
      refine written.frame.represents (fun ptr within => ?_) (first.stored copy (by simp))
      exact notBase ptr ((range ptr).mp within).1
    refine rest.frame.represents (fun ptr within => ?_) inBetween
    rintro (isBase | above)
    · exact notBase ptr ((range ptr).mp within).1 isBase
    · rw [written.brk] at above
      exact Nat.not_lt_of_le above ((range ptr).mp within).2
  constructor
  case stored => exact List.forall_mem_cons.mpr ⟨stored, rest.stored⟩
  case bare =>
    have same : copy.bare = source.bare := by simpa using first.bare
    rw [List.map_cons, List.map_cons, same, rest.bare]
  case frame =>
    refine (first.frame.mono ?_).trans ((written.frame.mono ?_).trans (rest.frame.mono ?_))
    · rintro ptr (rfl | above)
      · exact .inr (Nat.le_refl _)
      · exact .inr above
    · rintro ptr rfl
      exact .inl rfl
    · rintro ptr (isBase | above)
      · exact .inl isBase
      · rw [written.brk] at above
        exact .inr (Nat.le_trans first.brk above)
  case brk => exact Nat.le_trans first.brk upper
  case unused => exact rest.unused
  case nodup =>
    have nodup : copy.foot.Nodup := by simpa using first.nodup
    rw [Forest.foot_cons]
    refine Multiset.nodup_add.mpr ⟨nodup, rest.nodup, Multiset.disjoint_left.mpr ?_⟩
    intro ptr inCopy inRest
    have above := ((rest.foot ptr).mp inRest).1
    rw [written.brk] at above
    exact Nat.not_lt_of_le above ((range ptr).mp inCopy).2
  case foot =>
    intro ptr
    rw [Forest.foot_cons, Multiset.mem_add, range, rest.foot, written.brk]
    constructor
    · rintro (⟨above, below⟩ | ⟨above, below⟩)
      · exact ⟨above, Nat.lt_of_lt_of_le below upper⟩
      · exact ⟨Nat.le_trans first.brk above, below⟩
    · rintro ⟨above, below⟩
      exact (Nat.lt_or_ge ptr middle.brk).imp (⟨above, ·⟩) (⟨·, below⟩)
  case chained => simpa [Tree.leaves, Forest.leaves] using rest.chained
  case mRoot => rw [rest.mRoot, written.mRoot, first.mRoot]
  case itemcount => rw [rest.itemcount, written.mStats, first.itemcount]
  case leaves =>
    have added := first.leaves
    rw [Forest.leaves_cons, Forest.leaves_nil, List.append_nil] at added
    rw [rest.leaves, written.mStats, added, Forest.leaves_cons, List.length_append, Nat.add_assoc]
  case innernodes =>
    have added := first.innernodes
    rw [Forest.innerCount_cons, Forest.innerCount_nil, Nat.add_zero] at added
    rw [rest.innernodes, written.mStats, added, Forest.innerCount_cons, Nat.add_assoc]

end Copied

private theorem BTree.Chained.lt_brk {lefts : List Ptr} (chained : tree.Chained lefts)
    (unused : ∀ ptr, tree.brk ≤ ptr → tree.heap ptr = none) {ptr : Ptr} (member : ptr ∈ lefts) :
    ptr < tree.brk := by
  obtain ⟨node, found⟩ := chained.exists_leaf_of_mem member
  by_contra above
  rw [unused ptr (Nat.le_of_not_lt above)] at found
  cases found

theorem copySlots_faults {α : Type} {source target : Buffer α} {count : Nat}
    (overflows : target.length < count) :
    Faults (copySlots source 0 count target 0 : M K D (Buffer α)) tree := by
  have noCopy : source.copy 0 count target 0 = none := by
    rw [Buffer.copy, if_neg (by omega)]
  rw [copySlots, noCopy]
  exact faults_throw ..

private theorem copyLeaf_runs {lefts : List Ptr} {ptr : Ptr} {pairs : List (K × D)} {fuel : Nat}
    (stored : other.LeafAt ptr pairs) (unused : ∀ ptr, tree.brk ≤ ptr → tree.heap ptr = none)
    (chained : tree.Chained lefts) (nodup : lefts.Nodup) :
    RunsIf (pairs.length ≤ tree.sizes.leafslotmax) (copyRecursive other (fuel + 1) ptr) tree
      fun newptr after => ∃ copy, copy.ptr = newptr ∧
        Copied tree after tree.brk lefts 0 [.leaf ptr pairs] [copy] := by
  obtain ⟨node, found, stores⟩ := stored
  rw [copyRecursive, found]
  refine .after ((runs_orFault ..).mpr ⟨_, rfl, ?_⟩)
  refine .after ((runs_allocateLeaf _).mpr ?_)
  have fresh : tree.withLeaf.heap tree.brk = some (.leaf (.initial tree.sizes.leafslotmax)) :=
    BTree.heap_setNode_self ..
  refine .after ((runs_getLeaf ..).mpr ⟨_, fresh, ?_⟩)
  have used : node.slotuse = (pairs.map Prod.fst).length := by rw [stores.used, List.length_map]
  have usedData : node.slotuse = (pairs.map Prod.snd).length := by
    rw [stores.used, List.length_map]
  have room : (LeafNode.initial tree.sizes.leafslotmax : LeafNode K D).slotkey.length =
      tree.sizes.leafslotmax := Buffer.length_alloc _
  by_cases fits : pairs.length ≤ tree.sizes.leafslotmax
  · refine .of_runs ?_ fits
    obtain ⟨keys, keysCopied, keysHold, keysSize⟩ := (Buffer.holds_nil
      (LeafNode.initial tree.sizes.leafslotmax : LeafNode K D).slotkey).appendAll stores.keys
        (by simpa [LeafNode.initial] using fits)
    obtain ⟨data, dataCopied, dataHold, dataSize⟩ := (Buffer.holds_nil
      (LeafNode.initial tree.sizes.leafslotmax : LeafNode K D).slotdata).appendAll stores.data
        (by simpa [LeafNode.initial] using fits)
    have notBrk : ∀ other ∈ lefts, other ≠ tree.brk := fun other member =>
      Nat.ne_of_lt (chained.lt_brk unused member)
    have chained' : tree.withLeaf.Chained lefts := chained.congr
      (fun other member => BTree.links_withLeaf_of_ne (notBrk other member)) rfl rfl
    simp only [runs_bind, runs_copySlots]
    refine ⟨keys, used ▸ keysCopied, data, usedData ▸ dataCopied, ?_⟩
    have filled : LeafNode.Stores ⟨node.slotuse, none, none, keys, data⟩ tree.sizes.leafslotmax
        pairs :=
      ⟨stores.used, keysHold, dataHold, keysSize.trans room,
        dataSize.trans (Buffer.length_alloc _)⟩
    refine (appendLeaf_runs filled rfl chained' nodup fun member => notBrk _ member rfl).mono ?_
    rintro - after ⟨⟨copied, atNew, holds⟩, frame, linked, mRoot, mStats, brk⟩
    refine (runs_pure ..).mpr ⟨.leaf tree.brk pairs, rfl, ?_⟩
    have sizes : after.sizes = tree.sizes := frame.sizes
    have within : tree.Frame after {ptr | ptr = tree.brk ∨ tree.brk ≤ ptr} :=
      (BTree.frame_withLeaf.trans frame).mono fun other isNew => .inl isNew
    have next : after.brk = tree.brk + 1 := brk
    refine ⟨?_, by simp, within, next ▸ Nat.le_succ _, fun other above => ?_, by simp,
      fun other => ?_, by simpa using linked, mRoot, by rw [mStats]; rfl,
      by simp [mStats, BTree.withLeaf], by simp [mStats, BTree.withLeaf]⟩
    · simp only [List.mem_singleton, forall_eq]
      exact ⟨copied, atNew, sizes ▸ holds⟩
    · rw [next] at above
      have different : other ≠ tree.brk := Nat.ne_of_gt above
      refine frame.heap_eq_none different ?_
      exact (BTree.heap_withLeaf_of_ne different).trans (unused other (Nat.le_of_succ_le above))
    · rw [next, Forest.foot_cons, Forest.foot_nil, add_zero, Tree.foot_leaf, Multiset.mem_singleton]
      constructor
      · rintro rfl
        exact ⟨Nat.le_refl _, Nat.lt_succ_self _⟩
      · rintro ⟨above, below⟩
        exact Nat.le_antisymm (Nat.le_of_lt_succ below) above
  · refine .inr ⟨fits, (copySlots_faults ?_).bind⟩
    rw [room, stores.used]
    exact Nat.lt_of_not_le fits

/-! ## Inner nodes -/

/-- An inner node whose keys are in place and whose children are being filled
in. -/
def BTree.Filling (tree : BTree K D) (ptr : Ptr) (level : Nat) (keys : List K)
    (children : List Ptr) : Prop :=
  ∃ node, tree.heap ptr = some (.inner node) ∧ node.level = level ∧
    node.slotuse = keys.length ∧ node.slotkey.Holds keys ∧ node.childid.Holds children ∧
    node.slotkey.length = tree.sizes.innerslotmax ∧
    node.childid.length = uadd tree.sizes.innerslotmax 1

theorem BTree.Filling.innerAt {ptr : Ptr} {level : Nat} {keys : List K} {children : List Ptr}
    (filling : tree.Filling ptr level keys children) (count : children.length = keys.length + 1) :
    tree.InnerAt ptr level keys children := by
  obtain ⟨node, found, isLevel, used, keysHold, childrenHold, keyRoom, childRoom⟩ := filling
  exact ⟨node, found, isLevel, used, count, keysHold, childrenHold, keyRoom, childRoom⟩

private theorem copyChildren_wide {inner : InnerNode K} (wide : 2 ^ 16 ≤ inner.slotuse + 1)
    (newinner : Ptr) (copy : Ptr → M K D Ptr) {fuel slot : Nat} (small : slot < 2 ^ 16) :
    Faults (copyChildren inner newinner copy fuel slot) tree := by
  have inside : slot ≤ inner.slotuse := by omega
  induction fuel generalizing slot tree with
  | zero =>
      rw [copyChildren, if_pos inside]
      exact faults_throw ..
  | succ fuel ih =>
      have next : (slot + 1) % 2 ^ 16 < 2 ^ 16 := Nat.mod_lt _ (by decide)
      rw [copyChildren, if_pos inside]
      refine faults_bind fun _ _ _ => faults_bind fun _ _ _ => faults_bind fun _ _ _ =>
        faults_bind fun _ _ _ => faults_bind fun _ _ _ => ih next ?_
      omega

/-- What a copy of a subtree is. -/
def CopiesTo (copy : M K D Ptr) (height : Nat) (source : Tree K D) (sizes : NodeSizes) : Prop :=
  ∀ (state : BTree K D) (lefts : List Ptr), state.sizes = sizes →
    (∀ ptr, state.brk ≤ ptr → state.heap ptr = none) → state.Chained lefts → lefts.Nodup →
    RunsIf (source.Fits sizes ∧ source.Narrow) copy state fun ptr after =>
      ∃ twin, twin.ptr = ptr ∧ Copied state after state.brk lefts height [source] [twin]

private theorem Copied.nodup_lefts {before after : BTree K D} {lefts : List Ptr}
    {source copy : Tree K D} (copied : Copied before after before.brk lefts height [source] [copy])
    (unused : ∀ ptr, before.brk ≤ ptr → before.heap ptr = none) (chained : before.Chained lefts)
    (nodup : lefts.Nodup) : (lefts ++ copy.leaves).Nodup := by
  have inFoot : (copy.leaves : Multiset Ptr) ≤ copy.foot :=
    (copied.stored copy (by simp)).leaves_le_foot
  have footNodup : copy.foot.Nodup := by simpa using copied.nodup
  refine List.nodup_append.mpr ⟨nodup, Multiset.coe_nodup.mp
    (Multiset.nodup_of_le inFoot footNodup), fun ptr inLefts other inCopy same => ?_⟩
  have range := (copied.foot other).mp
    (by simpa using Multiset.mem_of_le inFoot (Multiset.mem_coe.mpr inCopy))
  have below := chained.lt_brk unused inLefts
  rw [same] at below
  exact Nat.not_lt_of_le range.1 below

private theorem copyChildren_runs {inner : InnerNode K} {newinner : Ptr} {capacity level : Nat}
    {keys : List K} {front back : Forest K D} {done lefts : List Ptr} {copy : Ptr → M K D Ptr}
    (source : inner.Stores capacity keys ((front ++ back).map Tree.ptr))
    (short : (front ++ back).length < 2 ^ 16) (aligned : done.length = front.length)
    (filling : tree.Filling newinner level keys done)
    (older : newinner < tree.brk)
    (unused : ∀ ptr, tree.brk ≤ ptr → tree.heap ptr = none) (chained : tree.Chained lefts)
    (nodup : lefts.Nodup)
    (copies : ∀ kid ∈ back, CopiesTo (copy kid.ptr) height kid tree.sizes) :
    RunsIf ((front ++ back).length ≤ uadd tree.sizes.innerslotmax 1 ∧
        ∀ kid ∈ back, kid.Fits tree.sizes ∧ kid.Narrow)
      (copyChildren inner newinner copy back.length front.length) tree fun _ after =>
        ∃ twins, Copied tree after newinner lefts height back twins ∧
          after.Filling newinner level keys (done ++ twins.map Tree.ptr) := by
  have count := source.count
  rw [List.length_map, List.length_append] at count
  induction back generalizing tree front done lefts with
  | nil =>
      rw [List.length_nil] at count
      rw [List.length_nil, copyChildren, if_neg (by rw [source.used]; omega)]
      refine .of_runs ((runs_pure ..).mpr ⟨[], .refl unused chained, by simpa using filling⟩)
        ⟨?_, by simp⟩
      obtain ⟨node, -, -, -, -, childrenHold, -, childRoom⟩ := filling
      have filled := childrenHold.length_le
      rwa [childRoom, aligned, ← List.append_nil front] at filled
  | cons kid back ih =>
      rw [List.length_cons] at count
      have read := source.children
      rw [List.map_append, List.map_cons] at read
      have readKid := read.read
      rw [List.length_map] at readKid
      rw [List.length_cons, copyChildren, if_pos (by rw [source.used]; omega)]
      have condition : ((kid.Fits tree.sizes ∧ kid.Narrow) ∧
          (front ++ kid :: back).length ≤ uadd tree.sizes.innerslotmax 1 ∧
          ∀ other ∈ back, other.Fits tree.sizes ∧ other.Narrow) ↔
            (front ++ kid :: back).length ≤ uadd tree.sizes.innerslotmax 1 ∧
              ∀ other ∈ kid :: back, other.Fits tree.sizes ∧ other.Narrow := by
        rw [List.forall_mem_cons, and_left_comm]
      refine .after ((runs_readSlot ..).mpr ⟨kid.ptr, readKid, ?_⟩)
      refine ((copies kid (by simp) tree lefts rfl unused chained nodup).bind ?_).congr condition
      rintro ptr middle ⟨twin, rfl, copied⟩
      have sizes : middle.sizes = tree.sizes := copied.frame.sizes
      obtain ⟨node, found, isLevel, used, keysHold, childrenHold, keyRoom, childRoom⟩ := filling
      have foundNow : middle.heap newinner = some (.inner node) := by
        refine BTree.inner_of_content (copied.frame.content newinner ?_) found
        rintro (isBrk | above)
        · exact Nat.ne_of_lt older isBrk
        · exact Nat.not_lt_of_le above older
      refine .after ((runs_getInner ..).mpr ⟨node, foundNow, ?_⟩)
      rw [← sizes] at childRoom
      by_cases fits : done.length < node.childid.length
      case neg =>
        refine .inr ⟨fun both => fits ?_, (writeSlot_faults (by omega)).bind⟩
        have room := both.1
        rw [List.length_append, List.length_cons] at room
        rw [childRoom, sizes, aligned]
        omega
      obtain ⟨childid, written, childidHolds, childidSize⟩ := childrenHold.push fits twin.ptr
      rw [aligned] at written
      refine .after ((runs_writeSlot ..).mpr ⟨childid, written, ?_⟩)
      refine .after ((runs_setInner ..).mpr ?_)
      have total : front.length + 1 < 2 ^ 16 := by
        rw [List.length_append, List.length_cons] at short
        omega
      rw [Nat.mod_eq_of_lt total]
      have rewritten := BTree.Rewritten.setInner foundNow { node with childid }
      have fillingNow : (middle.setNode newinner (some (.inner { node with childid }))).Filling
          newinner level keys (done ++ [twin.ptr]) :=
        ⟨_, BTree.heap_setNode_self .., isLevel, used, keysHold, childidHolds,
          keyRoom.trans (by rw [BTree.sizes_setNode, sizes]),
          childidSize.trans (childRoom.trans (by rw [BTree.sizes_setNode]))⟩
      generalize middle.setNode newinner (some (.inner { node with childid })) = between
        at rewritten fillingNow ⊢
      have sizesNow : between.sizes = tree.sizes := rewritten.frame.sizes.trans sizes
      have olderNow : newinner < between.brk := by
        rw [rewritten.brk]
        exact Nat.lt_of_lt_of_le older copied.brk
      have unusedNow : ∀ ptr, between.brk ≤ ptr → between.heap ptr = none := by
        intro ptr above
        refine rewritten.frame.heap_eq_none ?_ (copied.unused ptr (rewritten.brk ▸ above))
        rintro rfl
        exact Nat.not_lt_of_le above olderNow
      have chainedNow : between.Chained (lefts ++ twin.leaves) := by
        have chained : middle.Chained (lefts ++ twin.leaves) := by simpa using copied.chained
        exact chained.congr (fun ptr _ => rewritten.links ptr) rewritten.mHeadleaf
          rewritten.mTailleaf
      have regroup : front ++ kid :: back = (front ++ [kid]) ++ back := List.append_cons ..
      rw [regroup] at source short
      have rest := ih source short (by simp [aligned]) fillingNow olderNow
        unusedNow chainedNow (copied.nodup_lefts unused chained nodup)
        (fun other member => sizesNow ▸ copies other (by simp [member]))
        (by rw [List.length_append, List.length_singleton]; omega)
      rw [← List.append_cons, @List.length_append _ front [kid], List.length_singleton,
        sizesNow] at rest
      refine rest.mono ?_
      rintro - after ⟨twins, copiedRest, filled⟩
      refine ⟨twin :: twins, copied.cons older rewritten copiedRest, ?_⟩
      rwa [List.map_cons, List.append_cons]

/-- A new inner node was allocated, and nothing else changed. -/
private structure Started (before after : BTree K D) : Prop where
  frame : before.Frame after {before.brk}
  links : ∀ ptr, ptr ≠ before.brk → after.links ptr = before.links ptr
  mRoot : after.mRoot = before.mRoot
  mHeadleaf : after.mHeadleaf = before.mHeadleaf
  mTailleaf : after.mTailleaf = before.mTailleaf
  mStats : after.mStats = { before.mStats with innernodes := before.mStats.innernodes + 1 }
  brk : after.brk = before.brk + 1
  unused : ∀ ptr, after.brk ≤ ptr → after.heap ptr = none

namespace Started

theorem of_setInner (tree : BTree K D) (level : Nat) (node : InnerNode K)
    (unused : ∀ ptr, tree.brk ≤ ptr → tree.heap ptr = none) :
    Started tree ((tree.withInner level).setNode tree.brk (some (.inner node))) where
  frame := BTree.frame_withInner.trans (BTree.Frame.setNode _ _ _)
  links ptr different := by
    simp [BTree.links, BTree.heap_setNode_of_ne _ _ different,
      BTree.heap_withInner_of_ne different]
  mRoot := rfl
  mHeadleaf := rfl
  mTailleaf := rfl
  mStats := rfl
  brk := rfl
  unused ptr above := by
    have different : ptr ≠ tree.brk := Nat.ne_of_gt above
    rw [BTree.heap_setNode_of_ne _ _ different, BTree.heap_withInner_of_ne different]
    exact unused ptr (Nat.le_of_succ_le above)

variable {before start after : BTree K D} {lefts : List Ptr}

theorem chained (started : Started before start)
    (unused : ∀ ptr, before.brk ≤ ptr → before.heap ptr = none) (chained : before.Chained lefts) :
    start.Chained lefts :=
  chained.congr (fun _ member => started.links _ (Nat.ne_of_lt (chained.lt_brk unused member)))
    started.mHeadleaf started.mTailleaf

/-- The node was filled with copies of the children. -/
theorem copied {ptr : Ptr} {keys : List K} {kids twins : Forest K D} (started : Started before start)
    (copied : Copied start after before.brk lefts height kids twins)
    (filled : after.Filling before.brk (height + 1) keys (twins.map Tree.ptr))
    (count : kids.length = keys.length + 1) :
    Copied before after before.brk lefts (height + 1) [.inner ptr keys kids]
      [.inner before.brk keys twins] := by
  have sameCount : twins.length = kids.length := by
    simpa using congrArg List.length copied.bare
  have range : ∀ ptr, ptr ∈ Forest.foot twins ↔ before.brk + 1 ≤ ptr ∧ ptr < after.brk := by
    intro ptr
    rw [copied.foot, started.brk]
  have upper : before.brk + 1 ≤ after.brk := started.brk ▸ copied.brk
  constructor
  case stored =>
    rw [List.forall_mem_singleton]
    exact ⟨filled.innerAt (by rw [List.length_map, sameCount, count]), copied.stored⟩
  case bare => simp [copied.bare]
  case frame =>
    refine (started.frame.mono ?_).trans (copied.frame.mono ?_)
    · rintro ptr rfl
      exact .inl rfl
    · rintro ptr (isNew | above)
      · exact .inl isNew
      · rw [started.brk] at above
        exact .inr (Nat.le_of_succ_le above)
  case brk => exact Nat.le_of_succ_le upper
  case unused => exact copied.unused
  case nodup =>
    rw [Forest.foot_cons, Forest.foot_nil, add_zero, Tree.foot_inner, Multiset.nodup_cons, range]
    exact ⟨fun above => Nat.not_succ_le_self _ above.1, copied.nodup⟩
  case foot =>
    intro ptr
    rw [Forest.foot_cons, Forest.foot_nil, add_zero, Tree.foot_inner, Multiset.mem_cons, range]
    constructor
    · rintro (rfl | ⟨above, below⟩)
      · exact ⟨Nat.le_refl _, upper⟩
      · exact ⟨Nat.le_of_succ_le above, below⟩
    · rintro ⟨above, below⟩
      exact (Nat.eq_or_lt_of_le above).imp Eq.symm (⟨·, below⟩)
  case chained => simpa using copied.chained
  case mRoot => rw [copied.mRoot, started.mRoot]
  case itemcount => rw [copied.itemcount, started.mStats]
  case leaves => rw [copied.leaves, started.mStats]; simp
  case innernodes =>
    rw [copied.innernodes, started.mStats]
    simp only [Forest.innerCount_cons, Forest.innerCount_nil, Tree.innerCount_inner]
    omega

end Started

/-- The loop over the children of a new inner node. -/
private theorem copyInner_runs {start : BTree K D} {inner : InnerNode K} {ptr : Ptr} {keys : List K}
    {kids : Forest K D} {lefts : List Ptr} {capacity : Nat}
    (below : ∀ kid ∈ kids, other.Represents height kid)
    (stores : inner.Stores capacity keys (kids.map Tree.ptr))
    (fits : keys.length ≤ tree.sizes.innerslotmax) (short : kids.length < 2 ^ 16)
    (nodup : lefts.Nodup) (chained : tree.Chained lefts)
    (unused : ∀ ptr, tree.brk ≤ ptr → tree.heap ptr = none)
    (copies : ∀ {sub : Tree K D}, other.Represents height sub →
      CopiesTo (copyRecursive other (height + 1) sub.ptr) height sub tree.sizes)
    (started : Started tree start) (filling : start.Filling tree.brk (height + 1) keys []) :
    RunsIf ((keys.length ≤ tree.sizes.innerslotmax ∧ kids.length ≤ uadd tree.sizes.innerslotmax 1 ∧
        ∀ kid ∈ kids, kid.Fits tree.sizes) ∧ kids.length < 2 ^ 16 ∧ ∀ kid ∈ kids, kid.Narrow)
      (copyChildren inner tree.brk (copyRecursive other (height + 1)) kids.length 0 >>= fun _ =>
        pure tree.brk) start fun newptr after => ∃ copy, copy.ptr = newptr ∧
          Copied tree after tree.brk lefts (height + 1) [.inner ptr keys kids] [copy] := by
  have sizes : start.sizes = tree.sizes := started.frame.sizes
  have count := stores.count
  rw [List.length_map] at count
  have atFirst : inner.Stores capacity keys (([] ++ kids).map Tree.ptr) := stores
  have rest := copyChildren_runs atFirst short rfl filling
    (started.brk ▸ Nat.lt_succ_self _) started.unused (started.chained unused chained) nodup
    fun kid member => sizes ▸ copies (below kid member)
  rw [sizes] at rest
  refine (rest.before fun _ after outcome => (runs_pure ..).mpr ?_).congr ?_
  · obtain ⟨twins, copied, filled⟩ := outcome
    exact ⟨.inner tree.brk keys twins, rfl, started.copied copied filled count⟩
  · simp only [List.nil_append, forall_and, fits, short, true_and, and_assoc]

/-- A subtree is copied exactly when its nodes fit and none is too wide. -/
theorem copyRecursive_runs (stored : other.Represents height sub) (sizes : NodeSizes) :
    CopiesTo (copyRecursive other (height + 1) sub.ptr) height sub sizes := by
  induction height generalizing sub with
  | zero =>
      obtain ⟨ptr, pairs, rfl⟩ := stored.exists_leaf
      rintro tree lefts rfl unused chained nodup
      refine (copyLeaf_runs stored unused chained nodup).congr ?_
      rw [Tree.fits_leaf, and_iff_left (Tree.narrow_leaf ..)]
  | succ height ih =>
      obtain ⟨ptr, keys, kids, rfl⟩ := stored.exists_inner
      obtain ⟨⟨inner, found, isLevel, stores⟩, below⟩ := stored
      rintro tree lefts rfl unused chained nodup
      rw [Tree.ptr_inner, copyRecursive, found]
      refine .after ((runs_orFault ..).mpr ⟨_, rfl, ?_⟩)
      refine .after ((runs_allocateInner ..).mpr ?_)
      have fresh : (tree.withInner inner.level).heap tree.brk =
          some (.inner (.initial inner.level tree.sizes.innerslotmax)) :=
        BTree.heap_setNode_self ..
      refine .after ((runs_getInner ..).mpr ⟨_, fresh, ?_⟩)
      have count := stores.count
      rw [List.length_map] at count
      have keyRoom : (InnerNode.initial inner.level tree.sizes.innerslotmax : InnerNode K).slotkey.length
          = tree.sizes.innerslotmax := Buffer.length_alloc _
      rw [Tree.fits_inner, Tree.narrow_inner]
      by_cases fits : keys.length ≤ tree.sizes.innerslotmax
      · obtain ⟨slotkey, keysCopied, keysHold, keysSize⟩ := (Buffer.holds_nil
          (InnerNode.initial inner.level tree.sizes.innerslotmax : InnerNode K).slotkey).appendAll
            stores.keys (by simpa [InnerNode.initial] using fits)
        refine .after ((runs_copySlots ..).mpr ⟨slotkey, stores.used ▸ keysCopied, ?_⟩)
        refine .after ((runs_setInner ..).mpr ?_)
        by_cases short : kids.length < 2 ^ 16
        · have same : inner.slotuse + 1 = kids.length := by rw [stores.used, count]
          rw [same]
          refine copyInner_runs below stores fits short nodup chained unused ih
            (.of_setInner tree inner.level _ unused) ?_
          exact ⟨_, BTree.heap_setNode_self .., isLevel, stores.used, keysHold, Buffer.holds_nil _,
            keysSize.trans keyRoom, Buffer.length_alloc _⟩
        · have wide : 2 ^ 16 ≤ inner.slotuse + 1 := by
            rw [stores.used]
            omega
          exact .inr ⟨fun both => short both.2.1,
            (copyChildren_wide wide tree.brk _ (by decide)).bind⟩
      · refine .inr ⟨fun both => fits both.1.1, (copySlots_faults ?_).bind⟩
        rw [keyRoom, stores.used]
        exact Nat.lt_of_not_le fits

/-! ## Whole trees -/

/-- Nothing is in memory yet. -/
structure BTree.Blank (tree : BTree K D) : Prop where
  head : tree.mHeadleaf = none
  tail : tree.mTailleaf = none
  unused : ∀ ptr, tree.heap ptr = none

theorem copyNodes_runs (whole : other.Stored height sub) (blank : tree.Blank) :
    RunsIf (sub.Fits tree.sizes ∧ sub.Narrow) (copyNodes other) tree fun _ after =>
      after.sizes = tree.sizes ∧ after.checks = tree.checks ∧
        after.mStats.itemcount = tree.mStats.itemcount ∧
        ∃ twin, after.Stored height twin ∧ twin.bare = sub.bare := by
  obtain ⟨node, found, isLevel, -⟩ := whole.stored.exists_node
  refine .after ((runs_modify ..).mpr ?_)
  rw [whole.root]
  dsimp only
  rw [found]
  refine .after ((runs_orFault ..).mpr ⟨node, rfl, ?_⟩)
  rw [isLevel]
  have copies := copyRecursive_runs whole.stored tree.sizes
    { tree with mStats := { tree.mStats with leaves := 0, innernodes := 0 } } [] rfl
    (fun ptr _ => blank.unused ptr) ⟨trivial, blank.head, blank.tail⟩ List.nodup_nil
  refine copies.before fun ptr middle copied => ?_
  obtain ⟨twin, rfl, copied⟩ := copied
  have same : twin.bare = sub.bare := by simpa using copied.bare
  rw [runs_modify]
  refine ⟨copied.frame.sizes, copied.frame.checks, copied.itemcount, twin, ?_, same⟩
  constructor
  case root => rfl
  case stored => exact (copied.stored twin (by simp)).congr rfl fun _ _ => rfl
  case nodup => simpa using copied.nodup
  case allocated =>
    intro ptr isStored
    have range := copied.foot ptr
    rw [Forest.foot_cons, Forest.foot_nil, add_zero] at range
    by_contra outside
    rcases Nat.lt_or_ge ptr tree.brk with below | above
    · refine isStored (copied.frame.heap_eq_none ?_ (blank.unused ptr))
      rintro (isBrk | above)
      · exact Nat.ne_of_lt below isBrk
      · exact Nat.not_lt_of_le above below
    · rcases Nat.lt_or_ge ptr middle.brk with inside | beyond
      · exact outside (range.mpr ⟨above, inside⟩)
      · exact isStored (copied.unused ptr beyond)
  case unused => exact copied.unused
  case chained =>
    have chained : middle.Chained twin.leaves := by simpa using copied.chained
    exact chained.congr (fun _ _ => rfl) rfl rfl
  case leaves =>
    have count := copied.leaves
    rw [Forest.leaves_cons, Forest.leaves_nil, List.append_nil, ← Tree.leafCount_eq_of_bare same,
      Nat.zero_add] at count
    exact count
  case innernodes =>
    have count := copied.innernodes
    rw [Forest.innerCount_cons, Forest.innerCount_nil, Nat.add_zero,
      ← Tree.innerCount_eq_of_bare same, Nat.zero_add] at count
    exact count

/-- The statistics of the source are those of its copy. -/
theorem BTree.Stored.setStats {after : BTree K D} {twin : Tree K D}
    (copied : after.Stored height twin) (same : twin.bare = sub.bare)
    (whole : other.Stored height sub) :
    BTree.Stored { after with mStats := other.mStats } height twin where
  root := copied.root
  stored := copied.stored.congr rfl fun _ _ => rfl
  nodup := copied.nodup
  allocated := copied.allocated
  unused := copied.unused
  chained := copied.chained.congr (fun _ _ => rfl) rfl rfl
  leaves := whole.leaves.trans (Tree.leafCount_eq_of_bare same).symm
  innernodes := whole.innernodes.trans (Tree.innerCount_eq_of_bare same).symm

/-- Assignment of a tree that counts no pair is `clear`. -/
theorem assign_none_runs (isTree : tree.IsTree) (none_ : other.mStats.itemcount = 0) :
    RunsIf (¬ tree.Wide) (assign other) tree fun _ after =>
      after.Vacant ∧ after.sizes = tree.sizes ∧ after.checks = tree.checks := by
  refine (clear_runs isTree).before fun _ after cleared => ?_
  rw [if_neg (not_not_intro none_), runs_pure]
  exact cleared

/-- Assignment of a tree that counts some pair replaces all nodes by copies. -/
theorem assign_some_runs (isTree : tree.IsTree) (whole : other.Stored height sub)
    (some_ : other.mStats.itemcount ≠ 0) :
    RunsIf (¬ tree.Wide ∧ sub.Fits tree.sizes ∧ sub.Narrow) (assign other) tree fun _ after =>
      after.sizes = tree.sizes ∧ after.checks = tree.checks ∧ after.mStats = other.mStats ∧
        ∃ twin, after.Stored height twin ∧ twin.bare = sub.bare := by
  refine (clear_runs isTree).bind fun _ middle cleared => ?_
  obtain ⟨vacant, sizes, checks⟩ := cleared
  rw [if_pos some_, ← sizes, ← checks]
  refine (copyNodes_runs whole ⟨vacant.head, vacant.tail, vacant.unused⟩).before
    fun _ after copied => ?_
  obtain ⟨sizesAfter, checksAfter, -, twin, stored, same⟩ := copied
  rw [runs_modify]
  exact ⟨sizesAfter, checksAfter, rfl, twin, stored.setStats same whole, same⟩

/-- The copy constructor leaves an object without pairs alone. -/
theorem copyConstruct_none_runs (none_ : tree.mStats.itemcount = 0) :
    Runs (copyConstruct other) tree fun _ after => after = tree := by
  rw [copyConstruct, runs_bind, runs_get, if_neg (by omega), runs_pure]

theorem copyConstruct_some_runs {sizes : NodeSizes} {checks : Assertion → Bool}
    (whole : other.Stored height sub) (some_ : other.mStats.itemcount ≠ 0) :
    RunsIf (sub.Fits sizes ∧ sub.Narrow) (copyConstruct other)
      (BTree.uninitialised sizes checks other) fun _ after =>
        after.sizes = sizes ∧ after.mStats = other.mStats ∧
          ∃ twin, after.Stored height twin ∧ twin.bare = sub.bare := by
  have counted : 0 < (BTree.uninitialised sizes checks other).mStats.itemcount :=
    Nat.pos_of_ne_zero some_
  have blank : (BTree.uninitialised sizes checks other).Blank := ⟨rfl, rfl, fun _ => rfl⟩
  refine .after ((runs_get ..).mpr ?_)
  rw [if_pos counted]
  refine (copyNodes_runs whole blank).mono fun _ after copied => ?_
  obtain ⟨sizesAfter, -, itemcount, twin, stored, same⟩ := copied
  refine ⟨sizesAfter, ?_, twin, stored, same⟩
  have leaves := stored.leaves.trans ((Tree.leafCount_eq_of_bare same).trans whole.leaves.symm)
  have innernodes :=
    stored.innernodes.trans ((Tree.innerCount_eq_of_bare same).trans whole.innernodes.symm)
  exact TreeStats.ext itemcount leaves innernodes

end PersistentBTree.Memory
