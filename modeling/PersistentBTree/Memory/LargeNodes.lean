import PersistentBTree.Memory.InsertProperties
import PersistentBTree.Memory.Lookup
import PersistentBTree.Memory.ReachableProperties
import PersistentBTree.Memory.SizeProperties

/-! What becomes of calls when a node uses more slots than the sums of an `int` can
count, and when the number of children of an inner node is out of range. -/

set_option autoImplicit false

namespace PersistentBTree.Memory

open Imperative Multimap

variable {K D : Type} [LinearOrder K] [Inhabited K] {tree : BTree K D} {bounds : Bounds}
  {height least : Nat} {sub : Tree K D} {key : K} {value : D}

/-- The numbers of used slots are in the range of an `int`. -/
def BTree.IntSlots (tree : BTree K D) : Prop :=
  ∀ ptr node, tree.heap ptr = some node → node.slotuse < 2 ^ 31

/-! ## Insertion -/

/-- When a search on the way down does not end at the right slot, its sums are out
of range. -/
theorem insertDescend_faults (ints : tree.IntSlots) (stored : tree.Represents height sub)
    (wellFormed : WellFormed bounds least height sub) (sorted : Sorted sub.pairs)
    (never : ¬ sub.Reaches key) : Faults (insertDescend (height + 1) sub.ptr key value) tree := by
  induction height generalizing sub least with
  | zero =>
      obtain ⟨ptr, pairs, rfl⟩ := stored.exists_leaf
      obtain ⟨node, found, stores⟩ := stored
      rw [Tree.pairs_leaf] at sorted
      have few : (pairs.map Prod.fst).length < 2 ^ 31 := by
        rw [List.length_map, ← stores.used]
        exact ints ptr _ found
      refine Runs.faults_bind ((runs_getNode ..).mpr ⟨_, found, Faults.bind ?_⟩)
      rw [stores.used, ← List.length_map Prod.fst]
      refine findLower_faults stores.keys (List.pairwise_map.mpr sorted) few fun finds => ?_
      rw [List.countP_map, List.length_map] at finds
      exact never (.leaf finds)
  | succ height ih =>
      obtain ⟨ptr, keys, kids, rfl⟩ := stored.exists_inner
      obtain ⟨node, found, -, stores⟩ := stored.1
      have few : keys.length < 2 ^ 31 := by
        rw [← stores.used]
        exact ints ptr _ found
      rw [Tree.pairs_inner] at sorted
      have keysSorted := separators_sorted wellFormed.2.2.2.1 sorted
      refine Runs.faults_bind ((runs_getNode ..).mpr ⟨_, found, ?_⟩)
      simp only [stores.used]
      by_cases finds : Finds keys.length (keys.countP (· < key))
      · refine Runs.faults_bind (findLower_runs stores.keys keysSorted finds
          fun frontKeys backKeys split lower upper => ?_)
        subst split
        obtain ⟨front, kid, back, rfl, aligned, -, -, -, -⟩ :=
          cut_kids (fun _ _ => lt_of_le_of_lt) wellFormed sorted lower upper
        have children :
            node.childid.Holds (front.map Tree.ptr ++ kid.ptr :: back.map Tree.ptr) := by
          simpa using stores.children
        refine Runs.faults_bind ((runs_readSlot ..).mpr
          ⟨kid.ptr, by simpa [aligned] using children.read, Faults.bind ?_⟩)
        simp only [Forest.pairs_append, Forest.pairs_cons] at sorted
        refine ih (stored.2 kid (by simp)) (wellFormed.2.2.2.2 kid (by simp))
          (sorted_append.mp (sorted_append.mp sorted).2.1).1 fun reaches => never ?_
        refine .inner finds fun front' kid' back' same size => ?_
        rw [countP_of_cut lower upper, ← aligned] at size
        obtain ⟨-, same⟩ := List.append_inj same.symm size
        exact (List.cons.inj same).1 ▸ reaches
      · exact (findLower_faults stores.keys keysSorted few finds).bind

omit [LinearOrder K] [Inhabited K] in
/-- An inner node whose number of children is out of range has no room for one. -/
theorem growRoot_faults {newkey : K} {newchild : Ptr}
    (stored : tree.Represents height sub) (wraps : uadd tree.sizes.innerslotmax 1 = 0) :
    Faults (growRoot sub.ptr newkey (some newchild)) tree := by
  refine Runs.faults_bind (stored.runs_level.mpr ?_)
  refine Runs.faults_bind ((runs_allocateInner ..).mpr ?_)
  refine Runs.faults_bind ((runs_getInner ..).mpr ⟨_, BTree.heap_setNode_self .., ?_⟩)
  refine faults_bind fun slotkey middle _ => (writeSlot_faults ?_).bind
  simp [InnerNode.initial, wraps]

omit [LinearOrder K] [Inhabited K] in
/-- No inner node is stored when its number of children is out of range. -/
private theorem BTree.Represents.isLeaf (stored : tree.Represents height sub)
    (wraps : uadd tree.sizes.innerslotmax 1 = 0) :
    height = 0 ∧ ∃ ptr pairs, sub = .leaf ptr pairs := by
  cases height with
  | zero => exact ⟨rfl, stored.exists_leaf⟩
  | succ height =>
      obtain ⟨ptr, keys, kids, rfl⟩ := stored.exists_inner
      obtain ⟨node, -, -, stores⟩ := stored.1
      have room := stores.children.length_le
      rw [stores.childRoom, wraps, stores.count] at room
      cases room

/-- A key that a tree does not take cannot be inserted. -/
theorem insert_faults (splits : bounds.Splits tree.sizes) (rooted : tree.Rooted bounds height sub)
    (ints : tree.IntSlots) (isUnsigned : tree.sizes.innerslotmax < 2 ^ 32)
    (never : ¬ sub.Takes key tree.sizes) : Faults (insert key value) tree := by
  have begins : Runs insertRoot tree fun root start => sub.ptr = root ∧ tree = start := by
    simp only [insertRoot, runs_bind, runs_get, rooted.root, runs_pure, and_self]
  refine Runs.faults_bind (begins.mono ?_)
  rintro _ _ ⟨rfl, rfl⟩
  refine Runs.faults_bind (rooted.stored.runs_level.mpr ?_)
  by_cases reaches : sub.Reaches key
  · have outOfRange : ¬ tree.sizes.innerslotmax + 1 < 2 ^ 32 := fun inRange =>
      never ⟨reaches, .inr inRange⟩
    have wraps : uadd tree.sizes.innerslotmax 1 = 0 := by
      rw [uadd]
      omega
    obtain ⟨rfl, ptr, pairs, rfl⟩ := rooted.stored.isLeaf wraps
    have full : tree.sizes.leafslotmax ≤ pairs.length := by
      by_contra room
      exact never ⟨reaches, .inl ⟨ptr, pairs, rfl, Nat.lt_of_not_le room⟩⟩
    refine Runs.faults_bind ((insertDescend_runs splits (by simp) rooted.stored rooted.wellFormed
      rooted.sorted reaches rooted.ready).mono ?_)
    rintro result middle ⟨forest, grown, shape, -, front, back, split, -, denotes⟩
    cases isSplit : result.splitnode with
    | none =>
        -- without a split one pair too many would be in the leaf
        rw [Insertion.Shape, isSplit] at shape
        obtain ⟨new, rfl, -, formed⟩ := shape
        obtain ⟨newPtr, newPairs, rfl⟩ := formed.exists_leaf
        have most := formed.2
        have inserted := denotes.pairsIn_eq
        rw [splits.leafMax] at most
        simp only [Forest.blocks_cons, Forest.blocks_nil, Tree.blocks_leaf, List.append_nil,
          pairsIn_cons, pairsIn_nil] at inserted
        rw [Tree.pairs_leaf] at split
        rw [inserted, List.length_append, List.length_cons] at most
        rw [split, List.length_append] at full
        omega
    | some splitnode =>
        rw [Insertion.Shape, isSplit] at shape
        obtain ⟨-, left, right, rfl, isOld, -⟩ := shape
        have leftStored := grown.stored left (by simp)
        rw [← isOld]
        exact (growRoot_faults leftStored (by rw [grown.frame.sizes, wraps])).bind
  · exact (insertDescend_faults ints rooted.stored rooted.wellFormed rooted.sorted reaches).bind

omit [Inhabited K] in
/-- More slots than an `int` can count are not searched at all. -/
theorem findLower_many {slotkey : Buffer K} {slotuse : Nat} (many : 2 ^ 31 ≤ slotuse)
    (few : slotuse < 2 ^ 32) : (findLower slotkey slotuse key : M K D Nat) = pure 0 := by
  rw [findLower, if_neg (by omega), Int.toNat_of_nonpos (le_of_lt (toInt_neg many few))]
  cases slotuse <;> rfl

/-- In such a leaf a new pair comes first, whatever its key is. -/
theorem insert_first {ptr : Ptr} {pairs : List (K × D)}
    (rooted : tree.Rooted bounds 0 (.leaf ptr pairs)) (large : 2 ≤ tree.sizes.leafslotmax)
    (many : 2 ^ 31 ≤ pairs.length) (few : pairs.length < 2 ^ 32)
    (room : pairs.length < tree.sizes.leafslotmax) :
    Runs (insert key value) tree fun _ after => after.contents = (key, value) :: pairs := by
  obtain ⟨node, found, stores⟩ := rooted.stored
  have root : tree.mRoot = some ptr := rooted.root
  simp only [insert, insertRoot, runs_bind, runs_get, root, runs_pure]
  refine rooted.stored.runs_level.mpr ?_
  simp only [insertDescend, runs_bind, runs_getNode]
  refine ⟨_, found, ?_⟩
  simp only [stores.used, findLower_many many few, runs_bind, runs_pure]
  have stored : tree.LeafAt ptr ([] ++ pairs) := ⟨node, found, stores⟩
  have chained : tree.Chained ([] ++ ptr :: []) := by simpa using rooted.ready.chained
  change Runs (insertIntoLeaf ptr ([] : List (K × D)).length key value) tree _
  refine insertIntoLeaf_runs stored large ?_ chained (by simp)
    (rooted.unused _ (Nat.le_refl _)) ?_ ?_ ?_
  · simpa using Nat.le_of_lt room
  · intro old new found links newStores _ splitkey
    simp only [growRoot, ↓reduceIte, runs_modify, runs_pure]
    refine (@BTree.Represents.contents_eq _ _ _ 0 _ ?_ root).trans (Tree.pairs_leaf ptr _)
    exact ⟨new, BTree.heap_setNode_self .., newStores⟩
  · intro after newkey moved staying _ _ _ full
    simp only [List.length_nil, Nat.zero_add] at full
    exact absurd full (Nat.ne_of_lt room)
  · intro after newkey staying moved _ _ _ full
    simp only [List.length_nil, Nat.zero_add] at full
    exact absurd full (Nat.ne_of_lt room)

/-! ## Filling a leaf -/

/-- Nodes use between half of their slots, rounded down, and all of them. -/
def NodeSizes.halves (sizes : NodeSizes) : Bounds where
  leafMin := sizes.leafslotmax / 2
  leafMax := sizes.leafslotmax
  innerMin := sizes.innerslotmax / 2
  innerMax := sizes.innerslotmax

omit [LinearOrder K] [Inhabited K] in
theorem NodeSizes.halves_splits {sizes : NodeSizes} (leafLarge : 2 ≤ sizes.leafslotmax)
    (innerLarge : 2 ≤ sizes.innerslotmax) : sizes.halves.Splits sizes where
  leafMax := rfl
  innerMax := rfl
  leafLarge := leafLarge
  innerLarge := innerLarge
  positive := Nat.div_pos leafLarge (by decide)
  leafMin := le_refl _
  innerMin := le_refl _

section Filled

variable [OrderBot K] {sizes : NodeSizes}

/-- The least key can be inserted as often as one likes. -/
theorem exists_repeated (leafLarge : 2 ≤ sizes.leafslotmax) (innerLarge : 2 ≤ sizes.innerslotmax)
    (inRange : sizes.innerslotmax + 1 < 2 ^ 32) (checks : Assertion → Bool) (value : D)
    (count : Nat) :
    ∃ tree : BTree K D, Reachable sizes checks tree ∧ tree.sizes = sizes ∧
      tree.Invariant sizes.halves ∧ tree.contents = List.replicate count (⊥, value) := by
  induction count with
  | zero => exact ⟨_, .empty sizes checks, rfl, BTree.empty_invariant _ sizes checks, rfl⟩
  | succ count ih =>
      obtain ⟨tree, reached, rfl, holds, contents⟩ := ih
      obtain ⟨reply, after, returned, kept, iter, -, inserted, -⟩ := Command.insert_perform
        (NodeSizes.halves_splits leafLarge innerLarge) holds ⊥ value
        fun height sub intact => ⟨intact.wellFormed.reaches_bot, .inr inRange⟩
      refine ⟨after, reached.tail ⟨.insert ⊥ value, reply, trivial, trivial, returned⟩, kept.sizes,
        kept.invariant, ?_⟩
      rw [inserted, contents, put]
      simp [List.replicate_succ]

/-- As long as there are fewer pairs than two leaves must have, the root is a leaf. -/
theorem exists_filled (leafLarge : 2 ≤ sizes.leafslotmax) (innerLarge : 2 ≤ sizes.innerslotmax)
    (inRange : sizes.innerslotmax + 1 < 2 ^ 32) (checks : Assertion → Bool) (value : D)
    {count : Nat} (some_ : 0 < count) (few : count < 2 * (sizes.leafslotmax / 2)) :
    ∃ (tree : BTree K D) (ptr : Ptr), Reachable sizes checks tree ∧ tree.sizes = sizes ∧
      tree.Intact sizes.halves 1 0 (.leaf ptr (List.replicate count (⊥, value))) := by
  obtain ⟨tree, reached, isSizes, holds, contents⟩ : ∃ tree : BTree K D, _ :=
    exists_repeated leafLarge innerLarge inRange checks value count
  rcases holds.shape with vacant | ⟨height, sub, intact⟩
  · rw [BTree.contents, vacant.leafBlocks_eq, pairsIn_nil] at contents
    have none_ := congrArg List.length contents
    rw [List.length_replicate] at none_
    exact absurd some_ (by simp [← none_])
  · rw [intact.contents_eq] at contents
    cases height with
    | zero =>
        obtain ⟨ptr, pairs, rfl⟩ := intact.stored.exists_leaf
        rw [Tree.pairs_leaf] at contents
        exact ⟨tree, ptr, reached, isSizes, contents ▸ intact⟩
    | succ height =>
        have enough := intact.wellFormed.root_at_least
        have powers : 1 ≤ (sizes.halves.innerMin + 1) ^ height :=
          Nat.one_le_pow _ _ (Nat.succ_pos _)
        have half : sizes.leafslotmax / 2 ≤ (sizes.halves.innerMin + 1) ^ height *
            sizes.halves.leafMin := Nat.le_mul_of_pos_left _ powers
        rw [contents, List.length_replicate] at enough
        omega

omit [Inhabited K] in
private theorem BTree.LeafAt.search_faults {ptr : Ptr} {count : Nat}
    (stored : tree.LeafAt ptr (List.replicate count (⊥, value))) (many : 2 ^ 30 < count)
    (few : count < 2 ^ 31) (above : ⊥ < key) {node : LeafNode K D}
    (found : tree.heap ptr = some (.leaf node)) :
    Faults (findLower node.slotkey node.slotuse key) tree := by
  obtain ⟨leaf, atLeaf, stores⟩ := stored
  obtain rfl := Node.leaf.inj (Option.some.inj (atLeaf.symm.trans found))
  have keys : leaf.slotkey.Holds (List.replicate count ⊥) := by simpa using stores.keys
  have size : leaf.slotuse = (List.replicate count (⊥ : K)).length := by simpa using stores.used
  have smaller : (List.replicate count (⊥ : K)).countP (· < key) = count := by
    rw [List.countP_replicate, if_pos (decide_eq_true above)]
  rw [size]
  refine findLower_faults keys (by simp) (by simpa using few) ?_
  rw [smaller, List.length_replicate]
  exact not_finds_last many

/-- A leaf that is large enough can be filled until a larger key is neither inserted nor
looked up. -/
theorem exists_unsearchable (sizes : NodeSizes) (leafLarge : 2 ^ 30 + 2 ≤ sizes.leafslotmax)
    (innerLarge : 2 ≤ sizes.innerslotmax) (inRange : sizes.innerslotmax + 1 < 2 ^ 32)
    (checks : Assertion → Bool) (above : ⊥ < key) (value : D) :
    ∃ (tree : BTree K D) (sub : Tree K D), Reachable sizes checks tree ∧ tree.sizes = sizes ∧
      tree.Intact sizes.halves 1 0 sub ∧ Faults (insert key value) tree ∧
        Faults (lowerBound key) tree := by
  have few : 2 ^ 30 + 1 < 2 * (sizes.leafslotmax / 2) := by omega
  obtain ⟨tree, ptr, reached, isSizes, intact⟩ : ∃ (tree : BTree K D) (_ : Ptr), _ :=
    exists_filled (by omega) innerLarge inRange checks value (Nat.succ_pos (2 ^ 30)) few
  have stored : tree.LeafAt ptr _ := intact.stored
  have root : tree.mRoot = some ptr := intact.root
  obtain ⟨node, found, -⟩ := id stored
  have faults := stored.search_faults (by decide) (by decide) above found
  refine ⟨tree, _, reached, isSizes, intact, ?_, ?_⟩
  · have begins : Runs insertRoot tree fun root start => ptr = root ∧ tree = start := by
      simp only [insertRoot, runs_bind, runs_get, root, runs_pure, and_self]
    refine Runs.faults_bind (begins.mono ?_)
    rintro _ _ ⟨rfl, rfl⟩
    refine Runs.faults_bind (intact.stored.runs_level.mpr (Faults.bind ?_))
    exact Runs.faults_bind ((runs_getNode ..).mpr ⟨_, found, faults.bind⟩)
  · refine Runs.faults_bind ((runs_get ..).mpr ?_)
    rw [root]
    refine Faults.bind (Runs.faults_bind (intact.stored.runs_level.mpr ?_))
    refine Runs.faults_bind ((runs_bind ..).mpr ((runs_getNode ..).mpr ⟨_, found, ?_⟩))
    rw [runs_pure]
    exact Runs.faults_bind ((runs_getLeaf ..).mpr ⟨_, found, faults.bind⟩)

/-- A leaf that is still larger gets out of order. -/
theorem exists_unsorted (sizes : NodeSizes) (leafLarge : 2 ^ 31 + 2 ≤ sizes.leafslotmax)
    (innerLarge : 2 ≤ sizes.innerslotmax) (inRange : sizes.innerslotmax + 1 < 2 ^ 32)
    (checks : Assertion → Bool) (above : ⊥ < key) (value : D) :
    ∃ tree : BTree K D, Reachable sizes checks tree ∧ ¬ Sorted tree.contents := by
  have few : 2 ^ 31 < 2 * (sizes.leafslotmax / 2) := by omega
  obtain ⟨tree, ptr, reached, isSizes, intact⟩ : ∃ (tree : BTree K D) (_ : Ptr), _ :=
    exists_filled (by omega) innerLarge inRange checks value (Nat.two_pow_pos 31) few
  have inserts : Runs (insert key value) tree fun _ after =>
      after.contents = (key, value) :: List.replicate (2 ^ 31) (⊥, value) := by
    refine insert_first (.of_intact intact) (by rw [isSizes]; omega) ?_ ?_ ?_
    · rw [List.length_replicate]
    · rw [List.length_replicate]
      decide
    · rw [List.length_replicate, isSizes]
      omega
  obtain ⟨⟨iter, isNew⟩, after, returned, contents⟩ := inserts
  have performed : Runs (Command.insert key value).perform tree fun _ final => final = after := by
    rw [Command.perform, runs_bind]
    exact ⟨_, after, returned, (runs_pure ..).mpr rfl⟩
  obtain ⟨reply, _, returned', rfl⟩ := performed
  refine ⟨_, reached.tail ⟨.insert key value, reply, trivial, trivial, returned'⟩, fun sorted => ?_⟩
  rw [contents, Sorted, List.pairwise_cons] at sorted
  have first := sorted.1 (⊥, value) (List.mem_replicate.mpr ⟨by decide, rfl⟩)
  exact not_lt_of_ge first above

/-- In such a leaf a slot may be negative as an `int`, and its pair cannot be erased. -/
theorem exists_negativeSlot (sizes : NodeSizes) (leafLarge : 2 ^ 31 + 3 ≤ sizes.leafslotmax)
    (innerLarge : 2 ≤ sizes.innerslotmax) (inRange : sizes.innerslotmax + 1 < 2 ^ 32)
    (checks : Assertion → Bool) (value : D) :
    ∃ (tree : BTree K D) (iter : Iterator) (front : List (K × D)) (pair : K × D)
      (back : List (K × D)), Reachable sizes checks tree ∧
        Denotes tree.leafBlocks iter front pair back ∧ Faults (eraseIter iter) tree := by
  have few : 2 ^ 31 + 1 < 2 * (sizes.leafslotmax / 2) := by omega
  obtain ⟨tree, ptr, reached, isSizes, intact⟩ : ∃ (tree : BTree K D) (_ : Ptr), _ :=
    exists_filled (by omega) innerLarge inRange checks value (Nat.succ_pos (2 ^ 31)) few
  have root : tree.mRoot = some ptr := intact.root
  obtain ⟨node, found, stores⟩ := id intact.stored
  have used : node.slotuse = 2 ^ 31 + 1 := by
    rw [stores.used, List.length_replicate]
  refine ⟨tree, ⟨some ptr, 2 ^ 31⟩, List.replicate (2 ^ 31) (⊥, value), (⊥, value), [], reached,
    ⟨[], ptr, List.replicate (2 ^ 31) (⊥, value), [], [], ?_, ?_, rfl, rfl⟩, ?_⟩
  · rw [intact.leafBlocks_eq, Tree.blocks_leaf, List.replicate_succ']
    rfl
  · rw [List.length_replicate]
  · refine Runs.faults_bind ((runs_get ..).mpr ?_)
    rw [root]
    refine Runs.faults_bind (intact.stored.runs_level.mpr (Faults.bind ?_))
    refine Runs.faults_bind ((runs_getNode ..).mpr ⟨_, found, ?_⟩)
    dsimp only
    rw [if_neg (by simp), if_neg (by rw [used]; decide)]
    refine Faults.bind ?_
    rw [intSlot, if_pos (toInt_neg (le_refl _) (by decide))]
    exact faults_throw ..

end Filled

end PersistentBTree.Memory
