import PersistentBTree.Memory.IterationProperties
import PersistentBTree.Memory.SearchProperties

/-! Every lookup goes down along the separators to the place where the keys are cut
in two: those before the key, and those that are not. -/

set_option autoImplicit false

namespace PersistentBTree.Memory

open Imperative Multimap

variable {K D : Type} [LinearOrder K] {tree : BTree K D} {bounds : Bounds} {height least : Nat}
  {sub : Tree K D} {before : K → Prop}

/-- A search in a node that returns the number of keys before a cut. -/
structure Searches (search : Buffer K → Nat → M K D Nat) (before : K → Prop) : Prop where
  closed : ∀ first second, first ≤ second → before second → before first
  finds : ∀ {tree : BTree K D} {slotkey : Buffer K} {keys : List K}, slotkey.Holds keys →
    keys.Pairwise (· ≤ ·) → keys.length ≤ 2 ^ 30 → ∀ {post : Nat → BTree K D → Prop},
      (∀ front back, keys = front ++ back → (∀ key ∈ front, before key) →
        (∀ key ∈ back, ¬ before key) → post front.length tree) →
      Runs (search slotkey keys.length) tree post

theorem searches_findLower (key : K) :
    Searches (D := D) (findLower · · key) (· < key) where
  closed _ _ order isLess := order.trans_lt isLess
  finds holds sorted few _ next :=
    findLower_runs holds sorted (finds_of_le List.countP_le_length few) next

theorem searches_findUpper (key : K) :
    Searches (D := D) (findUpper · · key) (· ≤ key) where
  closed _ _ order isLess := order.trans isLess
  finds holds sorted few _ next := findUpper_runs holds sorted few next

/-- The leaf in which the pairs are cut: all pairs in the leaves left of it are
before the cut, and if there is a leaf right of it, so is some pair in this one. -/
structure CutLeaf (before : K → Prop) (blocks earlier : List (Block K D)) (leaf : Ptr)
    (pairs : List (K × D)) (later : List (Block K D)) : Prop where
  split : blocks = earlier ++ (leaf, pairs) :: later
  cut : Cut before (pairsIn earlier) (pairsIn later)
  inside : later ≠ [] → ∃ pair ∈ pairs, ¬ before pair.1

omit [LinearOrder K] in
/-- The leaf stays the one of the cut among more leaves, those behind the cut
being separated from it by a key that is not before the cut. -/
theorem CutLeaf.widen {blocks earlier later front back : List (Block K D)} {leaf : Ptr}
    {pairs : List (K × D)} (found : CutLeaf before blocks earlier leaf pairs later)
    (cut : Cut before (pairsIn front) (pairsIn back))
    (last : back ≠ [] → ∃ key, lastKeyOf (pairsIn blocks) = some key ∧ ¬ before key) :
    CutLeaf before (front ++ (blocks ++ back)) (front ++ earlier) leaf pairs (later ++ back) where
  split := by simp [found.split]
  cut := by
    rw [pairsIn_append, pairsIn_append]
    exact ⟨List.forall_mem_append.mpr ⟨cut.1, found.cut.1⟩,
      List.forall_mem_append.mpr ⟨found.cut.2, cut.2⟩⟩
  inside some_ := by
    cases later with
    | cons block later => exact found.inside (List.cons_ne_nil block later)
    | nil =>
        obtain ⟨key, isLast, notBefore⟩ := last some_
        obtain ⟨lower, pair, kidPairs, rfl⟩ := lastKeyOf_eq_some isLast
        have among : pair ∈ pairsIn earlier ++ pairs := by
          rw [found.split, pairsIn_append, pairsIn_cons, pairsIn_nil, List.append_nil] at kidPairs
          exact kidPairs ▸ List.mem_append_right lower (List.mem_singleton_self pair)
        rcases List.mem_append.mp among with isBefore | member
        · exact absurd (found.cut.1 pair isBefore) notBefore
        · exact ⟨pair, member, notBefore⟩

theorem descend_runs {search : Buffer K → Nat → M K D Nat} (searches : Searches search before)
    (searchable : tree.Searchable) (stored : tree.Represents height sub)
    (formed : WellFormed bounds least height sub) (sorted : Sorted sub.pairs) :
    Runs (descend search (height + 1) sub.ptr) tree fun leaf after => after = tree ∧
      ∃ earlier pairs later, CutLeaf before sub.blocks earlier leaf pairs later := by
  induction height generalizing sub least with
  | zero =>
      obtain ⟨ptr, pairs, rfl⟩ := stored.exists_leaf
      obtain ⟨node, found, -⟩ := stored
      simp only [descend, runs_bind, runs_getNode]
      refine ⟨_, found, (runs_pure ..).mpr ⟨rfl, [], pairs, [], ?_⟩⟩
      exact ⟨by simp, by simp [Cut], fun some_ => absurd rfl some_⟩
  | succ height ih =>
      obtain ⟨ptr, keys, kids, rfl⟩ := stored.exists_inner
      obtain ⟨⟨node, found, -, stores⟩, below⟩ := stored
      rw [Tree.pairs_inner] at sorted
      rw [descend, runs_bind]
      refine (runs_getNode ..).mpr ⟨_, found, ?_⟩
      simp only [runs_bind, stores.used]
      refine searches.finds stores.keys (separators_sorted formed.2.2.2.1 sorted)
        (stores.used ▸ searchable ptr _ found)
        fun frontKeys backKeys split frontBefore backNot => ?_
      subst split
      obtain ⟨front, kid, back, rfl, size, -, -, cut, last⟩ :=
        cut_kids searches.closed formed sorted frontBefore backNot
      have held := stores.children
      rw [List.map_append, List.map_cons] at held
      have read := held.read
      rw [List.length_map, size] at read
      refine (runs_readSlot ..).mpr ⟨kid.ptr, read, ?_⟩
      have kidFormed := formed.2.2.2.2 kid (by simp)
      rw [Forest.pairs_append, Forest.pairs_cons] at sorted
      have kidSorted := (sorted_append.mp (sorted_append.mp sorted).2.1).1
      refine (ih (below kid (by simp)) kidFormed kidSorted).mono ?_
      rintro leaf after ⟨rfl, earlier, pairs, later, found⟩
      rw [Tree.blocks_inner, Forest.blocks_append, Forest.blocks_cons]
      exact ⟨rfl, _, _, _, found.widen cut fun some_ => last fun none_ => by simp [none_] at some_⟩

/-! ## The slot -/

/-- The slot in which the pairs are cut. It is behind the used slots of its leaf
only when there is no other leaf behind. -/
def CutSlot (before : K → Prop) (blocks : List (Block K D)) (place : Ptr × Nat) : Prop :=
  ∃ earlier lower upper later, blocks = earlier ++ (place.1, lower ++ upper) :: later ∧
    place.2 = lower.length ∧ (upper = [] → later = []) ∧
    Cut before (pairsIn earlier ++ lower) (upper ++ pairsIn later)

theorem lookUp_runs {search : Buffer K → Nat → M K D Nat} (searches : Searches search before)
    (searchable : tree.Searchable) (intact : tree.Intact bounds least height sub) :
    Runs (lookUp search sub.ptr) tree fun place after =>
      after = tree ∧ CutSlot before tree.leafBlocks place := by
  rw [lookUp, runs_bind, intact.stored.runs_level, runs_bind]
  refine (descend_runs searches searchable intact.stored intact.wellFormed intact.sorted).mono ?_
  rintro leaf after ⟨rfl, earlier, pairs, later, found⟩
  rw [intact.leafBlocks_eq, runs_bind]
  have member : (leaf, pairs) ∈ sub.blocks := by simp [found.split]
  obtain ⟨node, atLeaf, stores⟩ := intact.stored.leafAt member
  refine (runs_getLeaf ..).mpr ⟨node, atLeaf, ?_⟩
  have sorted := intact.sorted
  rw [Tree.pairs, found.split, pairsIn_append, pairsIn_cons] at sorted
  have leafSorted := (sorted_append.mp (sorted_append.mp sorted).2.1).1
  have used : node.slotuse = (pairs.map Prod.fst).length := by rw [stores.used, List.length_map]
  have few : (pairs.map Prod.fst).length ≤ 2 ^ 30 := by
    rw [← used]
    exact searchable leaf _ atLeaf
  rw [runs_bind, used]
  refine searches.finds stores.keys (List.pairwise_map.mpr leafSorted) few
    fun frontKeys backKeys split frontBefore backNot => (runs_pure ..).mpr ⟨rfl, ?_⟩
  obtain ⟨lower, upper, rfl, rfl, rfl, cut⟩ := cut_pairs split frontBefore backNot
  refine ⟨earlier, lower, upper, later, found.split, List.length_map _, fun none_ => ?_, ?_⟩
  · by_contra some_
    obtain ⟨pair, member, notBefore⟩ := found.inside some_
    rw [none_, List.append_nil] at member
    exact notBefore (cut.1 pair member)
  · exact ⟨List.forall_mem_append.mpr ⟨found.cut.1, cut.1⟩,
      List.forall_mem_append.mpr ⟨cut.2, found.cut.2⟩⟩

/-! ## Bounds -/

/-- The iterator is at this position of the stored pairs: at the pair there or,
behind the last one, it is `End`. -/
def BTree.At (tree : BTree K D) (iter : Iterator) (position : Nat) : Prop :=
  (∃ front pair back, Denotes tree.leafBlocks iter front pair back ∧ front.length = position) ∨
    position = tree.contents.length ∧ Runs endIter tree fun last after => after = tree ∧ last = iter

omit [LinearOrder K] in
theorem BTree.ChainOf.at_iterAt (chain : tree.ChainOf tree.leafBlocks) {position : Nat}
    (inside : position ≤ tree.contents.length) :
    tree.At (iterAt tree.leafBlocks position) position := by
  rcases Nat.lt_or_eq_of_le inside with less | rfl
  · exact .inl (denotes_iterAt less)
  · exact .inr ⟨rfl, chain.end_runs⟩

omit [LinearOrder K] in
theorem CutSlot.at {place : Ptr × Nat} (chain : tree.ChainOf tree.leafBlocks)
    (found : CutSlot before tree.leafBlocks place) {behind : K × D → Bool}
    (isBehind : ∀ pair, behind pair = true ↔ ¬ before pair.1) :
    tree.At ⟨some place.1, place.2⟩ (tree.contents.findIdx behind) := by
  obtain ⟨leaf, slot⟩ := place
  obtain ⟨earlier, lower, upper, later, isBlocks, rfl, closed, cut⟩ := found
  have contents : tree.contents = (pairsIn earlier ++ lower) ++ (upper ++ pairsIn later) := by
    rw [BTree.contents, isBlocks]
    simp
  have isIter : iterAt tree.leafBlocks (pairsIn earlier ++ lower).length =
      ⟨some leaf, lower.length⟩ := by
    rw [isBlocks]
    exact iterAt_of_split closed
  have inside : (pairsIn earlier ++ lower).length ≤ tree.contents.length := by
    rw [contents, @List.length_append _ (pairsIn earlier ++ lower)]
    exact Nat.le_add_right _ _
  have position := chain.at_iterAt inside
  rwa [isIter, ← cut.findIdx isBehind, ← contents] at position

omit [LinearOrder K] in
theorem BTree.ChainOf.end_at (chain : tree.ChainOf tree.leafBlocks) :
    Runs endIter tree fun iter after => after = tree ∧ tree.At iter tree.contents.length := by
  refine chain.end_runs.mono ?_
  rintro iter after ⟨rfl, rfl⟩
  exact ⟨rfl, chain.at_iterAt (le_refl _)⟩

omit [LinearOrder K] in
theorem BTree.Vacant.contents_eq (vacant : tree.Vacant) : tree.contents = [] := by
  rw [BTree.contents, vacant.leafBlocks_eq, pairsIn_nil]

theorem lowerBound_runs (holds : tree.Invariant bounds) (positive : 1 ≤ bounds.leafMin)
    (searchable : tree.Searchable) (key : K) :
    Runs (lowerBound key) tree fun iter after => after = tree ∧
      tree.At iter (tree.contents.findIdx fun pair => key ≤ pair.1) := by
  have chain := holds.chainOf positive
  rw [lowerBound, runs_bind, runs_get]
  rcases holds.shape with vacant | ⟨height, sub, intact⟩
  · have atEnd := chain.end_at
    rw [vacant.contents_eq, List.length_nil] at atEnd
    rw [vacant.root, vacant.contents_eq]
    exact atEnd
  · rw [intact.root, runs_bind]
    refine (lookUp_runs (searches_findLower key) searchable intact).mono ?_
    rintro place after ⟨rfl, found⟩
    exact (runs_pure ..).mpr ⟨rfl, found.at chain fun pair => by simp⟩

theorem upperBound_runs (holds : tree.Invariant bounds) (positive : 1 ≤ bounds.leafMin)
    (searchable : tree.Searchable) (key : K) :
    Runs (upperBound key) tree fun iter after => after = tree ∧
      tree.At iter (tree.contents.findIdx fun pair => key < pair.1) := by
  have chain := holds.chainOf positive
  rw [upperBound, runs_bind, runs_get]
  rcases holds.shape with vacant | ⟨height, sub, intact⟩
  · have atEnd := chain.end_at
    rw [vacant.contents_eq, List.length_nil] at atEnd
    rw [vacant.root, vacant.contents_eq]
    exact atEnd
  · rw [intact.root, runs_bind]
    refine (lookUp_runs (searches_findUpper key) searchable intact).mono ?_
    rintro place after ⟨rfl, found⟩
    exact (runs_pure ..).mpr ⟨rfl, found.at chain fun pair => by simp⟩

/-! ## One key -/

/-- The slot where the pairs with this key begin. -/
structure KeySlot (blocks : List (Block K D)) (key : K) (earlier : List (Block K D)) (leaf : Ptr)
    (lower upper : List (K × D)) (later : List (Block K D)) (same more : List (K × D)) :
    Prop where
  split : blocks = earlier ++ (leaf, lower ++ upper) :: later
  closed : upper = [] → later = []
  behind : upper ++ pairsIn later = same ++ more
  isKey : ∀ pair ∈ same, pair.1 = key
  more : ∀ pair ∈ more, key < pair.1

theorem CutSlot.keySlot {blocks : List (Block K D)} {key : K} {place : Ptr × Nat}
    (found : CutSlot (· < key) blocks place) (sorted : Sorted (pairsIn blocks)) :
    ∃ earlier lower upper later same more, place.2 = lower.length ∧
      KeySlot blocks key earlier place.1 lower upper later same more ∧
      pairsIn blocks = (pairsIn earlier ++ lower) ++ (same ++ more) ∧
      Surrounds key (pairsIn earlier ++ lower) same more := by
  obtain ⟨earlier, lower, upper, later, rfl, isSlot, closed, cut⟩ := found
  have contents : pairsIn (earlier ++ (place.1, lower ++ upper) :: later) =
      (pairsIn earlier ++ lower) ++ (upper ++ pairsIn later) := by simp
  rw [contents] at sorted
  obtain ⟨same, more, behind, around⟩ := cut.surrounds (sorted_append.mp sorted).2.1
  refine ⟨earlier, lower, upper, later, same, more, isSlot, ?_, behind ▸ contents, around⟩
  exact ⟨rfl, closed, behind, around.same, around.more⟩

section KeySlot

variable {blocks earlier later : List (Block K D)} {key : K} {leaf : Ptr}
  {lower upper same more : List (K × D)}

theorem KeySlot.hasKeyAt (chain : tree.ChainOf blocks)
    (slot : KeySlot blocks key earlier leaf lower upper later same more)
    {post : Bool → BTree K D → Prop} (next : post (!same.isEmpty) tree) :
    Runs (hasKeyAt leaf lower.length key) tree post := by
  obtain ⟨rfl, closed, behind, isKey, isMore⟩ := slot
  obtain ⟨node, found, stores, -, -⟩ := chain.exists_leaf
  have used := stores.used
  rw [List.length_append] at used
  rw [Memory.hasKeyAt, runs_bind]
  refine (runs_getLeaf ..).mpr ⟨node, found, ?_⟩
  cases upper with
  | nil =>
      rw [closed rfl, pairsIn_nil, List.append_nil, eq_comm, List.append_eq_nil_iff] at behind
      rw [List.length_nil] at used
      rw [if_neg (by omega), runs_pure]
      rwa [behind.1] at next
  | cons pair upper =>
      rw [List.length_cons] at used
      have read := stores.keys
      rw [List.map_append, List.map_cons] at read
      have readKey := read.read
      rw [List.length_map] at readKey
      rw [if_pos (by omega), runs_bind]
      refine (runs_readSlot ..).mpr ⟨pair.1, readKey, (runs_pure ..).mpr ?_⟩
      cases same with
      | nil =>
          have member : pair ∈ more := by
            rw [← List.nil_append more, ← behind]
            simp
          have differs := isMore pair member
          simpa [keyEqual, keyLess, differs] using next
      | cons first same =>
          rw [List.cons_append, List.cons_append, List.cons.injEq] at behind
          have isSame : pair.1 = key := behind.1 ▸ isKey first List.mem_cons_self
          simpa [keyEqual, keyLess, isSame] using next

/-- The loop of `count` counts the pairs with the key, over the links of the
leaves. -/
theorem KeySlot.countLoop_runs (chain : tree.ChainOf blocks)
    (small : ∀ block ∈ blocks, block.2.length < 2 ^ 31)
    (slot : KeySlot blocks key earlier leaf lower upper later same more) {fuel num : Nat}
    (enough : same.length < fuel) :
    Runs (countLoop key fuel (some leaf) lower.length num) tree fun total after =>
      after = tree ∧ total = num + same.length := by
  induction same generalizing earlier leaf lower upper later fuel num with
  | nil =>
      obtain ⟨fuel, rfl⟩ := Nat.exists_eq_succ_of_ne_zero (Nat.ne_of_gt enough)
      rw [countLoop, runs_bind]
      refine slot.hasKeyAt chain ?_
      exact (runs_pure ..).mpr ⟨rfl, rfl⟩
  | cons pair same ih =>
      obtain ⟨fuel, rfl⟩ := Nat.exists_eq_succ_of_ne_zero (Nat.ne_of_gt (Nat.zero_lt_of_lt enough))
      rw [countLoop, runs_bind]
      refine slot.hasKeyAt chain ?_
      obtain ⟨rfl, closed, behind, isKey, isMore⟩ := slot
      obtain ⟨node, found, stores, -, link⟩ := chain.exists_leaf
      have used := stores.used
      rw [List.length_append] at used
      have total : num + (pair :: same).length = num + 1 + same.length := by
        rw [List.length_cons]
        omega
      rw [List.length_cons] at enough
      have restKey : ∀ other ∈ same, other.1 = key := fun other member =>
        isKey other (List.mem_cons_of_mem pair member)
      have inLeaf : (lower ++ upper).length < 2 ^ 31 := small (leaf, lower ++ upper) (by simp)
      rw [List.isEmpty_cons, Bool.not_false, if_pos rfl, runs_bind, total, runs_addInt]
      rw [List.length_append] at inLeaf
      cases upper with
      | nil =>
          rw [closed rfl] at behind
          cases behind
      | cons first upper =>
          rw [List.cons_append, List.cons_append, List.cons.injEq] at behind
          obtain ⟨rfl, behind⟩ := behind
          rw [List.length_cons] at used inLeaf
          refine ⟨by omega, ?_⟩
          rw [runs_bind]
          refine (runs_getLeaf ..).mpr ⟨node, found, ?_⟩
          cases upper with
          | cons second upper =>
              rw [List.length_cons] at used
              have onward : KeySlot (earlier ++ (leaf, lower ++ first :: second :: upper) :: later)
                  key earlier leaf (lower ++ [first]) (second :: upper) later same more :=
                ⟨by simp, nofun, behind, restKey, isMore⟩
              have counted := @ih _ _ _ _ _ onward fuel (num + 1) (by omega)
              rw [List.length_append, List.length_singleton] at counted
              rwa [if_neg (by omega)]
          | nil =>
              rw [List.length_nil] at used
              rw [if_pos (by omega), link]
              cases later with
              | nil =>
                  rw [pairsIn_nil, List.append_nil, eq_comm, List.append_eq_nil_iff] at behind
                  obtain ⟨fuel, rfl⟩ := Nat.exists_eq_succ_of_ne_zero
                    (Nat.ne_of_gt (Nat.zero_lt_of_lt (Nat.lt_of_succ_lt_succ enough)))
                  rw [behind.1]
                  exact (runs_pure ..).mpr ⟨rfl, rfl⟩
              | cons block later =>
                  obtain ⟨nextleaf, pairs⟩ := block
                  have some_ := chain.filled nextleaf pairs (by simp)
                  rw [List.nil_append, pairsIn_cons] at behind
                  have onward : KeySlot
                      (earlier ++ (leaf, lower ++ [first]) :: (nextleaf, pairs) :: later) key
                      (earlier ++ [(leaf, lower ++ [first])]) nextleaf [] pairs later same more :=
                    ⟨by simp, fun none_ => absurd none_ some_, behind, restKey, isMore⟩
                  exact ih onward (by omega)

end KeySlot

/-- Where the pairs with the key begin in a tree that is not empty. -/
private theorem lookUp_keySlot (searchable : tree.Searchable)
    (intact : tree.Intact bounds 1 height sub) (sorted : Sorted tree.contents) (key : K) :
    Runs (lookUp (findLower · · key) sub.ptr) tree fun place after => after = tree ∧
      CutSlot (· < key) tree.leafBlocks place ∧
      ∃ earlier lower upper later same more, place.2 = lower.length ∧
        KeySlot tree.leafBlocks key earlier place.1 lower upper later same more ∧
        tree.contents = (pairsIn earlier ++ lower) ++ (same ++ more) ∧
        Surrounds key (pairsIn earlier ++ lower) same more := by
  refine (lookUp_runs (searches_findLower key) searchable intact).mono ?_
  rintro place after ⟨rfl, found⟩
  exact ⟨rfl, found, found.keySlot sorted⟩

theorem existsKey_runs (holds : tree.Invariant bounds) (positive : 1 ≤ bounds.leafMin)
    (searchable : tree.Searchable) (key : K) :
    Runs (existsKey key) tree fun found after => after = tree ∧
      (found = true ↔ ∃ pair ∈ tree.contents, pair.1 = key) := by
  have chain := holds.chainOf positive
  rw [existsKey, runs_bind, runs_get]
  rcases holds.shape with vacant | ⟨height, sub, intact⟩
  · rw [vacant.root, vacant.contents_eq]
    exact (runs_pure ..).mpr ⟨rfl, by simp⟩
  · rw [intact.root, runs_bind]
    refine (lookUp_keySlot searchable intact holds.sorted key).mono ?_
    rintro ⟨leaf, slot⟩ after ⟨rfl, -, earlier, lower, upper, later, same, more, rfl, keySlot,
      contents, around⟩
    refine keySlot.hasKeyAt chain ⟨rfl, ?_⟩
    rw [contents, around.exists_iff]
    simp

theorem find_runs (holds : tree.Invariant bounds) (positive : 1 ≤ bounds.leafMin)
    (searchable : tree.Searchable) (key : K) :
    Runs (find key) tree fun iter after => after = tree ∧
      tree.At iter (tree.contents.findIdx fun pair => pair.1 = key) := by
  have chain := holds.chainOf positive
  rw [find, runs_bind, runs_get]
  rcases holds.shape with vacant | ⟨height, sub, intact⟩
  · have atEnd := chain.end_at
    rw [vacant.contents_eq, List.length_nil] at atEnd
    rw [vacant.root, vacant.contents_eq]
    exact atEnd
  · rw [intact.root, runs_bind]
    refine (lookUp_keySlot searchable intact holds.sorted key).mono ?_
    rintro ⟨leaf, slot⟩ after ⟨rfl, found, earlier, lower, upper, later, same, more, rfl, keySlot,
      contents, around⟩
    have position := found.at chain fun pair => (decide_eq_true_iff (p := ¬ pair.1 < key))
    rw [contents, around.lower.findIdx fun pair => decide_eq_true_iff] at position
    rw [runs_bind, contents, around.findIdx]
    refine keySlot.hasKeyAt chain ?_
    cases same with
    | nil =>
        rw [if_pos rfl, ← contents]
        exact chain.end_at
    | cons pair same => exact (runs_pure ..).mpr ⟨rfl, position⟩

theorem countKey_runs (holds : tree.Invariant bounds) (positive : 1 ≤ bounds.leafMin)
    (searchable : tree.Searchable) (key : K) :
    Runs (countKey key) tree fun total after => after = tree ∧ total = count tree.contents key := by
  have chain := holds.chainOf positive
  rw [countKey, runs_bind, runs_get]
  rcases holds.shape with vacant | ⟨height, sub, intact⟩
  · rw [vacant.root, vacant.contents_eq]
    exact (runs_pure ..).mpr ⟨rfl, rfl⟩
  · rw [intact.root, runs_bind]
    refine (lookUp_keySlot searchable intact holds.sorted key).mono ?_
    rintro ⟨leaf, slot⟩ after ⟨rfl, -, earlier, lower, upper, later, same, more, rfl, keySlot,
      contents, around⟩
    have enough : same.length < after.mStats.itemcount + 1 := by
      rw [holds.itemcount, contents]
      simp only [List.length_append]
      omega
    have small : ∀ block ∈ after.leafBlocks, block.2.length < 2 ^ 31 := by
      intro block member
      rw [intact.leafBlocks_eq] at member
      obtain ⟨node, atLeaf, stores⟩ := intact.stored.leafAt member
      have few := searchable block.1 _ atLeaf
      rw [Node.slotuse, stores.used] at few
      omega
    refine (keySlot.countLoop_runs chain small enough).mono ?_
    rintro total after ⟨rfl, rfl⟩
    exact ⟨rfl, by rw [contents, around.count, Nat.zero_add]⟩

/-! ## All lookups -/

/-- The lookups of a key agree with the stored pairs, and change nothing. -/
structure BTree.LooksUp (tree : BTree K D) (key : K) : Prop where
  lowerBound : Runs (lowerBound key) tree fun iter after => after = tree ∧
    tree.At iter (tree.contents.findIdx fun pair => key ≤ pair.1)
  upperBound : Runs (upperBound key) tree fun iter after => after = tree ∧
    tree.At iter (tree.contents.findIdx fun pair => key < pair.1)
  find : Runs (find key) tree fun iter after => after = tree ∧
    tree.At iter (tree.contents.findIdx fun pair => pair.1 = key)
  existsKey : Runs (existsKey key) tree fun found after => after = tree ∧
    (found = true ↔ ∃ pair ∈ tree.contents, pair.1 = key)
  countKey : Runs (countKey key) tree fun total after => after = tree ∧
    total = count tree.contents key
  distance : (tree.contents.findIdx fun pair => key ≤ pair.1) + count tree.contents key =
    tree.contents.findIdx fun pair => key < pair.1

theorem BTree.Invariant.looksUp (holds : tree.Invariant bounds) (positive : 1 ≤ bounds.leafMin)
    (searchable : tree.Searchable) (key : K) : tree.LooksUp key where
  lowerBound := lowerBound_runs holds positive searchable key
  upperBound := upperBound_runs holds positive searchable key
  find := find_runs holds positive searchable key
  existsKey := existsKey_runs holds positive searchable key
  countKey := countKey_runs holds positive searchable key
  distance := by
    obtain ⟨less, back, contents, cut⟩ := holds.sorted.cut key
    have sorted := holds.sorted
    rw [contents] at sorted
    obtain ⟨same, more, rfl, around⟩ := cut.surrounds (sorted_append.mp sorted).2.1
    rw [contents, around.lower.findIdx fun pair => by simp, around.count, ← List.append_assoc,
      around.upper.findIdx fun pair => by simp, List.length_append]

end PersistentBTree.Memory
