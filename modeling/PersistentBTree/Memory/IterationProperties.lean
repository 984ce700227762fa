import PersistentBTree.Memory.Invariant
import PersistentBTree.Memory.Lookup

/-! Positions in the sequence of the stored pairs. `++` and `--` go from one
position to the next and back, over the links of the leaves. -/

set_option autoImplicit false

namespace PersistentBTree.Memory

open Imperative Multimap

variable {K D : Type} {blocks : List (Block K D)}

/-! ## Positions -/

/-- The iterator at a position; the position behind the last pair is `End`. -/
def iterAt : List (Block K D) → Nat → Iterator
  | [], _ => ⟨none, 0⟩
  | [(leaf, _)], position => ⟨some leaf, position⟩
  | (leaf, pairs) :: next :: rest, position =>
      if position < pairs.length then ⟨some leaf, position⟩
      else iterAt (next :: rest) (position - pairs.length)

theorem iterAt_zero (rest : List (Block K D)) (leaf : Ptr) {pairs : List (K × D)}
    (some_ : pairs ≠ []) : iterAt ((leaf, pairs) :: rest) 0 = ⟨some leaf, 0⟩ := by
  cases rest with
  | nil => rfl
  | cons next rest => rw [iterAt, if_pos (List.length_pos_iff.mpr some_)]

theorem iterAt_append (earlier : List (Block K D)) {later : List (Block K D)} (some_ : later ≠ [])
    (position : Nat) :
    iterAt (earlier ++ later) ((pairsIn earlier).length + position) = iterAt later position := by
  induction earlier with
  | nil => simp
  | cons block earlier ih =>
      obtain ⟨leaf, pairs⟩ := block
      obtain ⟨next, rest, isCons⟩ := List.exists_cons_of_ne_nil
        (show earlier ++ later ≠ [] by simp [some_])
      rw [isCons] at ih
      have behind : (pairsIn ((leaf, pairs) :: earlier)).length + position =
          pairs.length + ((pairsIn earlier).length + position) := by
        simp only [pairsIn_cons, List.length_append]
        omega
      rw [List.cons_append, isCons, iterAt, behind, if_neg (by omega), Nat.add_sub_cancel_left, ih]

/-- A position in a leaf, which is the last one when nothing follows there. -/
theorem iterAt_of_split {earlier later : List (Block K D)} {leaf : Ptr}
    {lower upper : List (K × D)} (closed : upper = [] → later = []) :
    iterAt (earlier ++ (leaf, lower ++ upper) :: later) (pairsIn earlier ++ lower).length =
      ⟨some leaf, lower.length⟩ := by
  rw [List.length_append, iterAt_append earlier (List.cons_ne_nil _ _)]
  cases later with
  | nil => rfl
  | cons next rest =>
      have inside : upper ≠ [] := fun nothing => List.cons_ne_nil next rest (closed nothing)
      have positive : 0 < upper.length := List.length_pos_iff.mpr inside
      rw [iterAt, if_pos (by simpa using positive)]

theorem iterAt_pair (earlier later : List (Block K D)) (leaf : Ptr) (lower upper : List (K × D))
    (pair : K × D) : iterAt (earlier ++ (leaf, lower ++ pair :: upper) :: later)
      (pairsIn earlier ++ lower).length = ⟨some leaf, lower.length⟩ :=
  iterAt_of_split fun nothing => absurd nothing (List.cons_ne_nil pair upper)

theorem Denotes.iterAt_eq {iter : Iterator} {front back : List (K × D)} {pair : K × D}
    (denotes : Denotes blocks iter front pair back) : iterAt blocks front.length = iter := by
  obtain ⟨earlier, leaf, lower, upper, later, rfl, rfl, rfl, rfl⟩ := denotes
  exact iterAt_pair ..

/-- Every position before the last one is that of a pair. -/
theorem denotes_iterAt {position : Nat} (inside : position < (pairsIn blocks).length) :
    ∃ front pair back, Denotes blocks (iterAt blocks position) front pair back ∧
      front.length = position := by
  induction blocks generalizing position with
  | nil => cases inside
  | cons block rest ih =>
      obtain ⟨leaf, pairs⟩ := block
      rw [pairsIn_cons, List.length_append] at inside
      by_cases here : position < pairs.length
      · obtain ⟨lower, pair, upper, rfl, rfl⟩ := exists_split_at pairs here
        have denotes : Denotes ((leaf, lower ++ pair :: upper) :: rest) ⟨some leaf, lower.length⟩
            lower pair (upper ++ pairsIn rest) := ⟨[], leaf, lower, upper, rest, by simp⟩
        rw [← denotes.iterAt_eq] at denotes
        exact ⟨_, _, _, denotes, rfl⟩
      · obtain ⟨front, pair, back, denotes, length⟩ :=
          ih (show position - pairs.length < (pairsIn rest).length by dsimp only at inside; omega)
        have whole := denotes.extend [(leaf, pairs)] []
        rw [List.append_nil, List.singleton_append] at whole
        have behind : (pairsIn [(leaf, pairs)] ++ front).length = position := by
          simp only [pairsIn_cons, pairsIn_nil, List.append_nil, List.length_append, length]
          omega
        rw [← whole.iterAt_eq, behind] at whole
        exact ⟨_, _, _, whole, behind⟩

/-- Every position is in some leaf, at its end only in the last one. -/
theorem exists_split_iterAt {position : Nat} (some_ : blocks ≠ [])
    (inside : position ≤ (pairsIn blocks).length) :
    ∃ earlier leaf lower upper later, blocks = earlier ++ (leaf, lower ++ upper) :: later ∧
      (upper = [] → later = []) ∧ position = (pairsIn earlier ++ lower).length ∧
      iterAt blocks position = ⟨some leaf, lower.length⟩ := by
  rcases Nat.lt_or_eq_of_le inside with less | rfl
  · obtain ⟨front, pair, back, denotes, rfl⟩ := denotes_iterAt less
    obtain ⟨earlier, leaf, lower, upper, later, isBlocks, isIter, rfl, -⟩ := denotes
    exact ⟨earlier, leaf, lower, pair :: upper, later, isBlocks, nofun, rfl, isIter⟩
  · obtain ⟨earlier, ⟨leaf, pairs⟩, rfl⟩ := (List.eq_nil_or_concat' blocks).resolve_left some_
    have atEnd : iterAt (earlier ++ [(leaf, pairs ++ [])]) (pairsIn earlier ++ pairs).length =
        ⟨some leaf, pairs.length⟩ := iterAt_of_split fun _ => rfl
    rw [List.append_nil] at atEnd
    refine ⟨earlier, leaf, pairs, [], [], by rw [List.append_nil], fun _ => rfl, by simp, ?_⟩
    simpa using atEnd

/-! ## The chain of leaves -/

/-- The leaves are stored and linked in this order, and none of them is empty. -/
structure BTree.ChainOf (tree : BTree K D) (blocks : List (Block K D)) : Prop where
  chained : tree.Chained (blocks.map Prod.fst)
  leafAt : ∀ leaf pairs, (leaf, pairs) ∈ blocks → tree.LeafAt leaf pairs
  filled : ∀ leaf pairs, (leaf, pairs) ∈ blocks → pairs ≠ []
  nodup : (blocks.map Prod.fst).Nodup

theorem WellFormed.pairs_of_block {bounds : Bounds} {least height : Nat} {sub : Tree K D}
    (formed : WellFormed bounds least height sub) (positive : 1 ≤ bounds.leafMin)
    (used : height = 0 → 1 ≤ least) {leaf : Ptr} {pairs : List (K × D)}
    (member : (leaf, pairs) ∈ sub.blocks) : pairs ≠ [] := by
  induction height generalizing sub least with
  | zero =>
      obtain ⟨ptr, stored, rfl⟩ := formed.exists_leaf
      rw [Tree.blocks_leaf, List.mem_singleton] at member
      cases member
      rw [← List.length_pos_iff]
      exact (used rfl).trans formed.1
  | succ height ih =>
      obtain ⟨ptr, keys, kids, rfl⟩ := formed.exists_inner
      rw [Tree.blocks_inner, Forest.blocks, List.mem_flatMap] at member
      obtain ⟨kid, inKids, inBlocks⟩ := member
      refine ih (formed.2.2.2.2 kid inKids) ?_ inBlocks
      rintro rfl
      exact positive

theorem BTree.Invariant.chainOf [LinearOrder K] {bounds : Bounds} {tree : BTree K D}
    (holds : tree.Invariant bounds) (positive : 1 ≤ bounds.leafMin) :
    tree.ChainOf tree.leafBlocks := by
  rcases holds.shape with vacant | ⟨height, sub, intact⟩
  · rw [vacant.leafBlocks_eq]
    exact ⟨⟨trivial, vacant.head, vacant.tail⟩, by simp, by simp, List.nodup_nil⟩
  · rw [intact.leafBlocks_eq]
    exact ⟨intact.chained, fun _ _ => intact.stored.leafAt,
      fun _ _ => intact.wellFormed.pairs_of_block positive fun _ => le_refl 1,
      intact.leaves_nodup⟩

namespace BTree.ChainOf

variable {tree : BTree K D} {earlier later : List (Block K D)} {leaf : Ptr}
  {pairs : List (K × D)}

theorem exists_leaf (chain : tree.ChainOf (earlier ++ (leaf, pairs) :: later)) :
    ∃ node, tree.heap leaf = some (.leaf node) ∧ node.Stores tree.sizes.leafslotmax pairs ∧
      node.prevleaf = (earlier.map Prod.fst).getLast? ∧
      node.nextleaf = (later.map Prod.fst).head? := by
  have chained := chain.chained
  rw [List.map_append, List.map_cons] at chained
  obtain ⟨node, found, before, behind⟩ := chained.exists_leaf
  obtain ⟨node', found', stores⟩ := chain.leafAt leaf pairs (by simp)
  rw [found] at found'
  cases found'
  exact ⟨node, found, stores, before, behind⟩

/-- Two positions have one iterator only if they are the same. -/
theorem iterAt_injective (chain : tree.ChainOf blocks) {first second : Nat}
    (inFirst : first ≤ (pairsIn blocks).length) (inSecond : second ≤ (pairsIn blocks).length)
    (same : iterAt blocks first = iterAt blocks second) : first = second := by
  by_cases some_ : blocks = []
  · subst some_
    rw [Nat.le_zero.mp inFirst, Nat.le_zero.mp inSecond]
  · obtain ⟨front, leaf, lower, upper, back, isBlocks, -, rfl, isFirst⟩ :=
      exists_split_iterAt some_ inFirst
    obtain ⟨front', leaf', lower', upper', back', isBlocks', -, rfl, isSecond⟩ :=
      exists_split_iterAt some_ inSecond
    rw [isFirst, isSecond] at same
    injection same with sameLeaf sameSlot
    cases sameLeaf
    have unique := chain.nodup
    rw [isBlocks, List.map_append, List.map_cons, List.nodup_middle, List.nodup_cons,
      List.mem_append, not_or] at unique
    have leaves := congrArg (List.map Prod.fst) (isBlocks.symm.trans isBlocks')
    simp only [List.map_append, List.map_cons] at leaves
    obtain ⟨sameFront, -, -⟩ := (List.append_cons_inj_of_notMem unique.1.1 unique.1.2).mp leaves
    have lengths : front.length = front'.length := by simpa using congrArg List.length sameFront
    obtain ⟨rfl, -⟩ := List.append_inj (isBlocks.symm.trans isBlocks') lengths
    rw [List.length_append, List.length_append, sameSlot]

/-! ## Moving by one -/

/-- `++` goes to the next position. -/
theorem next_runs (chain : tree.ChainOf blocks) {position : Nat}
    (inside : position < (pairsIn blocks).length) :
    Runs (iterAt blocks position).next tree fun iter after =>
      after = tree ∧ iter = iterAt blocks (position + 1) := by
  obtain ⟨front, pair, back, denotes, rfl⟩ := denotes_iterAt inside
  obtain ⟨earlier, leaf, lower, upper, later, isBlocks, isIter, rfl, -⟩ := denotes
  subst isBlocks
  obtain ⟨node, found, stores, -, behind⟩ := chain.exists_leaf
  have used := stores.used
  simp only [List.length_append, List.length_cons] at used
  have moved : (pairsIn earlier ++ lower).length + 1 =
      (pairsIn earlier ++ (lower ++ [pair])).length := by
    simp only [List.length_append, List.length_singleton]
    omega
  have isBlocks : earlier ++ (leaf, lower ++ pair :: upper) :: later =
      earlier ++ (leaf, (lower ++ [pair]) ++ upper) :: later := by simp
  rw [isIter, Iterator.next, moved]
  simp only [runs_bind, runs_nonNull, runs_getLeaf]
  refine ⟨leaf, rfl, node, found, ?_⟩
  cases upper with
  | cons next upper =>
      rw [List.length_cons] at used
      rw [if_pos (by omega), runs_pure, isBlocks, iterAt_pair]
      exact ⟨rfl, by simp⟩
  | nil =>
      rw [List.length_nil] at used
      rw [if_neg (by omega), behind]
      cases later with
      | nil =>
          rw [List.map_nil, List.head?_nil, runs_pure, isBlocks, iterAt_of_split fun _ => rfl]
          exact ⟨rfl, by simp [used]⟩
      | cons block later =>
          obtain ⟨nextleaf, pairs⟩ := block
          have some_ := chain.filled nextleaf pairs (by simp)
          have whole : earlier ++ (leaf, lower ++ [pair]) :: (nextleaf, pairs) :: later =
              (earlier ++ [(leaf, lower ++ [pair])]) ++ (nextleaf, [] ++ pairs) :: later := by simp
          have behindLeaf : (pairsIn earlier ++ (lower ++ [pair])).length =
              (pairsIn (earlier ++ [(leaf, lower ++ [pair])]) ++ []).length := by simp
          rw [List.map_cons, List.head?_cons, runs_pure, whole, behindLeaf,
            iterAt_of_split fun nothing => absurd nothing some_]
          exact ⟨rfl, rfl⟩

/-- `--` goes back to the position before. -/
theorem prev_runs (chain : tree.ChainOf blocks) {position : Nat}
    (inside : position < (pairsIn blocks).length) :
    Runs (iterAt blocks (position + 1)).prev tree fun iter after =>
      after = tree ∧ iter = iterAt blocks position := by
  have some_ : blocks ≠ [] := by
    rintro rfl
    cases inside
  obtain ⟨earlier, leaf, lower, upper, later, rfl, closed, behind, isIter⟩ :=
    exists_split_iterAt some_ inside
  rw [isIter, Iterator.prev]
  simp only [runs_bind, runs_nonNull]
  refine ⟨leaf, rfl, ?_⟩
  rcases List.eq_nil_or_concat' lower with rfl | ⟨lower, pair, rfl⟩
  · obtain ⟨node, found, -, link, -⟩ := chain.exists_leaf
    rcases List.eq_nil_or_concat' earlier with rfl | ⟨earlier, ⟨prevleaf, pairs⟩, rfl⟩
    · simp at behind
    · have filled := chain.filled prevleaf pairs (by simp)
      obtain ⟨lower, pair, rfl⟩ := (List.eq_nil_or_concat' pairs).resolve_left filled
      obtain ⟨node', found', stores⟩ := chain.leafAt prevleaf (lower ++ [pair]) (by simp)
      have used := stores.used
      rw [List.length_append, List.length_singleton] at used
      have before : position = (pairsIn earlier ++ lower).length := by
        simp only [pairsIn_append, pairsIn_cons, pairsIn_nil, List.append_nil, List.length_append,
          List.length_singleton] at behind ⊢
        omega
      have isBlocks : earlier ++ [(prevleaf, lower ++ [pair])] ++ (leaf, [] ++ upper) :: later =
          earlier ++ (prevleaf, lower ++ pair :: []) :: (leaf, upper) :: later := by simp
      rw [List.map_append, List.map_singleton, List.getLast?_concat] at link
      rw [if_neg (by simp), runs_bind, runs_getLeaf]
      refine ⟨node, found, ?_⟩
      rw [link, runs_bind, runs_getLeaf]
      refine ⟨node', found', ?_⟩
      rw [runs_pure, before, isBlocks, iterAt_pair, used]
      exact ⟨rfl, by simp [usub]⟩
  · have before : position = (pairsIn earlier ++ lower).length := by
      simp only [List.length_append, List.length_singleton] at behind ⊢
      omega
    have isBlocks : earlier ++ (leaf, (lower ++ [pair]) ++ upper) :: later =
        earlier ++ (leaf, lower ++ pair :: upper) :: later := by simp
    rw [if_pos (by simp), runs_pure, before, isBlocks, iterAt_pair]
    exact ⟨rfl, by simp⟩

/-! ## Both ends -/

theorem begin_runs (chain : tree.ChainOf blocks) :
    Runs beginIter tree fun iter after => after = tree ∧ iter = iterAt blocks 0 := by
  simp only [beginIter, runs_bind, runs_get, runs_pure, true_and]
  rw [chain.chained.2.1]
  cases blocks with
  | nil => rfl
  | cons block rest =>
      obtain ⟨leaf, pairs⟩ := block
      exact (iterAt_zero rest leaf (chain.filled leaf pairs (by simp))).symm

theorem end_runs (chain : tree.ChainOf blocks) :
    Runs endIter tree fun iter after =>
      after = tree ∧ iter = iterAt blocks (pairsIn blocks).length := by
  simp only [endIter, runs_bind, runs_get]
  rw [chain.chained.2.2]
  rcases List.eq_nil_or_concat' blocks with rfl | ⟨earlier, ⟨leaf, pairs⟩, rfl⟩
  · exact (runs_pure ..).mpr ⟨rfl, rfl⟩
  · obtain ⟨node, found, stores, -⟩ := chain.exists_leaf
    have atEnd : iterAt (earlier ++ [(leaf, pairs ++ [])]) (pairsIn earlier ++ pairs).length =
        ⟨some leaf, pairs.length⟩ := iterAt_of_split fun _ => rfl
    rw [List.append_nil] at atEnd
    simp only [List.map_append, List.map_singleton, List.getLast?_concat, runs_bind, runs_getLeaf,
      runs_pure]
    refine ⟨node, found, trivial, ?_⟩
    rw [pairsIn_append, pairsIn_cons, pairsIn_nil, List.append_nil, atEnd, stores.used]

/-! ## Moving on -/

theorem advance_runs (chain : tree.ChainOf blocks) {steps position : Nat}
    (inside : position + steps ≤ (pairsIn blocks).length) :
    Runs (advance steps (iterAt blocks position)) tree fun iter after =>
      after = tree ∧ iter = iterAt blocks (position + steps) := by
  induction steps generalizing position with
  | zero => exact (runs_pure ..).mpr ⟨rfl, rfl⟩
  | succ steps ih =>
      rw [advance, runs_bind]
      refine (chain.next_runs (by omega)).mono ?_
      rintro iter after ⟨rfl, rfl⟩
      rw [← Nat.add_assoc, Nat.add_right_comm]
      exact ih (by omega)

theorem retreat_runs (chain : tree.ChainOf blocks) {steps position : Nat}
    (inside : position + steps ≤ (pairsIn blocks).length) :
    Runs (retreat steps (iterAt blocks (position + steps))) tree fun iter after =>
      after = tree ∧ iter = iterAt blocks position := by
  induction steps with
  | zero => exact (runs_pure ..).mpr ⟨rfl, rfl⟩
  | succ steps ih =>
      rw [retreat, runs_bind, ← Nat.add_assoc]
      refine (chain.prev_runs (by omega)).mono ?_
      rintro iter after ⟨rfl, rfl⟩
      exact ih (by omega)

/-! ## Reading -/

theorem deref_runs (chain : tree.ChainOf blocks) {iter : Iterator} {front back : List (K × D)}
    {pair : K × D} (denotes : Denotes blocks iter front pair back) :
    Runs iter.deref tree fun found after => after = tree ∧ found = pair := by
  obtain ⟨earlier, leaf, lower, upper, later, rfl, rfl, -, -⟩ := denotes
  obtain ⟨node, found, stores, -, -⟩ := chain.exists_leaf
  have keys := stores.keys
  have data := stores.data
  rw [List.map_append, List.map_cons] at keys data
  have readKey := keys.read
  have readData := data.read
  rw [List.length_map] at readKey readData
  simp only [Iterator.deref, Iterator.key, Iterator.data, runs_bind, runs_nonNull, runs_getLeaf,
    runs_readSlot, runs_pure]
  exact ⟨leaf, rfl, node, found, pair.1, readKey, leaf, rfl, node, found, pair.2, readData,
    trivial, rfl⟩

end BTree.ChainOf

/-! ## All pairs -/

/-- `++` goes from `Begin` over all pairs to `End`, and `--` all the way back. -/
structure BTree.Iterates (tree : BTree K D) : Prop where
  /-- At no position before the last one is the iterator `End`. -/
  forward : ∀ position (inside : position < tree.contents.length), Runs (do
    let first ← beginIter
    let iter ← advance position first
    let pair ← iter.deref
    let last ← endIter
    pure (iter, pair, last)) tree fun reached after =>
      after = tree ∧ reached.2.1 = tree.contents[position] ∧ reached.1 ≠ reached.2.2
  atEnd : Runs (do
    let first ← beginIter
    let iter ← advance tree.contents.length first
    let last ← endIter
    pure (iter, last)) tree fun reached after => after = tree ∧ reached.1 = reached.2
  backward : ∀ position (inside : position < tree.contents.length), Runs (do
    let last ← endIter
    let iter ← retreat (tree.contents.length - position) last
    iter.deref) tree fun pair after => after = tree ∧ pair = tree.contents[position]
  atBegin : Runs (do
    let last ← endIter
    let iter ← retreat tree.contents.length last
    let first ← beginIter
    pure (iter, first)) tree fun reached after => after = tree ∧ reached.1 = reached.2
  again : ∀ iter front pair back, Denotes tree.leafBlocks iter front pair back → Runs (do
    let other ← iter.next
    other.prev) tree fun final after => after = tree ∧ final = iter
  empty : tree.contents = [] → Runs (do
    let first ← beginIter
    let last ← endIter
    pure (first, last)) tree fun reached after => after = tree ∧ reached.1 = reached.2

private theorem BTree.ChainOf.deref_iterAt {tree : BTree K D} (chain : tree.ChainOf tree.leafBlocks)
    {position : Nat} (inside : position < tree.contents.length) :
    Runs (iterAt tree.leafBlocks position).deref tree fun pair after =>
      after = tree ∧ pair = tree.contents[position] := by
  obtain ⟨front, pair, back, denotes, rfl⟩ := denotes_iterAt inside
  refine (chain.deref_runs denotes).mono ?_
  rintro found after ⟨rfl, rfl⟩
  have contents : after.contents = front ++ found :: back := denotes.pairsIn_eq
  exact ⟨rfl, by simp [contents]⟩

theorem BTree.ChainOf.iterates {tree : BTree K D} (chain : tree.ChainOf tree.leafBlocks) :
    tree.Iterates := by
  have toPosition : ∀ position ≤ tree.contents.length,
      Runs (advance position (iterAt tree.leafBlocks 0)) tree fun iter after =>
        after = tree ∧ iter = iterAt tree.leafBlocks position := by
    intro position inside
    have runs := @advance_runs _ _ _ _ chain position 0 (by rwa [Nat.zero_add])
    rwa [Nat.zero_add] at runs
  have fromEnd : ∀ position ≤ tree.contents.length,
      Runs (retreat (tree.contents.length - position)
        (iterAt tree.leafBlocks tree.contents.length)) tree fun iter after =>
          after = tree ∧ iter = iterAt tree.leafBlocks position := by
    intro position inside
    have runs := @retreat_runs _ _ _ _ chain (tree.contents.length - position) position
      (Nat.add_sub_of_le inside).le
    rwa [Nat.add_sub_of_le inside] at runs
  constructor
  case forward =>
    intro position inside
    rw [runs_bind]
    refine chain.begin_runs.mono ?_
    rintro first after ⟨rfl, rfl⟩
    rw [runs_bind]
    refine (toPosition position inside.le).mono ?_
    rintro iter after ⟨rfl, rfl⟩
    rw [runs_bind]
    refine (chain.deref_iterAt inside).mono ?_
    rintro pair after ⟨rfl, isPair⟩
    rw [runs_bind]
    refine chain.end_runs.mono ?_
    rintro last after ⟨rfl, rfl⟩
    refine (runs_pure ..).mpr ⟨rfl, isPair, fun same => ?_⟩
    exact absurd (chain.iterAt_injective inside.le (le_refl _) same) inside.ne
  case atEnd =>
    rw [runs_bind]
    refine chain.begin_runs.mono ?_
    rintro first after ⟨rfl, rfl⟩
    rw [runs_bind]
    refine (toPosition _ (le_refl _)).mono ?_
    rintro iter after ⟨rfl, rfl⟩
    rw [runs_bind]
    refine chain.end_runs.mono ?_
    rintro last after ⟨rfl, rfl⟩
    exact (runs_pure ..).mpr ⟨rfl, rfl⟩
  case backward =>
    intro position inside
    rw [runs_bind]
    refine chain.end_runs.mono ?_
    rintro last after ⟨rfl, rfl⟩
    rw [runs_bind]
    refine (fromEnd position inside.le).mono ?_
    rintro iter after ⟨rfl, rfl⟩
    exact chain.deref_iterAt inside
  case atBegin =>
    rw [runs_bind]
    refine chain.end_runs.mono ?_
    rintro last after ⟨rfl, rfl⟩
    rw [runs_bind]
    refine (fromEnd 0 (Nat.zero_le _)).mono ?_
    rintro iter after ⟨rfl, rfl⟩
    rw [runs_bind]
    refine chain.begin_runs.mono ?_
    rintro first after ⟨rfl, rfl⟩
    exact (runs_pure ..).mpr ⟨rfl, rfl⟩
  case again =>
    intro iter front pair back denotes
    have inside : front.length < (pairsIn tree.leafBlocks).length := by
      rw [denotes.pairsIn_eq]
      simp
    rw [← denotes.iterAt_eq, runs_bind]
    refine (chain.next_runs inside).mono ?_
    rintro other after ⟨rfl, rfl⟩
    exact chain.prev_runs inside
  case empty =>
    intro nothing
    rw [runs_bind]
    refine chain.begin_runs.mono ?_
    rintro first after ⟨rfl, rfl⟩
    rw [runs_bind]
    refine chain.end_runs.mono ?_
    rintro last after ⟨rfl, rfl⟩
    refine (runs_pure ..).mpr ⟨rfl, ?_⟩
    change iterAt after.leafBlocks 0 = iterAt after.leafBlocks after.contents.length
    rw [nothing, List.length_nil]

end PersistentBTree.Memory
