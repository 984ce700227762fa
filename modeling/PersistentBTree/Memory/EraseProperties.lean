import PersistentBTree.Memory.NeighbourProperties
import PersistentBTree.Memory.SearchProperties

/-! The descents of `erase_one` and `erase(iterator)` take exactly one pair out
of a subtree, or leave everything as it is when there is none. -/

set_option autoImplicit false

namespace PersistentBTree.Memory

open Imperative Multimap

variable {K D : Type} [LinearOrder K] [Inhabited K] {tree : BTree K D} {bounds : Bounds}
  {height : Nat} {parent left right leftparent rightparent : Option Ptr} {front back : Forest K D}
  {keys : List K} {lefts rights : List Ptr}

/-! ## Once the pair is found -/

theorem eraseInLeaf_runs {ptr : Ptr} {lower upper : List (K × D)} {pair : K × D}
    (erases : bounds.Erases tree.sizes tree.checks)
    (place : Place tree bounds 0 (.leaf ptr (lower ++ pair :: upper)) parent front back lefts rights
      left right leftparent rightparent)
    (family : Family tree 0 parent keys (front ++ .leaf ptr (lower ++ pair :: upper) :: back) lefts
      rights) :
    Runs (eraseInLeaf ptr lower.length left right leftparent rightparent parent front.length) tree
      fun result after => Finished tree after bounds 0 (.leaf ptr (lower ++ pair :: upper))
        (lower ++ upper) result parent front back lefts rights := by
  have formed := place.formed erases
  simp only [eraseInLeaf, runs_bind]
  refine removePair_runs family formed.2 (place.backSome erases) place.alone (place.several erases)
    fun myres middle newKeys shrunk => ?_
  have now : bounds.Erases middle.sizes middle.checks := by
    rwa [shrunk.reshaped.frame.sizes, shrunk.reshaped.frame.checks]
  refine fixNode_finishes erases place family shrunk (fun sorted => ?_)
    (fun left right parent _ => mergeLeaves left right parent) shiftLeftLeaf shiftRightLeaf
    (mends_leaves now) (dropRoot ptr) fun {post} empty intact itemcount next => ?_
  · rw [Tree.pairs_leaf] at sorted
    exact sorted.erase
  · have nothing : lower ++ upper = [] := List.eq_nil_of_length_eq_zero empty
    have one : middle.mStats.itemcount = 1 := by
      have lengths := congrArg List.length nothing
      simp only [List.length_append, List.length_nil] at lengths
      simp only [Tree.pairs_leaf, List.length_append, List.length_cons] at itemcount
      omega
    rw [nothing] at intact
    refine dropRoot_runs intact one fun after sizes checks count vacant => next _ _ ?_
    exact ⟨rfl, sizes, checks, count.trans one.symm, .inl ⟨nothing, vacant⟩⟩

theorem eraseInInner_runs {middle : BTree K D} {slot : Nat} {ptr : Ptr}
    {oldKeys newKeys : List K} {oldKids newKids : Forest K D} {spares : Multiset Ptr}
    {remaining : List (K × D)} {result : Result K}
    (erases : bounds.Erases tree.sizes tree.checks)
    (place : Place tree bounds (height + 1) (.inner ptr oldKeys oldKids) parent front back lefts
      rights left right leftparent rightparent)
    (family : Family tree (height + 1) parent keys (front ++ .inner ptr oldKeys oldKids :: back)
      lefts rights)
    (erased : Erased tree middle bounds height ptr slot oldKids newKids newKeys spares remaining
      result (lefts ++ Forest.leaves front) (Forest.leaves back ++ rights))
    (sorted : Sorted (Forest.pairs oldKids) → Sorted remaining) :
    Runs (eraseInInner ptr slot result left right leftparent rightparent parent front.length) middle
      fun myres after => Finished tree after bounds (height + 1) (.inner ptr oldKeys oldKids)
        remaining myres parent front back lefts rights := by
  obtain ⟨several, -, count, -, -⟩ := place.formed erases
  simp only [eraseInInner, runs_bind]
  refine passLastkey_fixMerge_runs erases.innerMax erases.positive family count several
    (place.backSome erases) (fun isRoot => (place.alone isRoot).2.1) erased
    fun myres after keys' shrunk => ?_
  have now : bounds.Erases after.sizes after.checks := by
    rwa [shrunk.reshaped.frame.sizes, shrunk.reshaped.frame.checks]
  refine fixNode_finishes erases place family shrunk (fun oldSorted => ?_) mergeInner
    shiftLeftInner shiftRightInner (mends_inner now height) (trimRoot ptr)
    fun {post} empty intact itemcount next => ?_
  · rw [Tree.pairs_inner] at oldSorted
    exact sorted oldSorted
  · have noKeys : newKeys = [] := List.eq_nil_of_length_eq_zero empty
    subst noKeys
    obtain ⟨kid, rfl⟩ : ∃ kid, newKids = [kid] :=
      List.length_eq_one_iff.mp intact.wellFormed.2.2.1
    refine trimRoot_runs (Nat.le_of_succ_le (erases.two_le_least height)) intact
      fun final sizes checks count kept => next _ _ ⟨rfl, sizes, checks, count, .inr ⟨height, kid,
        kept, ?_⟩⟩
    rw [← erased.pairs]
    simp

/-! ## The descent of `erase_one` -/

/-- What a descent for a key does: nothing when there is no such pair, and
otherwise the first one is erased. -/
def ErasesFirst (key : K) (before after : BTree K D) (bounds : Bounds) (height : Nat)
    (sub : Tree K D) (result : Result K) (parent : Option Ptr) (front back : Forest K D)
    (lefts rights : List Ptr) : Prop :=
  (result.notFound = true ∧ after = before ∧ ∀ pair ∈ sub.pairs, pair.1 ≠ key) ∨
    ∃ lower pair upper, sub.pairs = lower ++ pair :: upper ∧ Cut (· < key) lower (pair :: upper) ∧
      pair.1 = key ∧
      Finished before after bounds height sub (lower ++ upper) result parent front back lefts rights

private theorem eraseOneDescend_leaf {key : K} {ptr : Ptr} {pairs : List (K × D)} {fuel : Nat}
    (erases : bounds.Erases tree.sizes tree.checks) (searchable : tree.Searchable)
    (place : Place tree bounds 0 (.leaf ptr pairs) parent front back lefts rights left right
      leftparent rightparent)
    (family : Family tree 0 parent keys (front ++ .leaf ptr pairs :: back) lefts rights)
    (sorted : Sorted pairs) :
    Runs (eraseOneDescend (fuel + 1) key ptr left right leftparent rightparent parent front.length)
      tree fun result after => ErasesFirst key tree after bounds 0 (.leaf ptr pairs) result parent
        front back lefts rights := by
  obtain ⟨node, found, stores⟩ := family.stored (.leaf ptr pairs) (by simp)
  have count : node.slotuse = (pairs.map Prod.fst).length := by
    rw [stores.used, List.length_map]
  simp only [eraseOneDescend, runs_bind, runs_getNode]
  refine ⟨_, found, ?_⟩
  simp only [runs_bind]
  rw [count]
  have few : (pairs.map Prod.fst).length ≤ 2 ^ 30 := by
    rw [← count]
    exact searchable ptr _ found
  refine findLower_runs stores.keys (List.pairwise_map.mpr sorted)
    (finds_of_le List.countP_le_length few) fun frontKeys backKeys split frontBefore backNot => ?_
  obtain ⟨lower, rest, rfl, rfl, rfl, cut⟩ := cut_pairs split frontBefore backNot
  cases rest with
  | nil =>
      rw [runs_ite, if_pos (by simp), runs_pure]
      refine .inl ⟨rfl, rfl, fun pair member => ?_⟩
      rw [Tree.pairs_leaf, List.append_nil] at member
      exact (cut.1 pair member).ne
  | cons pair upper =>
      have atLeast : key ≤ pair.1 := not_lt.mp (cut.2 pair (by simp))
      have held := stores.keys
      rw [List.map_append, List.map_cons] at held
      rw [runs_ite, if_neg (by simp)]
      simp only [runs_bind, runs_readSlot]
      refine ⟨pair.1, held.read, ?_⟩
      by_cases equal : pair.1 = key
      · rw [if_pos (by simp [keyEqual, keyLess, equal])]
        rw [List.length_map]
        refine (eraseInLeaf_runs erases place family).mono fun result after finished => ?_
        exact .inr ⟨lower, pair, upper, by simp, cut, equal, finished⟩
      · have less : key < pair.1 := lt_of_le_of_ne atLeast (Ne.symm equal)
        rw [if_neg (by simp [keyEqual, keyLess, less]), runs_pure]
        refine .inl ⟨rfl, rfl, fun other member => ?_⟩
        rw [Tree.pairs_leaf] at member
        rcases List.mem_append.mp member with inLower | inRest
        · exact (cut.1 other inLower).ne
        · obtain ⟨-, restSorted, -⟩ := sorted_append.mp sorted
          rcases List.mem_cons.mp inRest with rfl | inUpper
          · exact equal
          · exact (less.trans_le (List.rel_of_pairwise_cons restSorted inUpper)).ne'

omit [Inhabited K] in
/-- When a key is not below the child that the search leads to, it is below no
other child either. -/
private theorem absent_of_kid {key : K} {kidsFront kidsBack : Forest K D} {kid : Tree K D}
    (sorted : Sorted (Forest.pairs (kidsFront ++ kid :: kidsBack)))
    (cut : Cut (· < key) (Forest.pairs kidsFront) (Forest.pairs kidsBack))
    (kidLast : kidsBack ≠ [] → ∃ last, kid.lastKey? = some last ∧ ¬ last < key)
    (absent : ∀ pair ∈ kid.pairs, pair.1 ≠ key) :
    ∀ pair ∈ Forest.pairs (kidsFront ++ kid :: kidsBack), pair.1 ≠ key := by
  intro pair member
  simp only [Forest.pairs_append, Forest.pairs_cons, List.mem_append] at member
  rcases member with inFront | inKid | inBack
  · exact (cut.1 pair inFront).ne
  · exact absent pair inKid
  · have nonempty : kidsBack ≠ [] := by
      rintro rfl
      simp at inBack
    obtain ⟨last, isLast, atLeast⟩ := kidLast nonempty
    obtain ⟨lower, final, kidPairs, rfl⟩ := lastKeyOf_eq_some isLast
    have inKid : final ∈ kid.pairs := by simp [kidPairs]
    have less : key < final.1 := lt_of_le_of_ne (not_lt.mp atLeast) (absent final inKid).symm
    simp only [Forest.pairs_append, Forest.pairs_cons] at sorted
    obtain ⟨-, restSorted, -⟩ := sorted_append.mp sorted
    exact (less.trans_le ((sorted_append.mp restSorted).2.2 final inKid pair inBack)).ne'

/-- What is left below a node when a pair was erased below one child. -/
private theorem eraseInInner_of_finished {middle : BTree K D} {ptr : Ptr} {oldKeys : List K}
    {kidsFront kidsBack : Forest K D} {kid : Tree K D} {lower upper : List (K × D)} {pair : K × D}
    {result : Result K} (erases : bounds.Erases tree.sizes tree.checks)
    (place : Place tree bounds (height + 1) (.inner ptr oldKeys (kidsFront ++ kid :: kidsBack))
      parent front back lefts rights left right leftparent rightparent)
    (family : Family tree (height + 1) parent keys
      (front ++ .inner ptr oldKeys (kidsFront ++ kid :: kidsBack) :: back) lefts rights)
    (isPairs : kid.pairs = lower ++ pair :: upper)
    (finished : Finished tree middle bounds height kid (lower ++ upper) result (some ptr) kidsFront
      kidsBack (lefts ++ Forest.leaves front) (Forest.leaves back ++ rights)) :
    result.notFound = false ∧
      Runs (eraseInInner ptr kidsFront.length result left right leftparent rightparent parent
        front.length) middle fun myres after => Finished tree after bounds (height + 1)
          (.inner ptr oldKeys (kidsFront ++ kid :: kidsBack))
          ((Forest.pairs kidsFront ++ lower) ++ (upper ++ Forest.pairs kidsBack)) myres parent front
          back lefts rights := by
  cases finished with
  | child erased =>
      rw [List.append_assoc lower, ← List.append_assoc] at erased
      refine ⟨erased.reported.found, eraseInInner_runs erases place family erased fun sorted => ?_⟩
      simp only [Forest.pairs_append, Forest.pairs_cons, isPairs, List.append_assoc,
        List.cons_append] at sorted
      rw [← List.append_assoc] at sorted
      exact sorted.erase

theorem eraseOneDescend_runs {key : K} {sub : Tree K D}
    (erases : bounds.Erases tree.sizes tree.checks) (searchable : tree.Searchable)
    (place : Place tree bounds height sub parent front back lefts rights left right leftparent
      rightparent)
    (family : Family tree height parent keys (front ++ sub :: back) lefts rights)
    (sorted : Sorted sub.pairs) :
    Runs (eraseOneDescend (height + 1) key sub.ptr left right leftparent rightparent parent
      front.length) tree fun result after =>
        ErasesFirst key tree after bounds height sub result parent front back lefts rights := by
  induction height generalizing sub parent keys front back lefts rights left right leftparent
    rightparent with
  | zero =>
      obtain ⟨ptr, pairs, rfl⟩ := (family.stored sub (by simp)).exists_leaf
      rw [Tree.pairs_leaf] at sorted
      exact eraseOneDescend_leaf erases searchable place family sorted
  | succ height ih =>
      obtain ⟨ptr, oldKeys, kids, rfl⟩ := (family.stored sub (by simp)).exists_inner
      have formed := place.formed erases
      obtain ⟨⟨node, found, isLevel, stores⟩, -⟩ := family.stored (.inner ptr oldKeys kids) (by simp)
      rw [Tree.pairs_inner] at sorted
      rw [eraseOneDescend]
      simp only [runs_bind, runs_getNode, Tree.ptr_inner]
      refine ⟨_, found, ?_⟩
      simp only [runs_bind]
      rw [stores.used]
      have few : oldKeys.length ≤ 2 ^ 30 := stores.used ▸ searchable ptr _ found
      refine findLower_runs stores.keys (separators_sorted formed.2.2.2.1 sorted)
        (finds_of_le List.countP_le_length few) fun frontKeys backKeys split frontBefore backNot => ?_
      subst split
      obtain ⟨kidsFront, kid, kidsBack, rfl, size, -, -, cut, kidLast⟩ := cut_kids
        (fun first second le less => le.trans_lt less) formed sorted frontBefore backNot
      rw [← size]
      have kidSorted : Sorted kid.pairs := by
        simp only [Forest.pairs_append, Forest.pairs_cons] at sorted
        exact (sorted_append.mp (sorted_append.mp sorted).2.1).1
      refine descendTo_runs erases place family stores
        fun myleft myright myleftparent myrightparent kidPlace kidFamily => ?_
      refine (ih kidPlace kidFamily kidSorted).mono fun result middle outcome => ?_
      rcases outcome with ⟨missing, rfl, absent⟩ | ⟨lower, pair, upper, isPairs, kidCut, isKey,
        finished⟩
      · rw [if_pos missing, runs_pure]
        refine .inl ⟨missing, rfl, ?_⟩
        rw [Tree.pairs_inner]
        exact absent_of_kid sorted cut kidLast absent
      · obtain ⟨present, runs⟩ := eraseInInner_of_finished erases place family isPairs finished
        rw [if_neg (by simp [present])]
        refine runs.mono fun myres after finished => .inr ⟨Forest.pairs kidsFront ++ lower, pair,
          upper ++ Forest.pairs kidsBack, by simp [isPairs], ⟨fun other member => ?_,
            fun other member => ?_⟩, isKey, finished⟩
        · exact (List.mem_append.mp member).elim (cut.1 other) (kidCut.1 other)
        · rw [← List.cons_append] at member
          exact (List.mem_append.mp member).elim (kidCut.2 other) (cut.2 other)

/-! ## The descent of `erase(iterator)` -/

section Iterators

variable {leaf : Ptr} {lower upper : List (K × D)} {pair : K × D}

/-- What a descent for an iterator does: nothing when its leaf is elsewhere, and
otherwise the pair it is at is erased. -/
def ErasesAt (leaf : Ptr) (lower upper : List (K × D)) (pair : K × D) (before after : BTree K D)
    (bounds : Bounds) (height : Nat) (sub : Tree K D) (result : Result K) (parent : Option Ptr)
    (front back : Forest K D) (lefts rights : List Ptr) : Prop :=
  (result.notFound = true ∧ after = before ∧ leaf ∉ sub.leaves) ∨
    ∃ earlier later, sub.blocks = earlier ++ (leaf, lower ++ pair :: upper) :: later ∧
      Finished before after bounds height sub ((pairsIn earlier ++ lower) ++ (upper ++ pairsIn later))
        result parent front back lefts rights

omit [LinearOrder K] [Inhabited K] in
theorem Iterator.runs_key {post : K → BTree K D → Prop}
    (stored : tree.LeafAt leaf (lower ++ pair :: upper)) (next : post pair.1 tree) :
    Runs (Iterator.key ⟨some leaf, lower.length⟩) tree post := by
  obtain ⟨node, found, stores⟩ := stored
  have held := stores.keys
  rw [List.map_append, List.map_cons] at held
  have read := held.read
  rw [List.length_map] at read
  simp only [Iterator.key, runs_bind, runs_nonNull, Option.some.injEq, exists_eq_left',
    runs_getLeaf, runs_readSlot]
  exact ⟨node, found, pair.1, read, next⟩

omit [Inhabited K] in
/-- The loop over the children. It does not stop early, because the separators
it looks at are not less than the key. -/
private theorem searchChildren_runs {inner : Ptr} {level : Nat} {oldKeys : List K}
    {kidsFront rest : Forest K D} {descend : Nat → M K D (Result K)}
    {post : Option (Nat × Result K) → BTree K D → Prop}
    (iterAt : tree.LeafAt leaf (lower ++ pair :: upper))
    (stored : tree.InnerAt inner level oldKeys ((kidsFront ++ rest).map Tree.ptr))
    (few : oldKeys.length ≤ 2 ^ 30) (notLess : ∀ key ∈ oldKeys.drop kidsFront.length, ¬ key < pair.1)
    (descends : ∀ before kid behind, rest = before ++ kid :: behind →
      Runs (descend (kidsFront ++ before).length) tree fun result after =>
        (result.notFound = true ∧ after = tree ∧ leaf ∉ kid.leaves) ∨
          result.notFound = false ∧ post (some ((kidsFront ++ before).length, result)) after)
    (missing : leaf ∉ Forest.leaves rest → post none tree) :
    Runs (searchChildren ⟨some leaf, lower.length⟩ inner descend rest.length kidsFront.length) tree
      post := by
  induction rest generalizing kidsFront with
  | nil =>
      simp only [List.length_nil, searchChildren, runs_pure]
      exact missing (by simp)
  | cons kid rest ih =>
      simp only [List.length_cons, searchChildren, runs_bind]
      have first := descends [] kid rest rfl
      rw [List.append_nil] at first
      refine first.mono fun result after outcome => ?_
      rcases outcome with ⟨isMissing, rfl, outside⟩ | ⟨present, holds⟩
      · have storedNext : after.InnerAt inner level oldKeys
            (((kidsFront ++ [kid]) ++ rest).map Tree.ptr) := by simpa using stored
        have again := ih storedNext (fun key member => notLess key ?_)
          (fun before other behind split => ?_) fun outsideRest => missing (by
            simpa [outside] using outsideRest)
        · rw [List.length_append, List.length_singleton] at again
          rw [if_pos isMissing]
          obtain ⟨node, found, -, stores⟩ := stored
          have count := stores.count
          rw [List.length_map, List.length_append, List.length_cons] at count
          simp only [runs_bind, runs_getInner]
          refine ⟨node, found, ?_⟩
          rw [runs_ite]
          split
          · rename_i bound
            rw [stores.used] at bound
            obtain ⟨before, separator, behind, rfl, size⟩ := exists_split_at oldKeys bound
            have keep := notLess separator (by rw [← size, List.drop_left]; simp)
            simp only [runs_bind, runs_readSlot]
            refine ⟨separator, size ▸ stores.keys.read, Iterator.runs_key iterAt ?_⟩
            rw [if_neg (by simpa [keyLess] using keep), runs_bind, runs_addInt]
            exact ⟨by omega, again⟩
          · rw [runs_bind, runs_addInt]
            exact ⟨by omega, again⟩
        · rw [List.length_append, List.length_singleton, ← List.drop_drop] at member
          exact List.mem_of_mem_drop member
        · have next := descends (kid :: before) other behind (by simp [split])
          rwa [List.append_cons kidsFront kid before] at next
      · rw [if_neg (by simp [present]), runs_pure]
        exact holds

private theorem eraseIterDescend_leaf {ptr : Ptr} {pairs : List (K × D)} {fuel : Nat}
    (erases : bounds.Erases tree.sizes tree.checks) (searchable : tree.Searchable)
    (place : Place tree bounds 0 (.leaf ptr pairs) parent front back lefts rights left right
      leftparent rightparent)
    (family : Family tree 0 parent keys (front ++ .leaf ptr pairs :: back) lefts rights)
    (only : ptr = leaf → pairs = lower ++ pair :: upper) :
    Runs (eraseIterDescend (fuel + 1) ⟨some leaf, lower.length⟩ ptr left right leftparent rightparent
      parent front.length) tree fun result after => ErasesAt leaf lower upper pair tree after bounds
        0 (.leaf ptr pairs) result parent front back lefts rights := by
  obtain ⟨node, found, stores⟩ := family.stored (.leaf ptr pairs) (by simp)
  simp only [eraseIterDescend, runs_bind, runs_getNode]
  refine ⟨_, found, ?_⟩
  simp only [runs_ite]
  split
  · rename_i elsewhere
    rw [runs_pure]
    refine .inl ⟨rfl, rfl, ?_⟩
    simpa [eq_comm] using elsewhere
  · rename_i here
    have isLeaf : ptr = leaf := by simpa using here
    have isPairs := only isLeaf
    subst isLeaf isPairs
    have few : (lower ++ pair :: upper).length ≤ 2 ^ 30 := stores.used ▸ searchable ptr _ found
    rw [List.length_append] at few
    rw [if_neg (by simp [stores.used]), runs_bind, runs_intSlot (by omega)]
    refine (eraseInLeaf_runs erases place family).mono fun result after finished => ?_
    exact .inr ⟨[], [], by simp, by simpa using finished⟩

theorem eraseIterDescend_runs {sub : Tree K D} (erases : bounds.Erases tree.sizes tree.checks)
    (searchable : tree.Searchable)
    (iterAt : tree.LeafAt leaf (lower ++ pair :: upper))
    (place : Place tree bounds height sub parent front back lefts rights left right leftparent
      rightparent)
    (family : Family tree height parent keys (front ++ sub :: back) lefts rights)
    (sorted : Sorted sub.pairs)
    (only : ∀ pairs, (leaf, pairs) ∈ sub.blocks → pairs = lower ++ pair :: upper) :
    Runs (eraseIterDescend (height + 1) ⟨some leaf, lower.length⟩ sub.ptr left right leftparent
      rightparent parent front.length) tree fun result after => ErasesAt leaf lower upper pair tree
        after bounds height sub result parent front back lefts rights := by
  induction height generalizing sub parent keys front back lefts rights left right leftparent
    rightparent with
  | zero =>
      obtain ⟨ptr, pairs, rfl⟩ := (family.stored sub (by simp)).exists_leaf
      refine eraseIterDescend_leaf erases searchable place family fun isLeaf => only pairs ?_
      simpa using isLeaf.symm
  | succ height ih =>
      obtain ⟨ptr, oldKeys, kids, rfl⟩ := (family.stored sub (by simp)).exists_inner
      have formed := place.formed erases
      obtain ⟨innerAt, -⟩ := family.stored (.inner ptr oldKeys kids) (by simp)
      have ⟨node, found, isLevel, stores⟩ := innerAt
      rw [Tree.pairs_inner] at sorted
      rw [eraseIterDescend]
      simp only [runs_bind, runs_getNode, Tree.ptr_inner]
      refine ⟨_, found, ?_⟩
      simp only [runs_bind]
      refine Iterator.runs_key iterAt ?_
      rw [stores.used]
      have few : oldKeys.length ≤ 2 ^ 30 := stores.used ▸ searchable ptr _ found
      refine findLower_runs stores.keys (separators_sorted formed.2.2.2.1 sorted)
        (finds_of_le List.countP_le_length few) fun frontKeys backKeys split frontBefore backNot => ?_
      subst split
      obtain ⟨kidsFront, kid, kidsBack, rfl, size, -, -, cut, kidLast⟩ := cut_kids
        (fun first second le less => le.trans_lt less) formed sorted frontBefore backNot
      have restCount : (frontKeys ++ backKeys).length + 1 - frontKeys.length =
          (kid :: kidsBack).length := by
        have count := formed.2.2.1
        simp only [List.length_append, List.length_cons] at count ⊢
        omega
      rw [restCount, ← size]
      refine searchChildren_runs iterAt innerAt few ?_ ?_ ?_
      · rw [size, List.drop_left]
        exact backNot
      · intro before other behind split
        have regroup : kidsFront ++ kid :: kidsBack = (kidsFront ++ before) ++ other :: behind := by
          rw [split, List.append_assoc]
        rw [regroup] at place family stores sorted only
        have otherSorted : Sorted other.pairs := by
          rw [Forest.pairs_append, Forest.pairs_cons] at sorted
          exact (sorted_append.mp (sorted_append.mp sorted).2.1).1
        refine descendTo_runs erases place family stores
          fun myleft myright myleftparent myrightparent kidPlace kidFamily => ?_
        refine (ih kidPlace kidFamily otherSorted fun pairs member => only pairs ?_).mono
          fun result middle outcome => ?_
        · rw [Tree.blocks_inner]
          exact List.mem_flatMap.mpr ⟨other, by simp, member⟩
        · rcases outcome with missing | ⟨earlier, later, isBlocks, finished⟩
          · exact .inl missing
          · have isPairs : other.pairs = (pairsIn earlier ++ lower) ++ pair ::
                (upper ++ pairsIn later) := by
              simp [Tree.pairs, isBlocks]
            obtain ⟨present, runs⟩ := eraseInInner_of_finished erases place family isPairs finished
            refine .inr ⟨present, runs.mono fun myres after finished => ?_⟩
            refine .inr ⟨Forest.blocks (kidsFront ++ before) ++ earlier,
              later ++ Forest.blocks behind, ?_, ?_⟩
            · rw [Tree.blocks_inner, regroup]
              simp [isBlocks]
            · simpa [regroup, Forest.pairs] using finished
      · intro outside
        rw [runs_pure]
        refine .inl ⟨rfl, rfl, ?_⟩
        rw [Tree.leaves_inner, Forest.leaves_append, List.mem_append, not_or]
        refine ⟨fun inFront => ?_, outside⟩
        -- the leaves before the first child hold smaller keys only
        obtain ⟨block, inBlocks, isLeaf⟩ := List.mem_map.mp inFront
        have isPairs := only block.2 (by
          rw [Tree.blocks_inner, Forest.blocks_append, ← isLeaf]
          exact List.mem_append_left _ inBlocks)
        refine absurd (cut.1 pair (List.mem_flatMap.mpr ⟨block, inBlocks, ?_⟩)) (lt_irrefl _)
        rw [isPairs]
        simp

end Iterators

end PersistentBTree.Memory
