import PersistentBTree.Memory.EraseProperties
import PersistentBTree.Memory.InsertProperties
import PersistentBTree.Memory.Operations

/-! The public operations keep the invariant of the object, and change the
stored pairs as the operations of a multimap do. -/

set_option autoImplicit false

namespace PersistentBTree.Memory

open Imperative Multimap

variable {K D : Type} [LinearOrder K] [Inhabited K] {bounds : Bounds} {tree : BTree K D}

/-- The invariant holds after a call, and neither the node sizes nor the build
have changed. -/
structure Kept (bounds : Bounds) (before after : BTree K D) : Prop where
  invariant : after.Invariant bounds
  sizes : after.sizes = before.sizes
  checks : after.checks = before.checks

omit [Inhabited K] in
theorem Kept.refl (holds : tree.Invariant bounds) : Kept bounds tree tree := ⟨holds, rfl, rfl⟩

omit [Inhabited K] in
theorem Kept.trans {before middle after : BTree K D} (first : Kept bounds before middle)
    (second : Kept bounds middle after) : Kept bounds before after :=
  ⟨second.invariant, second.sizes.trans first.sizes, second.checks.trans first.checks⟩

omit [Inhabited K] in
theorem Kept.erases {before after : BTree K D} (kept : Kept bounds before after)
    (erases : bounds.Erases before.sizes before.checks) : bounds.Erases after.sizes after.checks := by
  rwa [kept.sizes, kept.checks]

/-- Sizes with which `erase` keeps the bounds allow splits, too. -/
theorem Bounds.Erases.splits {sizes : NodeSizes} {checks : Assertion → Bool}
    (erases : bounds.Erases sizes checks) : bounds.Splits sizes := by
  have leafHalf := erases.leafHalf
  have innerHalf := erases.innerHalf
  have leafSome := erases.leafSome
  have innerSome := erases.innerSome
  have leafMin := erases.leafMin
  have innerMin := erases.innerMin
  exact ⟨erases.leafMax, erases.innerMax, by omega, by omega, erases.positive, by omega, by omega⟩

omit [Inhabited K] in
theorem Bounds.Erases.takes (erases : bounds.Erases tree.sizes tree.checks)
    (searchable : tree.Searchable) {height least : Nat} {sub : Tree K D}
    (intact : tree.Intact bounds least height sub) (key : K) : sub.Takes key tree.sizes where
  reaches := intact.stored.reaches searchable key
  room := by
    cases height with
    | zero =>
        obtain ⟨ptr, pairs, rfl⟩ := intact.stored.exists_leaf
        obtain ⟨node, found, stores⟩ := intact.stored
        have few : pairs.length ≤ 2 ^ 30 := stores.used ▸ searchable ptr _ found
        exact erases.childRoom.symm.imp_left fun large => ⟨ptr, pairs, rfl, few.trans_lt large⟩
    | succ height => exact .inr (intact.stored.inRange erases.isUnsigned)

/-! ## Erasing one pair -/

omit [Inhabited K] in
private theorem countErased_runs {after : BTree K D} {remaining : List (K × D)}
    {result : Result K} (ended : Ended tree after bounds remaining result)
    (itemcount : tree.mStats.itemcount = remaining.length + 1) :
    Runs (countErased result) after fun found final =>
      found = true ∧ Kept bounds tree final ∧ final.contents = remaining := by
  have count : after.mStats.itemcount - 1 = remaining.length := by
    rw [ended.itemcount, itemcount, Nat.add_sub_cancel]
  simp only [countErased, runs_bind, runs_modify, runs_pure, ended.found, Bool.false_eq_true,
    ↓reduceIte, Bool.not_false, true_and]
  rcases ended.shape with ⟨rfl, vacant⟩ | ⟨height, sub, intact, rfl⟩
  · have now : BTree.Vacant { after with mStats.itemcount := after.mStats.itemcount - 1 } := by
      rw [count]
      exact vacant
    have nothing : BTree.contents { after with mStats.itemcount := after.mStats.itemcount - 1 } = [] := by
      rw [BTree.contents, now.leafBlocks_eq, pairsIn_nil]
    exact ⟨⟨⟨.inl now, by rw [nothing]; exact count⟩, ended.sizes, ended.checks⟩, nothing⟩
  · have now := intact.setItemcount (after.mStats.itemcount - 1)
    have contents := now.contents_eq
    exact ⟨⟨⟨.inr ⟨height, sub, now⟩, by rw [contents]; exact count⟩, ended.sizes, ended.checks⟩,
      contents⟩

/-- `erase_one` removes the first pair with the key, and changes nothing when
there is none. -/
theorem eraseOne_runs (erases : bounds.Erases tree.sizes tree.checks)
    (searchable : tree.Searchable) (holds : tree.Invariant bounds) (key : K) :
    Runs (eraseOne key) tree fun found after =>
      (found = false ∧ after = tree ∧ ∀ pair ∈ tree.contents, pair.1 ≠ key) ∨
        found = true ∧ Kept bounds tree after ∧ ∃ lower pair upper,
          tree.contents = lower ++ pair :: upper ∧ Cut (· < key) lower (pair :: upper) ∧
            pair.1 = key ∧ after.contents = lower ++ upper := by
  simp only [eraseOne, runs_bind, runs_get]
  rcases holds.shape with vacant | ⟨height, sub, intact⟩
  · rw [vacant.root, runs_pure]
    refine .inl ⟨rfl, rfl, ?_⟩
    simp [BTree.contents, vacant.leafBlocks_eq]
  · have count := holds.itemcount
    rw [intact.contents_eq] at count
    simp only [intact.root, runs_bind, intact.stored.runs_level]
    refine (eraseOneDescend_runs erases searchable (.root intact count) intact.family
      intact.sorted).mono fun result after outcome => ?_
    rw [intact.contents_eq]
    rcases outcome with ⟨missing, rfl, absent⟩ | ⟨lower, pair, upper, isPairs, cut, isKey, finished⟩
    · simp only [countErased, runs_bind, runs_modify, runs_pure, missing]
      exact .inl ⟨rfl, rfl, absent⟩
    · cases finished with
      | root ended =>
          refine (countErased_runs ended ?_).mono fun found final reached => ?_
          · rw [count, isPairs]
            simp only [List.length_append, List.length_cons]
            omega
          · obtain ⟨isFound, kept, contents⟩ := reached
            exact .inr ⟨isFound, kept, lower, pair, upper, isPairs, cut, isKey, contents⟩

/-- `erase(iterator)` removes the pair that the iterator is at. -/
theorem eraseIter_runs {iter : Iterator} {front back : List (K × D)} {pair : K × D}
    (erases : bounds.Erases tree.sizes tree.checks) (searchable : tree.Searchable)
    (holds : tree.Invariant bounds) (denotes : Denotes tree.leafBlocks iter front pair back) :
    Runs (eraseIter iter) tree fun _ after =>
      Kept bounds tree after ∧ after.contents = front ++ back := by
  obtain ⟨earlier, leaf, lower, upper, later, blocks, rfl, rfl, rfl⟩ := denotes
  simp only [eraseIter, runs_bind, runs_get]
  rcases holds.shape with vacant | ⟨height, sub, intact⟩
  · rw [vacant.leafBlocks_eq] at blocks
    simp at blocks
  · have count := holds.itemcount
    rw [intact.contents_eq] at count
    rw [intact.leafBlocks_eq] at blocks
    have inBlocks : (leaf, lower ++ pair :: upper) ∈ sub.blocks := by simp [blocks]
    have only : ∀ pairs, (leaf, pairs) ∈ sub.blocks → pairs = lower ++ pair :: upper := by
      intro pairs member
      have same := List.inj_on_of_nodup_map intact.leaves_nodup member inBlocks rfl
      exact congrArg Prod.snd same
    simp only [intact.root, runs_bind, intact.stored.runs_level]
    refine (eraseIterDescend_runs erases searchable (intact.stored.leafAt inBlocks)
      (.root intact count) intact.family intact.sorted only).mono fun result after outcome => ?_
    rcases outcome with ⟨-, -, outside⟩ | ⟨earlier', later', blocks', finished⟩
    · exact absurd (List.mem_map_of_mem inBlocks) outside
    · have unique := List.Nodup.of_map _ intact.leaves_nodup
      rw [blocks, List.nodup_middle, List.nodup_cons, List.mem_append, not_or] at unique
      obtain ⟨rfl, -, rfl⟩ := (List.append_cons_inj_of_notMem unique.1.1 unique.1.2).mp
        (blocks.symm.trans blocks')
      cases finished with
      | root ended =>
          refine (countErased_runs ended ?_).mono fun found final reached => ?_
          · rw [count, Tree.pairs, blocks]
            simp only [pairsIn_append, pairsIn_cons, List.length_append, List.length_cons]
            omega
          · rw [runs_pure]
            exact reached.2

/-! ## Erasing a key -/

/-- Every round but the last removes one pair with the key. -/
private theorem eraseLoop_runs {key : K} {fuel rounds : Nat}
    (erases : bounds.Erases tree.sizes tree.checks)
    (searchable : ∀ after, Rounds key tree after → after.Searchable)
    (holds : tree.Invariant bounds) (enough : tree.contents.length < fuel) :
    Runs (eraseLoop key fuel rounds) tree fun total after =>
      total = rounds + count tree.contents key ∧ Kept bounds tree after ∧
        after.contents = removeAll tree.contents key := by
  induction fuel generalizing tree rounds with
  | zero => exact absurd enough (Nat.not_lt_zero _)
  | succ fuel ih =>
      simp only [eraseLoop, runs_bind]
      obtain ⟨found, after, returned, outcome⟩ :=
        eraseOne_runs erases (searchable tree .refl) holds key
      refine ⟨found, after, returned, ?_⟩
      rcases outcome with ⟨rfl, rfl, absent⟩ | ⟨rfl, kept, lower, pair, upper, contents, -, isKey,
        remaining⟩
      · simp only [Bool.false_eq_true, ↓reduceIte, runs_pure]
        exact ⟨by rw [count_of_absent absent, Nat.add_zero], .refl holds,
          (removeAll_of_absent absent).symm⟩
      · have fewer : after.contents.length < fuel := by
          rw [contents] at enough
          rw [remaining]
          simp only [List.length_append, List.length_cons] at enough ⊢
          omega
        have again : Runs (eraseLoop key fuel (rounds + 1)) after _ :=
          ih (kept.erases erases) (fun final rounds => searchable final (rounds.head returned))
            kept.invariant fewer
        simp only [↓reduceIte]
        refine again.mono fun total final reached => ?_
        obtain ⟨isTotal, keptAgain, rest⟩ := reached
        rw [contents, count_of_present isKey, removeAll_of_present isKey, ← remaining]
        exact ⟨by omega, kept.trans keptAgain, rest⟩

/-- `erase(key)` removes every pair with the key and counts them. -/
theorem eraseKey_runs (erases : bounds.Erases tree.sizes tree.checks) {key : K}
    (searchable : ∀ after, Rounds key tree after → after.Searchable)
    (holds : tree.Invariant bounds) :
    Runs (eraseKey key) tree fun total after =>
      total = count tree.contents key ∧ Kept bounds tree after ∧
        after.contents = removeAll tree.contents key := by
  simp only [eraseKey, runs_bind, runs_get]
  refine (eraseLoop_runs erases searchable holds ?_).mono fun total after reached => ?_
  · rw [holds.itemcount]
    exact Nat.lt_succ_self _
  · obtain ⟨isTotal, kept, contents⟩ := reached
    exact ⟨by rw [isTotal, Nat.zero_add], kept, contents⟩

end PersistentBTree.Memory
