import PersistentBTree.Tables.ErasePathProperties

/-! The descents of `erase_one` and `erase(iterator)` along the path to the first pair with the
key. Both come to the same leaf and slot. -/

set_option autoImplicit false

namespace PersistentBTree.Tables.NullSafe

open Imperative Pages Multimap
open Memory (Tree Forest Bounds WellFormed Block pairsIn)

variable {K D : Type} [LinearOrder K] {table : Table (Slots K D)} {bounds : Bounds}
  {least height : Nat} {key : K} {iter : Iterator} {sub kid : Tree K D} {front back : Forest K D}
  {ptr : Memory.Ptr} {keys : List K} {place below : Place} {leaves : List PageId}

/-! ## Stored nodes -/

omit [LinearOrder K] in
theorem behind_of_chain {left right : PageId} (chain : LeafChain table leaves)
    (within : [left, right] <:+: leaves) :
    Behind table left right ∧ 1 ≤ (table.nodeAt right).slotuse := by
  obtain ⟨before, behind, rfl⟩ := within
  have linked := chain.linked
  have nodup := chain.nodup
  rw [List.append_assoc, List.cons_append, List.singleton_append] at linked nodup
  rw [List.append_cons] at linked
  have forward : pageOf (table.nodeAt right).nextleaf = behind.head?.or none :=
    congrArg Prod.snd (Option.some.inj linked.at_middle)
  have leftIn := chain.allocated left (by simp)
  have rightIn := chain.allocated right (by simp)
  refine ⟨?_, chain.filled right (by simp)⟩
  cases behind with
  | nil =>
      have isEnd := eq_of_pageOf_none forward
      exact ⟨fun same => ne_of_allocated leftIn (same.symm.trans isEnd),
        fun same => ne_of_allocated rightIn (same.symm.trans isEnd), fun some_ => absurd isEnd some_⟩
  | cons next behind =>
      have isNext := eq_of_pageOf forward
      have rest := (List.nodup_append.mp nodup).2.1
      rw [List.nodup_cons, List.nodup_cons] at rest
      rw [← isNext] at rest
      constructor
      · exact fun same => rest.1 (same ▸ List.mem_cons_of_mem right List.mem_cons_self)
      · exact fun same => rest.2.1 (List.mem_cons.mpr (.inl same.symm))
      · intro some_
        rw [isNext]
        exact ⟨chain.allocated next (by simp), beq_iff_eq.mp (chain.isLeaf next (by simp))⟩

omit [LinearOrder K] in
theorem leaves_of_leaf (represents : table.Represents 0 sub) : sub.leaves = [sub.ptr] := by
  obtain ⟨ptr, pairs, rfl, -⟩ := represents.exists_leaf
  rw [Tree.leaves_leaf, Tree.ptr_leaf]

omit [LinearOrder K] in
theorem branch_of_represents (represents : table.Represents (height + 1) (.inner ptr keys front))
    (nodup : (Tree.inner ptr keys front).foot.Nodup) : Branch table height ptr := by
  obtain ⟨used, count⟩ := slotuse_eq represents
  rw [Tree.foot_inner, Multiset.nodup_cons] at nodup
  have distinct := Multiset.coe_nodup.mp (Multiset.nodup_of_le (ptrs_le_foot front) nodup.2)
  have different : (table.childs ptr).Nodup := by
    rw [represents.2.2.2.1]
    have pages := distinct.map Int.ofNat_injective
    rwa [List.map_map] at pages
  constructor
  · exact represents.1
  · exact represents.2.1
  · intro i inside
    obtain ⟨before, kid, behind, rfl, rfl⟩ := @Memory.exists_split_at _ front i (by omega)
    have stored := represents.2.2.2.2 kid (by simp)
    rw [childAt_eq represents]
    exact ⟨stored.allocated, stored.level_eq⟩
  · intro i j less inside same
    have bound : j < (table.childs ptr).length := by
      rw [Table.childs, length_firstCells]
      exact Nat.lt_succ_of_le inside
    refine List.nodup_iff_getElem?_ne_getElem?.mp different i j less bound ?_
    rw [getElem?_childs inside, getElem?_childs (less.le.trans inside)]
    exact congrArg some same

theorem leafPlaced (path : OnPath table bounds key iter leaves 1 (.inner ptr keys (front ++ kid :: back)))
    (descends : Descends table bounds 0 ptr front kid back place below)
    (chain : LeafChain table leaves) : LeafPlaced table kid.ptr below := by
  have stored := path.represents.2.2.2.2
  have here := stored kid (by simp)
  refine ⟨descends.placed, here.allocated, here.level_eq, ?_⟩
  intro left right parent merging
  obtain ⟨before, behind, first, second, split, -, rfl, rfl⟩ := descends.adjacent left right parent
    merging
  have ids := path.ids
  have within := path.within
  rw [split] at stored ids within
  have among : [(first.ptr : PageId), (second.ptr : PageId)] <:+: leaves := by
    refine List.IsInfix.trans ⟨leafForest before, leafForest behind, ?_⟩ within
    simp [leafForest, leafPages, leaves_of_leaf (stored first (by simp)),
      leaves_of_leaf (stored second (by simp))]
  obtain ⟨behind, filled⟩ := behind_of_chain chain among
  refine ⟨ids first.ptr ?_, behind, fun _ => filled⟩
  rw [Tree.foot_inner]
  exact Multiset.mem_cons_of_mem (Forest.mem_foot.mpr ⟨first, by simp, first.ptr_mem_foot⟩)

/-! ## The leaf -/

omit [LinearOrder K] in
theorem keyAt_of_pairs {n : PageId} {i : Nat} {pair : K × D}
    (stored : (table.pairs n)[i]? = some pair) :
    i < (table.nodeAt n).slotuse ∧ table.keyAt n i = pair.1 := by
  have inside := (List.getElem?_eq_some_iff.mp stored).1
  rw [Table.pairs, length_firstCells] at inside
  rw [Table.pairs, firstCells, List.getElem?_map, List.getElem?_range inside] at stored
  exact ⟨inside, congrArg Prod.fst (Option.some.inj stored)⟩

/-- The search in the leaf ends at the slot of the iterator. -/
theorem OnPath.at_leaf {pairs : List (K × D)}
    (path : OnPath table bounds key iter leaves 0 (.leaf ptr pairs)) :
    iter = ⟨(ptr : PageId), table.lowerSlot ptr key⟩ ∧
      table.lowerSlot ptr key < table.upperSlot ptr key := by
  have ordered : table.Ordered ptr :=
    ordered_of_represents path.represents path.formed path.sorted
  obtain ⟨-, -, held⟩ := path.represents
  obtain ⟨earlier, leaf, lower, value, upper, later, split, rfl, below⟩ := path.first
  rw [Tree.blocks_leaf] at split
  obtain ⟨rfl, rest⟩ : earlier = [] ∧ [(ptr, pairs)] = (leaf, lower ++ (key, value) :: upper) :: later := by
    cases earlier with
    | nil => exact ⟨rfl, split⟩
    | cons block earlier => simp at split
  obtain ⟨rfl, isPairs⟩ := Prod.mk.inj (List.cons.inj rest).1
  rw [isPairs] at held
  have here := @keyAt_of_pairs K D table ptr lower.length (key, value) (by rw [held]; simp)
  obtain ⟨atMost, inside⟩ := (ordered.keyAt_eq_iff here.1).mp here.2
  have same : table.lowerSlot ptr key = lower.length := by
    apply le_antisymm atMost
    by_contra less
    have shorter := Nat.lt_of_not_le less
    have earlier := @keyAt_of_pairs K D table ptr (table.lowerSlot ptr key)
      lower[table.lowerSlot ptr key] (by rw [held, List.getElem?_append_left shorter]; simp)
    have before := below lower[table.lowerSlot ptr key]
      (List.mem_append_right _ (List.getElem_mem shorter))
    rw [← earlier.2, ordered.keyAt_lt_iff earlier.1] at before
    exact lt_irrefl _ before
  rw [same]
  exact ⟨rfl, inside⟩

/-! ## The descents -/

omit [LinearOrder K] in
theorem lift_runs {α : Type} {program : M (Slots K D) α} {value : α} {after : Table (Slots K D)}
    (runs : Runs program table fun result final => result = value ∧ final = after) :
    (lift program).run table = .ok (value, after) := by
  obtain ⟨_, _, returned, rfl, rfl⟩ := runs
  exact lift_run returned

section Descents

variable {isRoot : Place → Bool} {fuel : Nat}

omit [LinearOrder K] in
private theorem isLeaf_run {n : PageId} (inUse : table.store.Allocated n) {level : Nat}
    (isLevel : (table.nodeAt n).level = level) :
    (lift (isLeaf n)).run table = .ok (level == 0, table) :=
  lift_runs ((runs_isLeaf ..).mpr ⟨inUse, by rw [Node.isLeafNode, isLevel], rfl⟩)

theorem descendByKey_leaf {pairs : List (K × D)}
    (path : OnPath table bounds key iter leaves 0 (.leaf ptr pairs)) :
    (descendByKey (arrays K D) samePage direct isRoot (fuel + 1) key ptr place).run table =
      (eraseInLeaf (arrays K D) samePage direct ptr iter.currslot place).run table := by
  obtain ⟨isIter, present⟩ := path.at_leaf
  have inUse : table.store.Allocated ptr := path.represents.allocated
  have ordered : table.Ordered ptr :=
    ordered_of_represents path.represents path.formed path.sorted
  have searches := @findLower_finds _ _ _ _ _ key inUse ordered
  have finds := @hasKeyAt_runs _ _ _ _ _ key inUse ordered _ (le_refl _)
  rw [decide_eq_true present] at finds
  rw [descendByKey, run_bind_ok (isLeaf_run inUse path.represents.level_eq),
    run_bind_ok (lift_runs searches), if_pos (by decide), run_bind_ok (lift_runs finds), if_pos rfl,
    isIter]

theorem eraseIterDescend_leaf {pairs : List (K × D)}
    (path : OnPath table bounds key iter leaves 0 (.leaf ptr pairs)) :
    (eraseIterDescend (arrays K D) samePage direct (fuel + 1) iter ptr place).run table =
      (eraseInLeaf (arrays K D) samePage direct ptr iter.currslot place).run table := by
  obtain ⟨isIter, present⟩ := path.at_leaf
  have inUse : table.store.Allocated ptr := path.represents.allocated
  have inside : ¬ (table.nodeAt ptr).slotuse ≤ table.lowerSlot ptr key :=
    Nat.not_le_of_lt (present.trans_le upperSlot_le)
  have here : samePage (some (ptr : PageId)) iter.handle = true := by
    rw [isIter]
    exact decide_eq_true rfl
  rw [eraseIterDescend, run_bind_ok (isLeaf_run inUse path.represents.level_eq),
    run_bind_ok (lift_runs ((runs_slotuse ..).mpr ⟨inUse, rfl, rfl⟩)), if_pos (by decide), here,
    if_neg (by decide), isIter, if_neg inside]

variable {child : PageId} {result : Result K} {middle : Table (Slots K D)}

theorem descendByKey_inner
    (path : OnPath table bounds key iter leaves (height + 1) (.inner ptr keys front))
    (placed : (placeOf (arrays K D) ptr (table.lowerSlot ptr key) place).run table =
      .ok ((child, below), table)) :
    (descendByKey (arrays K D) samePage direct isRoot (fuel + 1) key ptr place).run table =
      (do
        let result ← descendByKey (arrays K D) samePage direct isRoot fuel key child below
        if result.notFound then pure result
        else
          eraseInInner (arrays K D) samePage direct isRoot ptr (table.lowerSlot ptr key) result place :
        Erasing (Slots K D) (Result K)).run table := by
  have inUse : table.store.Allocated ptr := path.represents.allocated
  have ordered : table.Ordered ptr :=
    ordered_of_represents path.represents path.formed path.sorted
  have searches := @findLower_finds _ _ _ _ _ key inUse ordered
  rw [descendByKey, run_bind_ok (isLeaf_run inUse path.represents.level_eq),
    run_bind_ok (lift_runs searches), if_neg (by simp), run_bind_ok (lift_run placed)]

end Descents

end PersistentBTree.Tables.NullSafe
