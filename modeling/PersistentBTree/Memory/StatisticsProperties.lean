import PersistentBTree.Memory.CopyProperties
import PersistentBTree.Memory.ReachableProperties
import PersistentBTree.Memory.Statistics

/-! The statistics of a `btree` stay exact as long as every call returns. The calls
that may not return are `clear` and assignment, whose loops count the children of
a node in an `unsigned short`. -/

set_option autoImplicit false

namespace PersistentBTree.Memory

open Imperative Multimap

variable {K D : Type} {tree source : BTree K D} {height : Nat} {sub : Tree K D}

/-! ## The nodes of a tree -/

/-- The addresses of the inner nodes. -/
def Tree.inners : Tree K D → List Ptr
  | .leaf _ _ => []
  | .inner ptr _ kids => ptr :: kids.flatMap inners

@[simp] theorem Tree.inners_leaf (ptr : Ptr) (pairs : List (K × D)) :
    (Tree.leaf ptr pairs).inners = [] := by
  rw [inners]

@[simp] theorem Tree.inners_inner (ptr : Ptr) (keys : List K) (kids : Forest K D) :
    (Tree.inner ptr keys kids).inners = ptr :: kids.flatMap Tree.inners := by
  rw [inners]

theorem Tree.length_inners : (tree : Tree K D) → tree.inners.length = tree.innerCount
  | .leaf _ _ => by simp
  | .inner _ _ kids => by
      rw [inners_inner, innerCount_inner, List.length_cons, List.length_flatMap, Forest.innerCount,
        List.map_congr_left fun kid _ => length_inners kid, Nat.add_comm]

theorem Tree.foot_eq : (tree : Tree K D) → tree.foot = ↑(tree.leaves ++ tree.inners)
  | .leaf _ _ => by simp
  | .inner ptr _ kids => by
      have each : ∀ forest : Forest K D, (∀ kid ∈ forest, kid.foot = ↑(kid.leaves ++ kid.inners)) →
          Forest.foot forest = ↑(Forest.leaves forest ++ forest.flatMap inners) := by
        intro forest known
        induction forest with
        | nil => rfl
        | cons kid forest ih =>
            rw [Forest.foot_cons, known kid (by simp),
              ih fun other member => known other (by simp [member]), Forest.leaves_cons,
              List.flatMap_cons, Multiset.coe_add, Multiset.coe_eq_coe]
            simp only [List.append_assoc]
            exact List.Perm.append_left _ (List.perm_append_comm_assoc ..)
      rw [foot_inner, leaves_inner, inners_inner, each kids fun kid _ => foot_eq kid,
        Multiset.cons_coe, Multiset.coe_eq_coe]
      exact List.perm_middle.symm

namespace BTree

theorem Represents.innersBelow_eq (stored : tree.Represents height sub) :
    tree.innersBelow height sub.ptr = sub.inners := by
  induction height generalizing sub with
  | zero =>
      obtain ⟨ptr, pairs, rfl⟩ := stored.exists_leaf
      rw [innersBelow, Tree.inners_leaf]
  | succ height ih =>
      obtain ⟨ptr, keys, kids, rfl⟩ := stored.exists_inner
      obtain ⟨⟨node, found, -, stores⟩, below⟩ := stored
      simp only [innersBelow, Tree.ptr_inner, found, stores.children_eq, Tree.inners_inner,
        List.flatMap_map]
      exact congrArg (ptr :: ·) (List.flatMap_congr fun kid member => ih (below kid member))

theorem Stored.leafPtrs_eq (whole : tree.Stored height sub) : tree.leafPtrs = sub.leaves := by
  rw [leafPtrs, whole.leafBlocks_eq, Tree.leaves]

theorem Stored.innerPtrs_eq (whole : tree.Stored height sub) : tree.innerPtrs = sub.inners := by
  obtain ⟨node, found, isLevel, -⟩ := whole.stored.exists_node
  simp only [innerPtrs, whole.root, found, isLevel]
  exact whole.stored.innersBelow_eq

theorem Stored.exact (whole : tree.Stored height sub)
    (itemcount : tree.mStats.itemcount = tree.contents.length) : tree.Exact where
  itemcount := itemcount
  leaves := by rw [whole.leaves, whole.leafPtrs_eq]
  innernodes := by rw [whole.innernodes, whole.innerPtrs_eq, Tree.length_inners]
  distinct := by
    rw [whole.leafPtrs_eq, whole.innerPtrs_eq, ← Multiset.coe_nodup, ← Tree.foot_eq]
    exact whole.nodup
  allocated ptr := by
    rw [whole.leafPtrs_eq, whole.innerPtrs_eq, ← Multiset.mem_coe, ← Tree.foot_eq]
    exact ⟨whole.allocated ptr, whole.stored.heap_ne_none⟩

theorem Vacant.exact (vacant : tree.Vacant) : tree.Exact := by
  have noLeaves : tree.leafPtrs = [] := by rw [leafPtrs, vacant.leafBlocks_eq, List.map_nil]
  have noInners : tree.innerPtrs = [] := by rw [innerPtrs, vacant.root]
  have noPairs : tree.contents = [] := by rw [contents, vacant.leafBlocks_eq, pairsIn_nil]
  constructor <;> simp [noLeaves, noInners, noPairs, vacant.stats, vacant.unused]

theorem Invariant.exact [LinearOrder K] {bounds : Bounds} (holds : tree.Invariant bounds) :
    tree.Exact := by
  rcases holds.shape with vacant | ⟨height, sub, intact⟩
  · exact vacant.exact
  · exact intact.whole.exact holds.itemcount

end BTree

/-! ## Runs with assignments -/

variable [LinearOrder K] {bounds : Bounds} {sizes : NodeSizes} {checks : Assertion → Bool}

theorem assign_kept (erases : bounds.Erases tree.sizes checks) (holds : tree.Invariant bounds)
    (holdsSource : source.Invariant bounds) (sameSizes : source.sizes = tree.sizes) :
    RunsIf (¬ tree.Wide ∧ ¬ source.Wide) (assign source) tree fun _ after =>
      Kept bounds tree after ∧ after.contents = source.contents := by
  rcases holdsSource.shape with vacant | ⟨height, sub, intact⟩
  · have counted : source.mStats.itemcount = 0 := by rw [vacant.stats]
    refine ((assign_none_runs holds.isTree counted).mono fun _ after cleared => ?_).congr
      (and_iff_left vacant.not_wide).symm
    obtain ⟨nothing, sizes, checks⟩ := cleared
    have noPairs : after.contents = [] := by
      rw [BTree.contents, nothing.leafBlocks_eq, pairsIn_nil]
    refine ⟨⟨⟨.inl nothing, by rw [nothing.stats, noPairs]; rfl⟩, sizes, checks⟩, ?_⟩
    rw [noPairs, BTree.contents, vacant.leafBlocks_eq, pairsIn_nil]
  · have some_ : source.mStats.itemcount ≠ 0 := by
      rw [holdsSource.itemcount, intact.contents_eq]
      exact List.length_pos_iff.mpr
        (intact.wellFormed.pairs_ne_nil_of_used erases.positive intact.wellFormed.used_ge) |>.ne'
    have inRange : height ≠ 0 → tree.sizes.innerslotmax + 1 < 2 ^ 32 := by
      intro isInner
      obtain ⟨lower, rfl⟩ := Nat.exists_eq_succ_of_ne_zero isInner
      rw [← sameSizes]
      exact intact.stored.inRange (sameSizes ▸ erases.isUnsigned)
    have fits : sub.Fits tree.sizes :=
      intact.wellFormed.fits (le_of_eq erases.leafMax) (le_of_eq erases.innerMax) inRange
    refine ((assign_some_runs holds.isTree intact.whole some_).mono fun _ after copied => ?_).congr ?_
    · obtain ⟨sizes, checks, stats, twin, stored, same⟩ := copied
      have pairs : twin.pairs = sub.pairs := by rw [← Tree.pairs_bare, same, Tree.pairs_bare]
      have formed : WellFormed bounds 1 height twin :=
        wellFormed_bare.mp (same ▸ wellFormed_bare.mpr intact.wellFormed)
      have contents : after.contents = source.contents := by
        rw [stored.contents_eq, pairs, intact.contents_eq]
      refine ⟨⟨⟨.inr ⟨height, twin, stored.intact formed (pairs ▸ intact.sorted)⟩, ?_⟩, sizes,
        checks⟩, contents⟩
      rw [stats, contents, holdsSource.itemcount]
    · rw [and_iff_right fits, intact.whole.narrow_iff]

variable [Inhabited K]

theorem ReachableIn.assembled {kind : BTree K D → Prop}
    (reached : ReachableIn kind sizes checks tree) : AssembledIn kind sizes checks tree := by
  induction reached with
  | refl => exact .empty
  | tail _ step assembled =>
      obtain ⟨command, reply, valid, searches, returned⟩ := step
      exact .call assembled valid searches returned

theorem AssembledIn.kept (erases : bounds.Erases sizes checks)
    (assembled : AssembledIn BTree.Searchable sizes checks tree) :
    Kept bounds (BTree.empty sizes checks) tree := by
  induction assembled with
  | empty => exact .refl (BTree.empty_invariant bounds sizes checks)
  | call _ valid searches returned kept =>
      have outcome := Command.perform_runs (kept.erases erases) kept.invariant _ valid searches
      exact kept.trans (outcome.holds returned).1
  | assign _ _ returned kept keptSource =>
      have outcome := assign_kept (kept.erases erases) kept.invariant keptSource.invariant
        (keptSource.sizes.trans kept.sizes.symm)
      exact kept.trans (outcome.holds returned).1

/-- A call or an assignment returns exactly when none of its loops is too short. -/
theorem AssembledIn.perform_runs (erases : bounds.Erases sizes checks)
    (assembled : AssembledIn BTree.Searchable sizes checks tree) (change : Change K D)
    (valid : change.Valid BTree.Searchable sizes checks tree)
    (searches : change.SearchesIn BTree.Searchable tree) :
    RunsIf (change.Narrow tree) change.perform tree fun _ after =>
      AssembledIn BTree.Searchable sizes checks after := by
  have kept := assembled.kept erases
  cases change with
  | call command =>
      have outcome := command.perform_runs (kept.erases erases) kept.invariant valid searches
      rcases outcome with ⟨narrow, reply, after, returned, -⟩ | ⟨wide, faults⟩
      · refine .inl ⟨narrow, ?_⟩
        simp only [Change.perform, runs_bind, runs_pure]
        exact ⟨reply, after, returned, .call assembled valid searches returned⟩
      · exact .inr ⟨wide, faults.bind⟩
  | assign source =>
      have keptSource := AssembledIn.kept erases valid
      have outcome := assign_kept (kept.erases erases) kept.invariant keptSource.invariant
        (keptSource.sizes.trans kept.sizes.symm)
      rcases outcome with ⟨narrow, ⟨⟩, after, returned, -⟩ | stops
      · exact .inl ⟨narrow, ⟨⟩, after, returned, .assign assembled valid returned⟩
      · exact .inr stops

end PersistentBTree.Memory
