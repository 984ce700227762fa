import PersistentBTree.Memory.Guarantees

/-! Insertion keeps every tree within its bounds, also one that no run of calls
leads to: any two node sizes, any fill between half and all of the slots, and any
statistics. The sums of the searches on the way down must be in range. -/

set_option autoImplicit false

namespace PersistentBTree.Memory

open Imperative Multimap

variable {K D : Type} [LinearOrder K] [Inhabited K] {tree : BTree K D}

/-- There is no root, or the object stores a well-formed tree whose nodes are
filled within the bounds. -/
def BTree.Built (tree : BTree K D) : Prop :=
  (tree.mRoot = none ∧ ∀ ptr, tree.brk ≤ ptr → tree.heap ptr = none) ∨
    ∃ height sub, tree.Rooted tree.sizes.halves height sub

omit [Inhabited K] in
private theorem BTree.Rooted.setItemcount {bounds : Bounds} {height : Nat} {sub : Tree K D}
    (rooted : tree.Rooted bounds height sub) (itemcount : Nat) :
    BTree.Rooted bounds { tree with mStats.itemcount := itemcount } height sub where
  root := rooted.root
  stored := rooted.stored.congr rfl fun _ _ => rfl
  wellFormed := rooted.wellFormed
  sorted := rooted.sorted
  nodup := rooted.nodup
  unused := rooted.unused
  chained := rooted.chained.congr (fun _ _ => rfl) rfl rfl

/-- The key can be inserted into the stored tree. -/
def BTree.Takes (tree : BTree K D) (key : K) : Prop :=
  ∀ height sub, tree.Rooted tree.sizes.halves height sub → sub.Takes key tree.sizes

omit [Inhabited K] in
/-- With small nodes every key can be inserted. -/
theorem BTree.takes_of_small (leafSmall : tree.sizes.leafslotmax ≤ 2 ^ 30)
    (innerSmall : tree.sizes.innerslotmax ≤ 2 ^ 30) (key : K) : tree.Takes key :=
  fun _ _ rooted => ⟨rooted.wellFormed.reaches ⟨leafSmall, innerSmall⟩ key, .inr (by omega)⟩

/-- `insert` returns, adds the pair and keeps the bounds. -/
def BTree.Inserts (tree : BTree K D) (key : K) (value : D) : Prop :=
  Runs (insert key value) tree fun outcome after => after.sizes = tree.sizes ∧ outcome.2 = true ∧
    (∃ height sub, after.Rooted after.sizes.halves height sub) ∧
      ∃ front back, tree.contents = front ++ back ∧ Cut (· < key) front back ∧
        Denotes after.leafBlocks outcome.1 front (key, value) back

omit [Inhabited K] in
/-- After the first lines of `insert_start` there is a root. -/
private theorem insertRoot_built (built : tree.Built) {post : Ptr → BTree K D → Prop}
    (next : ∀ start height sub, start.Rooted tree.sizes.halves height sub →
      (tree.Rooted tree.sizes.halves height sub ∨ ∃ ptr, sub = .leaf ptr []) →
      start.sizes = tree.sizes → sub.pairs = tree.contents → post sub.ptr start) :
    Runs insertRoot tree post := by
  rcases built with ⟨noRoot, unused⟩ | ⟨height, sub, rooted⟩
  · simp only [insertRoot, runs_bind, runs_get, noRoot, runs_allocateLeaf, runs_modify, runs_pure]
    refine next _ 0 _ (.withLeaf _ unused) (.inr ⟨_, rfl⟩) rfl ?_
    rw [Tree.pairs_leaf, BTree.contents, BTree.leafBlocks, noRoot, pairsIn_nil]
  · simp only [insertRoot, runs_bind, runs_get, rooted.root, runs_pure]
    refine next tree height sub rooted (.inl rooted) rfl ?_
    rw [BTree.contents, rooted.leafBlocks_eq, Tree.pairs]

private theorem BTree.Built.inserts (leafLarge : 2 ≤ tree.sizes.leafslotmax)
    (innerLarge : 2 ≤ tree.sizes.innerslotmax) (built : tree.Built) {key : K}
    (takes : tree.Takes key) (value : D) : tree.Inserts key value := by
  simp only [BTree.Inserts, insert, runs_bind]
  refine insertRoot_built built fun start height sub rooted whole sizes pairs => ?_
  rw [rooted.stored.runs_level]
  have splits : tree.sizes.halves.Splits start.sizes := by
    rw [sizes]
    exact NodeSizes.halves_splits leafLarge innerLarge
  have takesStart : sub.Takes key start.sizes := by
    rw [sizes]
    rcases whole with whole | ⟨ptr, rfl⟩
    · exact takes height sub whole
    · exact .emptyLeaf ptr (Nat.lt_of_lt_of_le (by decide) leafLarge)
  refine (insertRooted_runs splits takesStart rooted rooted.wellFormed).mono
    fun result middle grows => grows.mono ?_
  rintro - _ ⟨after, upper, whole, rfl, grown, rooted', -, inserted, front, back, split, cut,
    denotes⟩
  simp only [inserted, ↓reduceIte, runs_modify, runs_pure, true_and]
  have counted := rooted'.setItemcount (after.mStats.itemcount + 1)
  have same : after.sizes = tree.sizes := grown.frame.sizes.trans sizes
  refine ⟨same, ⟨upper, whole, ?_⟩, front, back, pairs ▸ split, cut, ?_⟩
  · rw [← same] at counted
    exact counted
  · rwa [counted.leafBlocks_eq]

/-- `insert` keeps a tree that takes the key, and no other one whose numbers of slots are
in the range of an `int`. -/
theorem insert_built (leafLarge : 2 ≤ tree.sizes.leafslotmax)
    (innerLarge : 2 ≤ tree.sizes.innerslotmax) (built : tree.Built) (key : K) (value : D) :
    (tree.Takes key → tree.Inserts key value) ∧
      (tree.IntSlots → tree.sizes.innerslotmax < 2 ^ 32 →
        (tree.Inserts key value ↔ tree.Takes key)) := by
  refine ⟨fun takes => built.inserts leafLarge innerLarge takes value,
    fun ints isUnsigned => ⟨fun inserts height sub rooted => ?_,
      fun takes => built.inserts leafLarge innerLarge takes value⟩⟩
  by_contra never
  exact inserts.not_faults
    (insert_faults (NodeSizes.halves_splits leafLarge innerLarge) rooted ints isUnsigned never)

theorem insert_built_duplicates : ∃ tree, (performAll duplicates).run
    (BTree.empty (setNodeSize 5 4) debugBuild) = .ok ((), tree) ∧ tree.Takes 2 ∧
      (tree.Takes 2 → tree.Inserts 2 0) ∧
      (tree.IntSlots → tree.sizes.innerslotmax < 2 ^ 32 → (tree.Inserts 2 0 ↔ tree.Takes 2)) := by
  obtain ⟨tree, returned, reached⟩ := exists_reachable (setNodeSize 5 4) debugBuild duplicates
    (by decide) (by decide +kernel)
  have small : Small 5 4 := ⟨⟨by decide, by decide, by decide⟩, by decide, by decide⟩
  have kept := reached.kept small.searchable (small.erases debugBuild)
  have sized : tree.sizes = setNodeSize 5 4 := kept.sizes
  have built : tree.Built := by
    rcases kept.invariant.shape with vacant | ⟨height, sub, intact⟩
    · exact .inl ⟨vacant.root, fun ptr _ => vacant.unused ptr⟩
    · refine .inr ⟨height, sub, ?_⟩
      rw [sized]
      exact .of_intact intact
  exact ⟨tree, returned, BTree.takes_of_small (by rw [sized]; decide) (by rw [sized]; decide) 2,
    insert_built (by rw [sized]; decide) (by rw [sized]; decide) built 2 0⟩

/-- Insertion keeps every well-formed tree, whatever its node sizes are. -/
def KeepsInserting (K D : Type) [LinearOrder K] [Inhabited K] : Prop :=
  ∀ tree : BTree K D, 2 ≤ tree.sizes.leafslotmax → 2 ≤ tree.sizes.innerslotmax → tree.Built →
    ∀ (key : K) (value : D), tree.Inserts key value

/-- A leaf of so many pairs with the key 0 does not take the key 1. -/
theorem not_keepsInserting : ¬ KeepsInserting Nat Nat := by
  intro keeps
  obtain ⟨tree, sub, -, sized, intact, faults, -⟩ := exists_unsearchable (setNodeSize (2 ^ 31) 8)
    (by decide) (by decide) (by decide) releaseBuild Nat.one_pos 0
  have built : tree.Built := by
    refine .inr ⟨0, sub, ?_⟩
    rw [sized]
    exact .of_intact intact
  have inserts := keeps tree (by rw [sized]; decide) (by rw [sized]; decide) built 1 0
  exact inserts.not_faults faults

end PersistentBTree.Memory
