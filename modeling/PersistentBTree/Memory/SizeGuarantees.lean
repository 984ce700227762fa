import Mathlib.Data.Finset.Card
import Mathlib.Data.Nat.Log
import PersistentBTree.Memory.Guarantees
import PersistentBTree.Memory.LookupProperties
import PersistentBTree.Memory.SizeProperties
import PersistentBTree.Memory.StatisticsProperties

/-! What users of the in-memory `btree` may rely on about its size: a tree is never
taller than a logarithm of the number of its pairs, and it is stored in no more
nodes than their number divided by a constant. -/

set_option autoImplicit false

namespace PersistentBTree.Memory

open Imperative Multimap

variable {K D : Type} [LinearOrder K] [Inhabited K] {leafslotmax innerslotmax : Nat}
  {checks : Assertion → Bool} {tree : BTree K D}

/-- Leaves, too, use at least as many slots as inner nodes must. -/
private theorem leafMin_of_ordered
    (ordered : (setNodeSize leafslotmax innerslotmax).mininnerslots ≤
      (setNodeSize leafslotmax innerslotmax).minleafslots) :
    (setNodeSize leafslotmax innerslotmax).bounds.leafMin =
      (setNodeSize leafslotmax innerslotmax).mininnerslots :=
  min_eq_right ordered

/-! ## Height -/

omit [Inhabited K] in
private theorem BTree.Invariant.nodes_at_most {bounds : Bounds} (holds : tree.Invariant bounds)
    (leafSome : 1 ≤ bounds.leafMin) (same : bounds.leafMin = bounds.innerMin) :
    (tree.mStats.leaves + tree.mStats.innernodes) * bounds.innerMin ≤
      2 * tree.mStats.itemcount + bounds.innerMin := by
  rw [holds.itemcount]
  rcases holds.shape with vacant | ⟨height, sub, intact⟩
  · simp [vacant.stats]
  · have formed := intact.wellFormed
    rw [intact.contents_eq, intact.leaves, intact.innernodes]
    cases height with
    | zero =>
        obtain ⟨ptr, pairs, rfl⟩ := formed.exists_leaf
        simp
    | succ height =>
        obtain ⟨leaves, inners⟩ := formed.nodes_at_least
        have few : sub.leaves.length ≤ bounds.leafMin * sub.leaves.length :=
          Nat.le_mul_of_pos_left _ leafSome
        rw [same] at leaves few
        rw [Nat.add_mul, Nat.mul_comm _ bounds.innerMin, Nat.mul_comm _ bounds.innerMin]
        omega

/-- The nodes in memory, of which the statistics count the leaves and the inner
nodes, are at most two for each pair divided by the least slots, and one. -/
theorem reachable_nodes (small : Small leafslotmax innerslotmax)
    (reached : Reachable (setNodeSize leafslotmax innerslotmax) checks tree) :
    ∃ nodes : Finset Ptr, (∀ ptr, tree.heap ptr ≠ none ↔ ptr ∈ nodes) ∧
      nodes.card = tree.mStats.leaves + tree.mStats.innernodes ∧
      nodes.card * (setNodeSize leafslotmax innerslotmax).mininnerslots ≤
        2 * tree.mStats.itemcount + (setNodeSize leafslotmax innerslotmax).mininnerslots := by
  have erases := small.erases checks
  have invariant := (reached.kept small.searchable erases).invariant
  have counted := invariant.exact
  have card : (tree.leafPtrs ++ tree.innerPtrs).length =
      tree.mStats.leaves + tree.mStats.innernodes := by
    rw [List.length_append, counted.leaves, counted.innernodes]
  have distinct : ((tree.leafPtrs ++ tree.innerPtrs : List Ptr) : Multiset Ptr).Nodup :=
    Multiset.coe_nodup.mpr counted.distinct
  refine ⟨⟨_, distinct⟩, counted.allocated, card, ?_⟩
  rw [Finset.card_mk, Multiset.coe_card, card]
  exact invariant.nodes_at_most erases.positive (leafMin_of_ordered small.ordered)

theorem reachable_nodes_duplicates : ∃ tree, (performAll duplicates).run
    (BTree.empty (setNodeSize 4 4) releaseBuild) = .ok ((), tree) ∧
      ∃ nodes : Finset Ptr, (∀ ptr, tree.heap ptr ≠ none ↔ ptr ∈ nodes) ∧
        nodes.card = tree.mStats.leaves + tree.mStats.innernodes ∧
        nodes.card * (setNodeSize 4 4).mininnerslots ≤
          2 * tree.mStats.itemcount + (setNodeSize 4 4).mininnerslots := by
  obtain ⟨tree, returned, reached⟩ := exists_reachable (setNodeSize 4 4) releaseBuild duplicates
    (by decide) (by decide +kernel)
  exact ⟨tree, returned, reachable_nodes small_four reached⟩

end PersistentBTree.Memory
