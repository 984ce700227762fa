import PersistentBTree.Memory.Guarantees
import PersistentBTree.Memory.LookupProperties
import PersistentBTree.Memory.MissingProperties

/-! What users of the in-memory `btree` may rely on when they look up keys, move
iterators and erase through them, in every state of every run. -/

set_option autoImplicit false

namespace PersistentBTree.Memory

open Imperative Multimap

variable {K D : Type} [LinearOrder K] [Inhabited K] {leafslotmax innerslotmax : Nat}
  {checks : Assertion → Bool} {tree : BTree K D}

/-! ## Lookups -/

/-- In every state of every run, all lookups agree with the stored pairs. -/
def KeepsLookingUp (kind : BTree K D → Prop) (sizes : NodeSizes) : Prop :=
  ∀ (checks : Assertion → Bool) (tree : BTree K D), ReachableIn kind sizes checks tree →
    kind tree → ∀ key : K, tree.LooksUp key

theorem keepsLookingUp_of_suitable (suitable : Suitable leafslotmax innerslotmax) :
    KeepsLookingUp (@BTree.Searchable K D) (setNodeSize leafslotmax innerslotmax) :=
  fun checks _ reached searchable key =>
    have erases := suitable.erases checks
    (reached.kept erases).invariant.looksUp erases.positive searchable key

theorem keepsLookingUp_four : KeepsLookingUp (@BTree.Searchable Nat Nat) (setNodeSize 4 4) :=
  keepsLookingUp_of_suitable small_four.toSuitable

/-- Behind so many pairs with the key 0, `lower_bound` overflows for the key 1. -/
theorem not_keepsLookingUp_large :
    ¬ KeepsLookingUp (fun _ : BTree Nat Nat => True) (setNodeSize (2 ^ 31) 8) := by
  intro keeps
  obtain ⟨tree, -, reached, -, -, -, faults⟩ := exists_unsearchable (setNodeSize (2 ^ 31) 8)
    (by decide) (by decide) (by decide) releaseBuild Nat.one_pos 0
  exact (keeps releaseBuild tree reached trivial 1).lowerBound.not_faults faults

/-! ## Iteration -/

/-- The calls of `erase_iter_descend` for nodes that do not hold the leaf of the
iterator, with neighbours on their level, find nothing and change nothing. -/
def BTree.SearchesInVain (tree : BTree K D) (iter : Iterator) : Prop :=
  ∀ ptr node, tree.heap ptr = some node →
    (∀ leaf ∈ (tree.blocksBelow node.level ptr).map Prod.fst, iter.currnode ≠ some leaf) →
    ∀ left right : Option Ptr,
      (∀ side, left = some side ∨ right = some side →
        ∃ other, tree.heap side = some other ∧ other.level = node.level) →
      ∀ leftparent rightparent parent parentslot,
        Runs (eraseIterDescend (node.level + 1) iter ptr left right leftparent rightparent parent
          parentslot) tree fun result after => result = .missing ∧ after = tree

omit [Inhabited K] in
/-- Every node that is stored is the topmost one of a part of the tree. -/
private theorem BTree.Intact.exists_part {bounds : Bounds} {height : Nat} {sub : Tree K D}
    (leafSome : 1 ≤ bounds.leafMin) (innerSome : 1 ≤ bounds.innerMin)
    (intact : tree.Intact bounds 1 height sub) {ptr : Ptr} {node : Node K D}
    (found : tree.heap ptr = some node) :
    ∃ inner, tree.Part bounds node.level inner ∧ inner.ptr = ptr := by
  have whole : tree.Part bounds height sub := ⟨intact.stored, intact.wellFormed, intact.sorted⟩
  obtain ⟨level, inner, part, rfl⟩ :=
    whole.exists_of_mem leafSome innerSome (intact.allocated ptr (by simp [found]))
  obtain ⟨node', found', isLevel, -⟩ := part.stored.exists_node
  obtain rfl := Option.some.inj (found.symm.trans found')
  exact ⟨inner, isLevel ▸ part, rfl⟩

theorem BTree.Invariant.searchesInVain {bounds : Bounds} (holds : tree.Invariant bounds)
    (leafSome : 1 ≤ bounds.leafMin) (innerSome : 1 ≤ bounds.innerMin)
    (searchable : tree.Searchable) {iter : Iterator} {front back : List (K × D)} {pair : K × D}
    (denotes : Denotes tree.leafBlocks iter front pair back) : tree.SearchesInVain iter := by
  have chain := holds.chainOf leafSome
  obtain ⟨earlier, leaf, lower, upper, later, isBlocks, rfl, -, -⟩ := denotes
  have isChain := chain
  rw [isBlocks] at isChain
  obtain ⟨leafNode, atLeaf, stores, -, -⟩ := isChain.exists_leaf
  have keys := stores.keys
  rw [List.map_append, List.map_cons] at keys
  have readSlot := keys.read
  rw [List.length_map] at readSlot
  have readKey : (Iterator.key ⟨some leaf, lower.length⟩).run tree = .ok (pair.1, tree) := by
    have runs : Runs (Iterator.key ⟨some leaf, lower.length⟩) tree fun key after =>
        key = pair.1 ∧ after = tree := by
      simp only [Iterator.key, runs_bind, runs_nonNull, runs_getLeaf, runs_readSlot]
      exact ⟨leaf, rfl, leafNode, atLeaf, pair.1, readSlot, rfl, trivial⟩
    obtain ⟨key, after, returned, rfl, rfl⟩ := runs
    exact returned
  intro ptr node found outside left right sides leftparent rightparent parent parentslot
  rcases holds.shape with vacant | ⟨height, sub, intact⟩
  · rw [vacant.unused ptr] at found
    cases found
  · have part := fun address other => @BTree.Intact.exists_part _ _ _ tree _ _ _ leafSome
      innerSome intact address other
    obtain ⟨inner, isPart, rfl⟩ := part ptr node found
    have beside : ∀ side, (∀ address, side = some address →
        ∃ other, tree.heap address = some other ∧ other.level = node.level) →
        tree.Beside bounds node.level side := by
      intro side onLevel address isSide
      obtain ⟨other, atSide, isLevel⟩ := onLevel address isSide
      exact isLevel ▸ part address other atSide
    refine eraseIterDescend_missing leafSome innerSome searchable rfl readKey isPart (fun inLeaves => ?_)
      (beside left fun side isLeft => sides side (.inl isLeft))
      (beside right fun side isRight => sides side (.inr isRight))
    rw [isPart.stored.blocksBelow_eq] at outside
    exact outside leaf inLeaves rfl

/-- In every state of every run, `erase` removes the pair that an iterator denotes. -/
def KeepsErasing (kind : BTree K D → Prop) (sizes : NodeSizes) : Prop :=
  ∀ (checks : Assertion → Bool) (tree : BTree K D), ReachableIn kind sizes checks tree →
    kind tree → ∀ (iter : Iterator) (front back : List (K × D)) (pair : K × D),
      Denotes tree.leafBlocks iter front pair back → tree.SearchesInVain iter ∧
        Runs (eraseIter iter) tree fun _ after => ReachableIn kind sizes checks after ∧
          after.contents = tree.contents.eraseIdx front.length ∧
          after.mStats.itemcount + 1 = tree.mStats.itemcount

theorem keepsErasing_of_suitable (suitable : Suitable leafslotmax innerslotmax) :
    KeepsErasing (@BTree.Searchable K D) (setNodeSize leafslotmax innerslotmax) := by
  intro checks tree reached searchable iter front back pair denotes
  have erases := suitable.erases checks
  have kept := reached.kept erases
  have innerUsed : 2 ≤ (setNodeSize leafslotmax innerslotmax).bounds.innerMin :=
    erases.two_le_least 1
  refine ⟨kept.invariant.searchesInVain erases.positive (by omega) searchable denotes, ?_⟩
  obtain ⟨result, after, returned, kept', contents⟩ :=
    eraseIter_runs (kept.erases erases) searchable kept.invariant denotes
  have performed : Runs (Command.eraseIter iter).perform tree fun reply final =>
      reply = .done ∧ final = after := by
    rw [Command.perform, runs_bind]
    exact ⟨result, after, returned, (runs_pure ..).mpr ⟨rfl, rfl⟩⟩
  obtain ⟨_, _, returned', rfl, rfl⟩ := performed
  have valid : (Command.eraseIter iter : Command K D).Valid tree := ⟨front, pair, back, denotes⟩
  have whole : tree.contents = front ++ pair :: back := denotes.pairsIn_eq
  refine ⟨result, _, returned, reached.tail ⟨_, _, valid, searchable, returned'⟩, ?_, ?_⟩
  · rw [contents, whole, List.eraseIdx_append_of_length_le (le_refl _), Nat.sub_self,
      List.eraseIdx_cons_zero]
  · rw [kept'.invariant.itemcount, kept.invariant.itemcount, contents, whole, List.length_append,
      List.length_append, List.length_cons, Nat.add_assoc]

theorem keepsErasing_four : KeepsErasing (@BTree.Searchable Nat Nat) (setNodeSize 4 4) :=
  keepsErasing_of_suitable small_four.toSuitable

/-- The slot behind 2^31 pairs is negative as an `int`. -/
theorem not_keepsErasing_large :
    ¬ KeepsErasing (fun _ : BTree Nat Nat => True) (setNodeSize (2 ^ 32 - 1) 8) := by
  intro keeps
  obtain ⟨tree, iter, front, pair, back, reached, denotes, faults⟩ :=
    @exists_negativeSlot Nat Nat _ _ _ (setNodeSize (2 ^ 32 - 1) 8) (by decide) (by decide)
      (by decide) releaseBuild 0
  exact (keeps releaseBuild tree reached trivial iter front back pair denotes).2.not_faults faults

end PersistentBTree.Memory
