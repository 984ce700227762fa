import PersistentBTree.Imperative.Walk
import PersistentBTree.Tables.Tree

/-! Going over a table in both directions. `++` from `Begin` and `--` from `End` arrive at
every pair of the chain and stay at its ends, while a loop that compares with `Begin` does
not leave the last leaf. -/

set_option autoImplicit false

namespace PersistentBTree.Tables

open Imperative Pages

variable {S : Type} {table : Table S} {leaves : List PageId}

/-! ## The walks and the loop -/

/-- `count` times `++` from `Begin` on. -/
def forwardWalk (count : Nat) : M S (List Iterator) := do
  let first ← beginIter
  walk Iterator.increment count first

/-- `count` times `--` from `End` on. -/
def backwardWalk (count : Nat) : M S (List Iterator) := do
  let last ← endIter
  walk Iterator.decrement count last

/-- `while (iter != Begin()) --iter`, with the iterators that it arrives at. -/
def iterateBack : (fuel : Nat) → Iterator → M S (List Iterator)
  | 0, _ => throw .outOfFuel
  | fuel + 1, iter => do
      let first ← beginIter
      if iter.notEqual first then
        let next ← iter.decrement
        let visited ← iterateBack fuel next
        pure (next :: visited)
      else pure []

/-- The loop from `End` on. -/
def visitBack (fuel : Nat) : M S (List Iterator) := do
  let last ← endIter
  iterateBack fuel last

/-! ## The ends of the chain -/

theorem decrement_stays {leaf : PageId} (allocated : table.store.Allocated leaf)
    (backward : (table.nodeAt leaf).prevleaf = -1) :
    MovesTo Iterator.decrement table ⟨leaf, 0⟩ ⟨leaf, 0⟩ := by
  simp [MovesTo, Iterator.decrement, allocated, backward]

theorem increment_stays {leaf : PageId} (allocated : table.store.Allocated leaf)
    (forward : (table.nodeAt leaf).nextleaf = -1) :
    MovesTo Iterator.increment table (ending table leaf) (ending table leaf) := by
  simp [MovesTo, Iterator.increment, ending, allocated, forward]

/-- Inside of a leaf `--` goes one slot down. -/
theorem decrement_slot {leaf : PageId} (allocated : table.store.Allocated leaf) (slot : Nat) :
    MovesTo Iterator.decrement table ⟨leaf, slot + 1⟩ ⟨leaf, slot⟩ := by
  simp [MovesTo, Iterator.decrement, allocated]

namespace LeafChain

theorem head_mem (chain : LeafChain table leaves) : table.mHeadleafId ∈ leaves :=
  List.mem_of_mem_head? chain.head

theorem prevleaf_head (chain : LeafChain table leaves) :
    (table.nodeAt table.mHeadleafId).prevleaf = -1 := by
  obtain ⟨first, rest, rfl⟩ := List.exists_cons_of_ne_nil chain.ne_nil
  cases chain.head
  exact eq_of_pageOf_none (congrArg Prod.fst (Option.some.inj chain.linked.1))

/-- `++` and `--` connect the pairs and the end of the chain. -/
theorem steps (chain : LeafChain table leaves) :
    List.IsChain (Steps table) (positions table leaves ++ [ending table table.mTailleafId]) := by
  have all := isChain_positions chain.ne_nil chain.allocated chain.filled chain.linked
  rwa [chain.getLast_eq] at all

/-- The pairs of the chain begin with the first one of the head leaf. -/
theorem positions_eq_cons (chain : LeafChain table leaves) :
    positions table leaves = ⟨table.mHeadleafId, 0⟩ :: (positions table leaves).tail := by
  obtain ⟨first, rest, rfl⟩ := List.exists_cons_of_ne_nil chain.ne_nil
  cases chain.head
  obtain ⟨more, starts⟩ := head_positions (chain.filled table.mHeadleafId chain.head_mem) rest
  rw [starts, List.tail_cons]

/-! ## Walks -/

theorem forwardWalk_runs (chain : LeafChain table leaves) (count : Nat) :
    Runs (forwardWalk count) table fun visited final =>
      visited = ((positions table leaves).tail ++
        List.replicate count (ending table table.mTailleafId)).take count ∧ final = table := by
  have tailAllocated := chain.allocated _ chain.tail_mem
  have forward : List.IsChain (MovesTo Iterator.increment table)
      (positions table leaves ++ [ending table table.mTailleafId]) :=
    chain.steps.imp fun _ _ step => step.1
  rw [chain.positions_eq_cons, List.cons_append] at forward
  apply (Runs.bind_iff (beginIter_runs (chain.allocated _ chain.head_mem))).mpr
  have walks := walk_chain forward (by rw [← List.cons_append, List.getLast?_concat])
    (increment_stays tailAllocated chain.nextleaf_tail) count
  rwa [List.append_assoc, List.singleton_append, ← List.replicate_succ,
    take_append_replicate] at walks

theorem backwardWalk_runs (chain : LeafChain table leaves) (count : Nat) :
    Runs (backwardWalk count) table fun visited final =>
      visited = ((positions table leaves).reverse ++
        List.replicate count (Iterator.mk table.mHeadleafId 0)).take count ∧ final = table := by
  have headAllocated := chain.allocated _ chain.head_mem
  have backward : List.IsChain (MovesTo Iterator.decrement table)
      (positions table leaves ++ [ending table table.mTailleafId]).reverse :=
    List.isChain_reverse.mpr (chain.steps.imp fun _ _ step => step.2)
  rw [List.reverse_concat] at backward
  apply (Runs.bind_iff (endIter_runs (chain.allocated _ chain.tail_mem))).mpr
  apply walk_chain backward
  · rw [← List.reverse_concat, List.getLast?_reverse, chain.positions_eq_cons]
    rfl
  · exact decrement_stays headAllocated chain.prevleaf_head

/-! ## The loop -/

/-- From a slot of any leaf on, the loop goes down to the first slot of the same leaf. -/
theorem iterateBack_runsIf (chain : LeafChain table leaves) {leaf : PageId}
    (among : leaf ∈ leaves) (slot fuel : Nat) :
    RunsIf (slot < fuel) (iterateBack fuel ⟨leaf, slot⟩) table fun visited final =>
      visited = ((List.range slot).map (Iterator.mk leaf)).reverse ∧ final = table := by
  have begins := beginIter_runs (chain.allocated _ chain.head_mem)
  induction slot generalizing fuel with
  | zero =>
      cases fuel with
      | zero => exact .inr ⟨Nat.lt_irrefl 0, faults_throw ..⟩
      | succ fuel =>
          apply RunsIf.of_runs _ (Nat.succ_pos fuel)
          apply (Runs.bind_iff begins).mpr
          simp [Iterator.notEqual_eq]
  | succ slot ih =>
      cases fuel with
      | zero => exact .inr ⟨Nat.not_lt_zero _, faults_throw ..⟩
      | succ fuel =>
          have moves := decrement_slot (chain.allocated leaf among) slot
          have differs : Iterator.notEqual ⟨leaf, slot + 1⟩ ⟨table.mHeadleafId, 0⟩ = true := by
            simp [Iterator.notEqual_eq]
          apply RunsIf.after
          apply begins.mono
          intro first final ⟨isFirst, same⟩
          rw [isFirst, same, if_pos differs]
          apply RunsIf.after
          apply Runs.mono moves
          intro next final ⟨isNext, same⟩
          rw [isNext, same]
          apply ((ih fuel).congr Nat.succ_lt_succ_iff.symm).before
          intro visited final ⟨isVisited, same⟩
          simp [isVisited, same, List.range_succ]

/-- The loop goes over the pairs of the last leaf. -/
theorem visitBack_runsIf (chain : LeafChain table leaves) (fuel : Nat) :
    RunsIf ((table.nodeAt table.mTailleafId).slotuse < fuel) (visitBack fuel) table
      fun visited final =>
        visited = (slotsOf table table.mTailleafId).reverse ∧ final = table := by
  apply RunsIf.after
  apply (endIter_runs (chain.allocated _ chain.tail_mem)).mono
  intro last final ⟨isEnding, same⟩
  rw [isEnding, same]
  exact chain.iterateBack_runsIf chain.tail_mem _ fuel

end LeafChain

/-- Going back from `End` to `Begin` arrives at every pair of the chain, the last one first. -/
def VisitsAllBack (table : Table S) (leaves : List PageId) : Prop :=
  ∃ fuel, Runs (visitBack fuel) table fun visited final =>
    visited = (positions table leaves).reverse ∧ final = table

namespace LeafChain

theorem length_eq_one_of_slotsOf (chain : LeafChain table leaves)
    (all : slotsOf table table.mTailleafId = positions table leaves) : leaves.length = 1 := by
  have isTail : ∀ leaf ∈ leaves, leaf = table.mTailleafId := by
    intro leaf among
    have inside : (⟨leaf, 0⟩ : Iterator) ∈ slotsOf table table.mTailleafId := by
      rw [all]
      exact mem_positions.mpr ⟨among, chain.filled leaf among⟩
    exact (mem_slotsOf.mp inside).1
  have copies := List.eq_replicate_of_mem isTail
  have distinct := chain.nodup
  rw [copies, List.nodup_replicate] at distinct
  exact Nat.le_antisymm distinct (List.length_pos_iff.mpr chain.ne_nil)

theorem visitsAllBack_iff (chain : LeafChain table leaves) :
    VisitsAllBack table leaves ↔ leaves.length = 1 := by
  constructor
  · intro ⟨fuel, visited, final, returned, isAll, _⟩
    have passed := ((chain.visitBack_runsIf fuel).holds returned).1
    exact chain.length_eq_one_of_slotsOf (List.reverse_injective (passed.symm.trans isAll))
  · intro single
    obtain ⟨leaf, rfl⟩ := List.length_eq_one_iff.mp single
    cases chain.tail
    refine ⟨_, ((chain.visitBack_runsIf _).runs (Nat.lt_succ_self _)).mono ?_⟩
    intro visited final ⟨passed, same⟩
    rw [positions, List.flatMap_singleton]
    exact ⟨passed, same⟩

end LeafChain

/-- `++` from `Begin` and `--` from `End` arrive at all pairs of the chain in both orders and
stay where the chain ends. The loop back from `End` goes over the last leaf only, however
many there are. -/
theorem walks_of_chain (chain : LeafChain table leaves) :
    (∀ count, Runs (forwardWalk count) table fun visited final =>
      visited = ((positions table leaves).tail ++
        List.replicate count (ending table table.mTailleafId)).take count ∧ final = table) ∧
    (∀ count, Runs (backwardWalk count) table fun visited final =>
      visited = ((positions table leaves).reverse ++
        List.replicate count (Iterator.mk table.mHeadleafId 0)).take count ∧ final = table) ∧
    (∀ fuel, RunsIf ((table.nodeAt table.mTailleafId).slotuse < fuel) (visitBack fuel) table
      fun visited final =>
        visited = (slotsOf table table.mTailleafId).reverse ∧ final = table) ∧
    (VisitsAllBack table leaves ↔ leaves.length = 1) :=
  ⟨chain.forwardWalk_runs, chain.backwardWalk_runs, chain.visitBack_runsIf,
    chain.visitsAllBack_iff⟩

/-- Of two leaves with three and two pairs only the two are visited. -/
theorem walks_of_chain_twoLeaves :
    LeafChain twoLeaves [0, 1] ∧
      Runs (backwardWalk 6) twoLeaves (fun visited final =>
        visited = [⟨1, 1⟩, ⟨1, 0⟩, ⟨0, 2⟩, ⟨0, 1⟩, ⟨0, 0⟩, ⟨0, 0⟩] ∧ final = twoLeaves) ∧
      ¬ VisitsAllBack twoLeaves [0, 1] := by
  obtain ⟨-, backward, -, all⟩ := walks_of_chain twoLeaves_chain
  refine ⟨twoLeaves_chain, (backward 6).mono ?_, ?_⟩
  · intro visited final ⟨isVisited, same⟩
    exact ⟨isVisited.trans (by decide +kernel), same⟩
  · intro visits
    cases all.mp visits

end PersistentBTree.Tables
