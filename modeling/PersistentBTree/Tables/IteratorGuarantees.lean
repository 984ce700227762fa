import PersistentBTree.Tables.Tree

/-! Iterating over a whole table. The comparison of two iterators decides where a loop
stops, and it does not look at their pages. -/

set_option autoImplicit false

namespace PersistentBTree.Tables

open Imperative Pages

variable {S : Type} {table : Table S} {leaves : List PageId}

/-- Iterators are equal when they are at the same slot of the same leaf, and iterating
from `Begin` to `End` visits every pair of the chain once and in its order. -/
structure IteratesEverything (table : Table S) (leaves : List PageId) : Prop where
  compares : ∀ iter x : Iterator, iter.currnode ∈ leaves → x.currnode ∈ leaves →
    (iter.equal x = true ↔ iter.currnode = x.currnode ∧ iter.currslot = x.currslot)
  visits : VisitsAll table leaves
  once : (positions table leaves).Nodup

/-- Comparing the slots is enough when there is only one leaf. -/
theorem compares_iff (chain : LeafChain table leaves) :
    (∀ iter x : Iterator, iter.currnode ∈ leaves → x.currnode ∈ leaves →
      (iter.equal x = true ↔ iter.currnode = x.currnode ∧ iter.currslot = x.currslot)) ↔
      leaves.length = 1 := by
  constructor
  · intro compares
    by_contra several
    obtain ⟨first, rest, rfl⟩ := List.exists_cons_of_ne_nil chain.ne_nil
    cases rest with
    | nil => exact several rfl
    | cons second rest =>
        have apart : first ≠ second := by
          have distinct := chain.nodup
          simp only [List.nodup_cons, List.mem_cons, not_or] at distinct
          exact distinct.1.1
        have equal := (compares ⟨first, 0⟩ ⟨second, 0⟩ (by simp) (by simp)).mp
          ((Iterator.equal_iff ..).mpr rfl)
        exact apart equal.1
  · intro single iter x inLeaves xInLeaves
    obtain ⟨leaf, rfl⟩ := List.length_eq_one_iff.mp single
    rw [Iterator.equal_iff, List.mem_singleton.mp inLeaves, List.mem_singleton.mp xInLeaves]
    simp

/-- Iterators work exactly when the chain is a single leaf. An iteration alone visits
everything exactly when no leaf has more pairs than the last one. -/
theorem iteratesEverything_iff (chain : LeafChain table leaves) :
    (IteratesEverything table leaves ↔ leaves.length = 1) ∧
      (VisitsAll table leaves ↔ ∀ leaf ∈ leaves,
        (table.nodeAt leaf).slotuse ≤ (table.nodeAt table.mTailleafId).slotuse) := by
  refine ⟨?_, chain.visitsAll_iff⟩
  constructor
  · intro iterates
    exact (compares_iff chain).mp iterates.compares
  · intro single
    refine ⟨(compares_iff chain).mpr single, chain.visitsAll_iff.mpr ?_, positions_nodup chain.nodup⟩
    intro leaf among
    obtain ⟨only, rfl⟩ := List.length_eq_one_iff.mp single
    rw [List.mem_singleton.mp among, List.mem_singleton.mp chain.tail_mem]

/-- Of two leaves with three and two pairs, not all is visited. -/
theorem iteratesEverything_twoLeaves :
    LeafChain twoLeaves [0, 1] ∧
      (IteratesEverything twoLeaves [0, 1] ↔ [(0 : PageId), 1].length = 1) ∧
      (VisitsAll twoLeaves [0, 1] ↔ ∀ leaf ∈ [(0 : PageId), 1],
        (twoLeaves.nodeAt leaf).slotuse ≤ (twoLeaves.nodeAt twoLeaves.mTailleafId).slotuse) :=
  ⟨twoLeaves_chain, iteratesEverything_iff twoLeaves_chain⟩

/-- Iterating stops at the third pair, whose slot is where the last leaf ends. -/
theorem not_iteratesEverything_twoLeaves :
    Stores twoLeaves ⟨2, 4, 1, 4⟩ 1 1 twoLeavesTree ∧ LeafChain twoLeaves [0, 1] ∧
      ¬ IteratesEverything twoLeaves [0, 1] := by
  refine ⟨twoLeaves_stores, twoLeaves_chain, ?_⟩
  intro iterates
  have within := twoLeaves_chain.visitsAll_iff.mp iterates.visits 0 (by decide)
  revert within
  decide

end PersistentBTree.Tables
