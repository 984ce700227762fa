import PersistentBTree.Tables.EraseStrayProperties

/-! When `erase_one` and `erase(iterator)` leave the same table. At the root `erase_one` calls
a helper with null handles where `erase(iterator)` replaces the root, and below it
`erase_one` takes nodes for the root that are not. -/

set_option autoImplicit false

namespace PersistentBTree.Tables.NullSafe

open Imperative Pages Multimap
open Memory (Tree Forest Bounds WellFormed)

variable {K D : Type} [LinearOrder K] {table : Table (Slots K D)} {bounds : Bounds}
  {height : Nat} {key : K} {iter : Iterator} {sub kid : Tree K D} {front back kids : Forest K D}
  {ptr : Memory.Ptr} {keys : List K} {place below : Place} {leaves : List PageId}

/-- The table with one pair fewer. -/
def counted (table : Table (Slots K D)) : Table (Slots K D) :=
  { table with mStats.itemcount := table.mStats.itemcount - 1 }

omit [LinearOrder K] in
theorem dropRoot_runs (inUse : table.store.Allocated table.mRootId) :
    Runs dropRoot table fun (result : Result K) after => result = .ok ∧ after.mRootId = -1 := by
  simp only [dropRoot, runs_bind, runs_get, runs_modify, runs_pure]
  exact (freeNode_runs inUse).mono fun _ _ _ => ⟨trivial, trivial⟩

theorem Unset.setNode {S : Type} {table : Table S} {n : PageId} {node : Node S} (unset : Unset table)
    (zero : node.nSlots = 0) : Unset (table.setNode n node) := by
  intro other
  have same : node.nSlots = (table.nodeAt n).nSlots := zero.trans (unset n).symm
  exact (Table.field_setNode Node.nSlots same).trans (unset other)

end PersistentBTree.Tables.NullSafe
