import PersistentBTree.Imperative.Splice
import PersistentBTree.Tables.NodeProperties

/-! Tables whose slots work: arrays that read back what was written, and keys that
are totally ordered. -/

set_option autoImplicit false

namespace PersistentBTree.Tables

open Imperative Pages

variable {K D α : Type}

/-- The slots of a page. -/
structure Slots (K D : Type) where
  key : Int → K
  data : Int → D
  child : Int → PageId

/-- Slots that work. -/
def arrays (K D : Type) [LinearOrder K] : Records K D (Slots K D) where
  keyLessEqual a b := decide (a ≤ b)
  keyLess a b := decide (a < b)
  getKey _ slots slot := some (slots.key slot)
  getData slots slot := some (slots.data slot)
  getChild slots slot := some (slots.child slot)
  setKey _ slots slot key := some { slots with key := Function.update slots.key slot key }
  setData slots slot data := some { slots with data := Function.update slots.data slot data }
  setChild slots slot child := some { slots with child := Function.update slots.child slot child }

/-! ## Columns -/

/-- One of the three arrays of a page. -/
structure Column (K D α : Type) where
  get : Slots K D → Int → α
  put : Slots K D → (Int → α) → Slots K D
  get_put : ∀ slots values, get (put slots values) = values
  put_put : ∀ slots first second, put (put slots first) second = put slots second
  put_get : ∀ slots, put slots (get slots) = slots

def keyColumn (K D : Type) : Column K D K where
  get := Slots.key
  put slots key := { slots with key }
  get_put _ _ := rfl
  put_put _ _ _ := rfl
  put_get _ := rfl

def dataColumn (K D : Type) : Column K D D where
  get := Slots.data
  put slots data := { slots with data }
  get_put _ _ := rfl
  put_put _ _ _ := rfl
  put_get _ := rfl

def childColumn (K D : Type) : Column K D PageId where
  get := Slots.child
  put slots child := { slots with child }
  get_put _ _ := rfl
  put_put _ _ _ := rfl
  put_get _ := rfl

namespace Table

variable {table : Table (Slots K D)} {column : Column K D α} {n other : PageId}

/-- The cells of a column. -/
def cells (table : Table (Slots K D)) (column : Column K D α) (n : PageId) : Int → α :=
  column.get (table.nodeAt n).slots

/-- A column of a node is replaced. -/
def setCells (table : Table (Slots K D)) (column : Column K D α) (n : PageId)
    (values : Int → α) : Table (Slots K D) :=
  table.setNode n { table.nodeAt n with slots := column.put (table.nodeAt n).slots values }

@[simp] theorem mTailleafId_setCells (values : Int → α) :
    (table.setCells column n values).mTailleafId = table.mTailleafId := rfl

@[simp] theorem allocated_setCells (values : Int → α) :
    (table.setCells column n values).store.Allocated other ↔ table.store.Allocated other := Iff.rfl

@[simp] theorem cells_setCells_self (values : Int → α) :
    (table.setCells column n values).cells column n = values := by
  rw [cells, setCells, nodeAt_setNode_self, column.get_put]

theorem nodeAt_setCells_self (values : Int → α) : (table.setCells column n values).nodeAt n =
    { table.nodeAt n with slots := column.put (table.nodeAt n).slots values } :=
  nodeAt_setNode_self

theorem nodeAt_setCells_of_ne (apart : other ≠ n) (values : Int → α) :
    (table.setCells column n values).nodeAt other = table.nodeAt other :=
  nodeAt_setNode_of_ne apart

theorem slots_setCells_of_ne (apart : other ≠ n) (values : Int → α) :
    ((table.setCells column n values).nodeAt other).slots = (table.nodeAt other).slots := by
  rw [setCells, nodeAt_setNode_of_ne apart]

theorem cells_setCells_of_ne (apart : other ≠ n) (values : Int → α) :
    (table.setCells column n values).cells column other = table.cells column other := by
  rw [cells, setCells, nodeAt_setNode_of_ne apart, cells]

@[simp] theorem slotuse_setCells (values : Int → α) :
    ((table.setCells column n values).nodeAt other).slotuse = (table.nodeAt other).slotuse :=
  field_setNode Node.slotuse rfl

@[simp] theorem id_setCells (values : Int → α) :
    ((table.setCells column n values).store.file other).id = (table.store.file other).id :=
  id_setNode

@[simp] theorem cells_setUsed {used : Nat} :
    (table.setUsed n used).cells column other = table.cells column other :=
  congrArg column.get slots_setUsed

@[simp] theorem cells_setPrev {link : PageId} :
    (table.setPrev n link).cells column other = table.cells column other :=
  congrArg column.get slots_setPrev

@[simp] theorem cells_setNext {link : PageId} :
    (table.setNext n link).cells column other = table.cells column other :=
  congrArg column.get slots_setNext

theorem cells_setCells_of_apart {β : Type} {second : Column K D β}
    (apart : ∀ slots values, second.get (column.put slots values) = second.get slots)
    (values : Int → α) : (table.setCells column n values).cells second other =
      table.cells second other :=
  field_setNode (fun node => second.get node.slots) (apart _ _)

@[simp] theorem keys_setData (values : Int → D) : (table.setCells (dataColumn K D) n values).cells
    (keyColumn K D) other = table.cells (keyColumn K D) other :=
  cells_setCells_of_apart (fun _ _ => rfl) values

@[simp] theorem keys_setChilds (values : Int → PageId) :
    (table.setCells (childColumn K D) n values).cells (keyColumn K D) other =
      table.cells (keyColumn K D) other :=
  cells_setCells_of_apart (fun _ _ => rfl) values

@[simp] theorem data_setKeys (values : Int → K) : (table.setCells (keyColumn K D) n values).cells
    (dataColumn K D) other = table.cells (dataColumn K D) other :=
  cells_setCells_of_apart (fun _ _ => rfl) values

@[simp] theorem childs_setKeys (values : Int → K) : (table.setCells (keyColumn K D) n values).cells
    (childColumn K D) other = table.cells (childColumn K D) other :=
  cells_setCells_of_apart (fun _ _ => rfl) values

@[simp] theorem setCells_setCells (first second : Int → α) :
    (table.setCells column n first).setCells column n second = table.setCells column n second := by
  simp only [setCells, nodeAt_setNode_self, setNode_setNode, column.put_put]

@[simp] theorem setCells_cells : table.setCells column n (table.cells column n) = table := by
  simp only [setCells, cells, column.put_get]
  exact setNode_nodeAt

/-- Nothing but the slots of one node, and how many of them are in use, differs. -/
def Fills (n : PageId) (before after : Table (Slots K D)) : Prop :=
  ∃ slots slotuse, after = before.setNode n { before.nodeAt n with slots, slotuse }

namespace Fills

variable {middle after : Table (Slots K D)}

theorem refl (n : PageId) (table : Table (Slots K D)) : Fills n table table :=
  ⟨_, _, setNode_nodeAt.symm⟩

theorem trans (first : Fills n table middle) (second : Fills n middle after) :
    Fills n table after := by
  obtain ⟨_, _, rfl⟩ := first
  obtain ⟨slots, slotuse, rfl⟩ := second
  refine ⟨slots, slotuse, ?_⟩
  rw [setNode_setNode, nodeAt_setNode_self]

theorem setCells (fills : Fills n table after) (column : Column K D α) (values : Int → α) :
    Fills n table (after.setCells column n values) :=
  fills.trans ⟨_, _, rfl⟩

theorem setUsed (fills : Fills n table after) (used : Nat) :
    Fills n table (after.setUsed n used) :=
  fills.trans ⟨_, used, rfl⟩

theorem allocated (fills : Fills n table after) :
    after.store.Allocated other ↔ table.store.Allocated other := by
  obtain ⟨_, _, rfl⟩ := fills
  exact Iff.rfl

theorem nodeAt_of_ne (fills : Fills n table after) (apart : other ≠ n) :
    after.nodeAt other = table.nodeAt other := by
  obtain ⟨_, _, rfl⟩ := fills
  exact nodeAt_setNode_of_ne apart

end Fills

end Table

/-! ## Contents -/

namespace Table

variable (table : Table (Slots K D)) (n : PageId)

/-- The pair in a slot of a leaf. -/
def pairAt (slot : Int) : K × D :=
  (table.cells (keyColumn K D) n slot, table.cells (dataColumn K D) n slot)

def pairs : List (K × D) := firstCells (table.pairAt n) (table.nodeAt n).slotuse

def keys : List K := firstCells (table.cells (keyColumn K D) n) (table.nodeAt n).slotuse

def childs : List PageId := firstCells (table.cells (childColumn K D) n) ((table.nodeAt n).slotuse + 1)

end Table

/-! ## Rules -/

section Rules

variable [LinearOrder K] {table : Table (Slots K D)} {n : PageId} {slot : Int}

@[simp] theorem runs_getKey (post : K → Table (Slots K D) → Prop) :
    Runs (getKey (arrays K D) n slot) table post ↔ table.store.Allocated n ∧
      post (table.cells (keyColumn K D) n slot) table := by
  simp [getKey, arrays, orFault, Table.cells, keyColumn]

@[simp] theorem runs_getData (post : D → Table (Slots K D) → Prop) :
    Runs (getData (arrays K D) n slot) table post ↔ table.store.Allocated n ∧
      post (table.cells (dataColumn K D) n slot) table := by
  simp [getData, arrays, orFault, Table.cells, dataColumn]

@[simp] theorem runs_getChild (post : PageId → Table (Slots K D) → Prop) :
    Runs (getChild (arrays K D) n slot) table post ↔ table.store.Allocated n ∧
      post (table.cells (childColumn K D) n slot) table := by
  simp [getChild, arrays, orFault, Table.cells, childColumn]

@[simp] theorem runs_setKey (key : K) (post : Unit → Table (Slots K D) → Prop) :
    Runs (setKey (arrays K D) n slot key) table post ↔ table.store.Allocated n ∧
      post () (table.setCells (keyColumn K D) n
        (Function.update (table.cells (keyColumn K D) n) slot key)) := by
  simp [setKey, arrays, orFault, Table.setCells, Table.cells, keyColumn]

@[simp] theorem runs_setData (data : D) (post : Unit → Table (Slots K D) → Prop) :
    Runs (setData (arrays K D) n slot data) table post ↔ table.store.Allocated n ∧
      post () (table.setCells (dataColumn K D) n
        (Function.update (table.cells (dataColumn K D) n) slot data)) := by
  simp [setData, arrays, orFault, Table.setCells, Table.cells, dataColumn]

@[simp] theorem runs_setChild (child : PageId) (post : Unit → Table (Slots K D) → Prop) :
    Runs (setChild (arrays K D) n slot child) table post ↔ table.store.Allocated n ∧
      post () (table.setCells (childColumn K D) n
        (Function.update (table.cells (childColumn K D) n) slot child)) := by
  simp [setChild, arrays, orFault, Table.setCells, Table.cells, childColumn]

end Rules

/-- The program reads a cell of one node and writes it to a cell of another one, or of
the same. -/
def Moves (column : Column K D α) (nodeFrom nodeTo : PageId)
    (move : (target source : Int) → M (Slots K D) Unit) : Prop :=
  ∀ (target source : Int) (table : Table (Slots K D)) (post : Unit → Table (Slots K D) → Prop),
    Runs (move target source) table post ↔ table.store.Allocated nodeFrom ∧
      table.store.Allocated nodeTo ∧ post () (table.setCells column nodeTo
        (Function.update (table.cells column nodeTo) target (table.cells column nodeFrom source)))

section Moves

variable [LinearOrder K] (nodeFrom nodeTo : PageId)

theorem moves_moveKey : Moves (keyColumn K D) nodeFrom nodeTo
    (moveKey (arrays K D) nodeFrom nodeTo) := by
  intro target source table post
  simp [moveKey]

theorem moves_moveData : Moves (dataColumn K D) nodeFrom nodeTo
    (moveData (arrays K D) nodeFrom nodeTo) := by
  intro target source table post
  simp [moveData]

theorem moves_moveChild : Moves (childColumn K D) nodeFrom nodeTo
    (moveChild (arrays K D) nodeFrom nodeTo) := by
  intro target source table post
  simp [moveChild]

end Moves

section Loops

variable {column : Column K D α} {nodeFrom nodeTo : PageId} {l r dest : Int} {count : Nat}
  {move : (target source : Int) → M (Slots K D) Unit} {table : Table (Slots K D)}
  {post : Unit → Table (Slots K D) → Prop}

/-- A forward loop moves the cells that were there before it, unless it moves cells up
in one node by less than their number. -/
theorem copyLoop_runs (moves : Moves column nodeFrom nodeTo move)
    (allocatedFrom : table.store.Allocated nodeFrom) (allocatedTo : table.store.Allocated nodeTo)
    (direction : nodeFrom ≠ nodeTo ∨ dest ≤ l ∨ l + count ≤ dest)
    (next : post () (table.setCells column nodeTo (splice (table.cells column nodeFrom)
      (table.cells column nodeTo) l count dest))) :
    Runs (copyLoop move count l dest) table post := by
  induction count generalizing table l dest with
  | zero =>
      rw [splice_zero, Table.setCells_cells] at next
      exact (runs_pure ..).mpr next
  | succ count ih =>
      rw [copyLoop, runs_bind, moves]
      refine ⟨allocatedFrom, allocatedTo, ih allocatedFrom allocatedTo ?_ ?_⟩
      · exact direction.imp_right fun _ => by omega
      · rw [Table.setCells_setCells, Table.cells_setCells_self]
        by_cases same : nodeFrom = nodeTo
        · subst same
          have inPlace := direction.resolve_left fun apart => apart rfl
          rw [Table.cells_setCells_self, splice_update_source _ (by omega), splice_succ]
          exact next
        · rw [Table.cells_setCells_of_ne same, splice_succ]
          exact next

/-- A backward loop does so unless it moves cells down. -/
theorem copyBackwardsLoop_runs (moves : Moves column nodeFrom nodeTo move)
    (allocatedFrom : table.store.Allocated nodeFrom) (allocatedTo : table.store.Allocated nodeTo)
    (direction : nodeFrom ≠ nodeTo ∨ l ≤ dest - (r - l))
    (next : post () (table.setCells column nodeTo (splice (table.cells column nodeFrom)
      (table.cells column nodeTo) l count (dest - (r - l))))) :
    Runs (copyBackwardsLoop move l r dest count) table post := by
  induction count generalizing table with
  | zero =>
      rw [splice_zero, Table.setCells_cells] at next
      exact (runs_pure ..).mpr next
  | succ count ih =>
      have place : dest - (r - (l + count)) = dest - (r - l) + count := by omega
      rw [copyBackwardsLoop, runs_bind, moves, place]
      refine ⟨allocatedFrom, allocatedTo, ih allocatedFrom allocatedTo ?_⟩
      rw [Table.setCells_setCells, Table.cells_setCells_self]
      by_cases same : nodeFrom = nodeTo
      · subst same
        have upward := direction.resolve_left fun apart => apart rfl
        rw [Table.cells_setCells_self, splice_update_source _ (by omega), splice_last]
        exact next
      · rw [Table.cells_setCells_of_ne same, splice_last]
        exact next

end Loops

end PersistentBTree.Tables
