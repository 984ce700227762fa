import PersistentBTree.Tables.InsertProperties
import PersistentBTree.Tables.LookupProperties

/-! How many rows a table has. No node is found full, so that the first page stays the only
one, a leaf that gets one row with every insertion. How the slots of a page work does not
matter. -/

set_option autoImplicit false

namespace PersistentBTree.Tables

open Imperative Pages

variable {K D S : Type}

/-! ## The pages of a table with some rows -/

/-- There is no page. -/
structure NoPage (store : Store (Node S)) : Prop where
  sound : store.Sound
  deletePages : store.deletePages = ∅
  nPages : store.header.nPages = 0
  rootPage : store.header.rootPage = -1
  unset : ∀ n, (store.file n).content.nSlots = 0

/-- Page 0 is the only one, a leaf with `used` slots in use. -/
structure OneLeaf (used : Nat) (store : Store (Node S)) : Prop where
  sound : store.Sound
  deletePages : store.deletePages = ∅
  nPages : store.header.nPages = 1
  rootPage : store.header.rootPage = 0
  headLeaf : store.header.headLeaf = 0
  tailLeaf : store.header.tailLeaf = 0
  unset : ∀ n, (store.file n).content.nSlots = 0
  isLeaf : (store.file 0).content.level = 0
  slotuse : (store.file 0).content.slotuse = used

def HoldsRows (store : Store (Node S)) : (rows : Nat) → Prop
  | 0 => NoPage store
  | rows + 1 => OneLeaf (rows + 1) store

theorem holdsRows_created (zeroes : S) : HoldsRows (Store.created (Node.zero zeroes)) 0 where
  sound := .created _
  deletePages := rfl
  nPages := rfl
  rootPage := rfl
  unset _ := rfl

/-- A table with this leaf open. -/
structure Filled (capacity used : Nat) (table : Table S) : Prop where
  leaf : OneLeaf used table.store
  root : table.mRootId = 0
  capacity : table.nodeslotmax = capacity

namespace Filled

variable {capacity used : Nat} {table : Table S}

theorem inUse (filled : Filled capacity used table) : table.store.Allocated 0 := by
  refine ⟨le_refl 0, ?_, ?_⟩
  · rw [filled.leaf.nPages]
    exact Int.one_pos
  · rw [filled.leaf.deletePages]
    exact Finset.notMem_empty 0

/-- Of the leaf only the slots and their number are written. -/
theorem write (filled : Filled capacity used table) (slotuse : Nat) (slots : S) :
    Filled capacity slotuse (table.setNode 0 { table.nodeAt 0 with slotuse, slots }) where
  leaf := {
    sound := Table.sound_setNode filled.leaf.sound
    deletePages := filled.leaf.deletePages
    nPages := filled.leaf.nPages
    rootPage := filled.leaf.rootPage
    headLeaf := filled.leaf.headLeaf
    tailLeaf := filled.leaf.tailLeaf
    unset := fun n => by
      have same := @Table.field_setNode _ table 0 n
        { table.nodeAt 0 with slotuse, slots } _ Node.nSlots rfl
      exact same.trans (filled.leaf.unset n)
    isLeaf := (congrArg Node.level Table.nodeAt_setNode_self).trans filled.leaf.isLeaf
    slotuse := congrArg Node.slotuse Table.nodeAt_setNode_self }
  root := filled.root
  capacity := filled.capacity

theorem writeSlots (filled : Filled capacity used table) (slots : S) :
    Filled capacity used (table.setNode 0 { table.nodeAt 0 with slots }) := by
  have same : (table.nodeAt 0).slotuse = used := filled.leaf.slotuse
  subst same
  exact filled.write (table.nodeAt 0).slotuse slots

/-- A program that begins with the node of the leaf. -/
theorem getNode_bind {α : Type} {next : Node S → M S α} {post : α → Table S → Prop}
    (filled : Filled capacity used table) (rest : Ensures (next (table.nodeAt 0)) table post) :
    Ensures (getNode 0 >>= next) table post := by
  have got : Ensures (getNode 0) table fun node after => node = table.nodeAt 0 ∧ after = table :=
    .of_runs ((runs_getNode ..).mpr ⟨filled.inUse, rfl, rfl⟩)
  refine got.bind ?_
  intro node middle reached
  obtain ⟨isNode, same⟩ := reached
  rw [isNode, same]
  exact rest

end Filled

/-! ## Insertion -/

section Insertion

variable {records : Records K D S} {capacity used : Nat} {table : Table S}

private theorem setKey_filled (filled : Filled capacity used table) (slot : Int) (key : K) :
    Ensures (setKey records 0 slot key) table fun _ after => Filled capacity used after := by
  refine filled.getNode_bind ?_
  apply Ensures.orFault_bind
  intro slots _
  apply Ensures.of_runs
  rw [runs_setNode]
  exact filled.writeSlots slots

private theorem setData_filled (filled : Filled capacity used table) (slot : Int) (value : D) :
    Ensures (setData records 0 slot value) table fun _ after => Filled capacity used after := by
  refine filled.getNode_bind ?_
  apply Ensures.orFault_bind
  intro slots _
  apply Ensures.of_runs
  rw [runs_setNode]
  exact filled.writeSlots slots

private theorem copyLoop_filled {move : (target source : Int) → M S Unit}
    (moves : ∀ table, Filled capacity used table → ∀ target source,
      Ensures (move target source) table fun _ after => Filled capacity used after)
    (filled : Filled capacity used table) (count : Nat) (l dest : Int) :
    Ensures (copyLoop move count l dest) table fun _ after => Filled capacity used after := by
  induction count generalizing table l dest with
  | zero => exact .pure filled
  | succ count ih => exact (moves table filled dest l).bind fun _ _ moved => ih moved (l + 1) (dest + 1)

private theorem moveKey_filled (table : Table S) (filled : Filled capacity used table)
    (target source : Int) :
    Ensures (moveKey records 0 0 target source) table fun _ after => Filled capacity used after := by
  refine (readsOnly_getKey 0 source table).bind ?_
  intro key middle same
  rw [same]
  exact setKey_filled filled target key

private theorem moveData_filled (table : Table S) (filled : Filled capacity used table)
    (target source : Int) :
    Ensures (moveData records 0 0 target source) table fun _ after => Filled capacity used after := by
  have reads : ReadsOnly (getData records 0 source) :=
    (readsOnly_getNode 0).bind fun _ => .orFault _ _
  refine (reads table).bind ?_
  intro value middle same
  rw [same]
  exact setData_filled filled target value

private theorem insertPair_filled (filled : Filled capacity used table) (slot : Nat) (key : K)
    (value : D) : Ensures (insertPair records 0 slot key value) table fun _ after =>
      Filled capacity (used + 1) after := by
  have counted : Ensures (slotuse 0) table fun count after => count = used ∧ after = table :=
    .of_runs ((runs_slotuse ..).mpr ⟨filled.inUse, filled.leaf.slotuse, rfl⟩)
  refine counted.bind ?_
  intro count table₁ reached
  obtain ⟨isUsed, same⟩ := reached
  rw [isUsed, same]
  refine (copyLoop_filled moveKey_filled filled _ _ _).bind ?_
  intro _ table₂ filled₂
  refine (copyLoop_filled moveData_filled filled₂ _ _ _).bind ?_
  intro _ table₃ filled₃
  refine (setKey_filled filled₃ slot key).bind ?_
  intro _ table₄ filled₄
  refine (setData_filled filled₄ slot value).bind ?_
  intro _ table₅ filled₅
  apply Ensures.of_runs
  rw [runs_setSlotuse]
  exact ⟨filled₅.inUse, filled₅.write (used + 1) (table₅.nodeAt 0).slots⟩

private theorem insertDescend_filled (filled : Filled capacity used table) (some_ : capacity ≠ 0)
    (key : K) (value : D) :
    Ensures (insertDescend records ((table.nodeAt 0).level + 1) 0 key value) table
      fun inserted after => inserted.split = none ∧ Filled capacity (used + 1) after := by
  have isLeaf : Ensures (isLeaf 0) table fun leaf after => leaf = true ∧ after = table :=
    .of_runs ((runs_isLeaf ..).mpr ⟨filled.inUse, beq_iff_eq.mpr filled.leaf.isLeaf, rfl⟩)
  have room : Ensures (isFull 0) table fun full after => full = false ∧ after = table := by
    apply Ensures.of_runs
    rw [runs_isFull, filled.capacity]
    have notFull : (table.nodeAt 0).nSlots ≠ capacity := by
      rw [Table.nodeAt, filled.leaf.unset]
      exact some_.symm
    exact ⟨filled.inUse, beq_eq_false_iff_ne.mpr notFull, rfl⟩
  rw [insertDescend]
  refine isLeaf.bind ?_
  intro leaf table₁ reached
  obtain ⟨yes, same⟩ := reached
  rw [yes, same, if_pos rfl]
  refine (readsOnly_findLower 0 key table).bind ?_
  intro slot table₂ same
  rw [same]
  refine room.bind ?_
  intro full table₃ reached
  obtain ⟨no, same⟩ := reached
  rw [no, same, if_neg Bool.false_ne_true]
  exact (insertPair_filled filled slot key value).bind fun _ _ inserted => .pure ⟨rfl, inserted⟩

/-- A table without pages gets a leaf, whose id is written to the header. -/
private theorem insertRoot_filled {rows : Nat} (holds : HoldsRows table.store rows)
    (root : table.mRootId = table.store.header.rootPage) :
    Runs insertRoot table fun _ after => Filled table.nodeslotmax rows after := by
  unfold insertRoot
  rw [runs_bind, runs_get]
  cases rows with
  | zero =>
      have noPage : NoPage table.store := holds
      rw [if_pos (root.trans noPage.rootPage), runs_bind]
      apply allocateLeaf_runs noPage.sound
      have nothing : table.store.lowest = none := Store.lowest_eq_none.mpr noPage.deletePages
      have allocated : table.store.allocate = (table.store.header.nPages, table.store.append) := by
        rw [Store.allocate, nothing]
      have isFirst : table.fresh = 0 := by
        rw [Table.fresh, allocated]
        exact noPage.nPages
      have sound := Table.sound_withLeaf noPage.sound
      have inUse := (Table.allocated_withLeaf noPage.sound).mpr (.inr rfl)
      simp only [runs_bind, runs_pageId, runs_modify]
      rw [sound.id_of_allocated inUse, isFirst]
      have deletePages : table.withLeaf.store.deletePages = ∅ := by
        have same : table.withLeaf.store.deletePages = table.store.allocate.2.deletePages := rfl
        rw [same, allocated]
        exact noPage.deletePages
      have nPages : table.withLeaf.store.header.nPages = 1 := by
        have same : table.withLeaf.store.header = table.store.allocate.2.header := rfl
        rw [same, allocated]
        simp [Store.append, Store.grown, Pages.Header.addPage, noPage.nPages]
      exact {
        leaf := {
          sound := ⟨sound.deleted, sound.identified, sound.counted, sound.sized, sound.resized⟩
          deletePages := deletePages
          nPages := nPages
          rootPage := rfl
          headLeaf := rfl
          tailLeaf := rfl
          unset := fun n => Table.nSlots_withLeaf.trans (noPage.unset n)
          isLeaf := isFirst ▸ Table.level_withLeaf_fresh
          slotuse := isFirst ▸ Table.slotuse_withLeaf_fresh }
        root := rfl
        capacity := rfl }
  | succ rows =>
      have leaf : OneLeaf (rows + 1) table.store := holds
      have isRoot := root.trans leaf.rootPage
      have present : table.mRootId ≠ -1 := by
        rw [isRoot]
        decide
      rw [if_neg present, runs_pure]
      exact ⟨leaf, isRoot, rfl⟩

/-- An insertion that returns makes one row more, in a table that was just opened. -/
theorem insert_holdsRows {rows : Nat} (holds : HoldsRows table.store rows)
    (root : table.mRootId = table.store.header.rootPage) (some_ : table.nodeslotmax ≠ 0) (key : K)
    (value : D) :
    Ensures (insert records key value) table fun _ after => HoldsRows after.store (rows + 1) := by
  unfold insert
  refine (Ensures.of_runs (insertRoot_filled holds root)).bind ?_
  intro _ middle filled
  apply Ensures.get_bind
  rw [filled.root]
  refine filled.getNode_bind ?_
  refine (insertDescend_filled filled some_ key value).bind ?_
  intro inserted after reached
  obtain ⟨isNone, filled⟩ := reached
  rw [isNone, growRoot, pure_bind]
  apply Ensures.modify_bind
  apply Ensures.pure
  split
  · exact filled.leaf
  · exact filled.leaf

end Insertion

end PersistentBTree.Tables
