import PersistentBTree.Tables.Arrays
import PersistentBTree.Tables.Insert

/-! What insertion does to the nodes of a table whose slots work. -/

set_option autoImplicit false

namespace PersistentBTree.Tables

open Imperative Pages

variable {K D S : Type}

/-! ## New pages -/

namespace Table

variable {table : Table S} {n : PageId}

/-- The page that `InsertPage` takes. -/
def fresh (table : Table S) : PageId := table.store.allocate.1

/-- The table with that page in use. -/
def grown (table : Table S) : Table S := { table with store := table.store.allocate.2 }

@[simp] theorem nodeAt_grown : table.grown.nodeAt n = table.nodeAt n :=
  Store.content_allocate

theorem allocated_grown (sound : table.store.Sound) :
    table.grown.store.Allocated n ↔ table.store.Allocated n ∨ n = table.fresh :=
  Store.allocated_allocate sound

/-- What `initialize` makes of that page. -/
def newLeaf (table : Table S) : Node S :=
  { table.nodeAt table.fresh with level := 0, slotuse := 0, prevleaf := -1, nextleaf := -1 }

/-- The table with a new leaf without slots. -/
def withLeaf (table : Table S) : Table S :=
  { table.grown.setNode table.fresh table.newLeaf with
    mStats.leaves := table.mStats.leaves + 1 }

end Table

@[simp] theorem runs_insertPage {table : Table S} (post : PageId → Table S → Prop) :
    Runs insertPage table post ↔ post table.fresh table.grown := by
  simp [insertPage, Table.fresh, Table.grown]

theorem allocateLeaf_runs {table : Table S} (sound : table.store.Sound)
    {post : PageId → Table S → Prop} (next : post table.fresh table.withLeaf) :
    Runs allocateLeaf table post := by
  have inUse : table.grown.store.Allocated table.fresh :=
    (Table.allocated_grown sound).mpr (.inr rfl)
  unfold allocateLeaf initializeLeaf initializeNode
  simp only [runs_bind, runs_insertPage, runs_pure, runs_getNode, runs_setNode, runs_setPrevleaf,
    runs_setNextleaf, runs_modify, Table.nodeAt_setNode_self, Table.setNode_setNode,
    Table.allocated_setNode, Table.nodeAt_grown, Table.setPrev, Table.setNext]
  exact ⟨inUse, inUse, inUse, next⟩

namespace Table

variable {table before middle after : Table S} {n other : PageId}

theorem allocated_withLeaf (sound : table.store.Sound) :
    table.withLeaf.store.Allocated n ↔ table.store.Allocated n ∨ n = table.fresh :=
  allocated_grown sound

theorem sound_withLeaf (sound : table.store.Sound) : table.withLeaf.store.Sound :=
  @sound_setNode _ table.grown _ _ sound.allocate

@[simp] theorem slots_withLeaf : (table.withLeaf.nodeAt n).slots = (table.nodeAt n).slots :=
  (@field_setNode _ table.grown _ n table.newLeaf _ Node.slots (by simp [newLeaf])).trans (by simp)

theorem nSlots_withLeaf : (table.withLeaf.nodeAt n).nSlots = (table.nodeAt n).nSlots :=
  (@field_setNode _ table.grown _ n table.newLeaf _ Node.nSlots (by simp [newLeaf])).trans (by simp)

theorem level_withLeaf_fresh : (table.withLeaf.nodeAt table.fresh).level = 0 :=
  congrArg Node.level nodeAt_setNode_self

theorem slotuse_withLeaf_fresh : (table.withLeaf.nodeAt table.fresh).slotuse = 0 :=
  congrArg Node.slotuse nodeAt_setNode_self

theorem nodeAt_withLeaf_of_ne (apart : n ≠ table.fresh) :
    table.withLeaf.nodeAt n = table.nodeAt n :=
  (@nodeAt_setNode_of_ne _ table.grown _ _ _ apart).trans nodeAt_grown

/-- Nothing but the links of the leaves differs. -/
structure Relinks (before after : Table S) : Prop where
  slots : ∀ n, (after.nodeAt n).slots = (before.nodeAt n).slots
  slotuse : ∀ n, (after.nodeAt n).slotuse = (before.nodeAt n).slotuse
  allocated : ∀ n, after.store.Allocated n ↔ before.store.Allocated n
  ids : ∀ n, (after.store.file n).id = (before.store.file n).id

theorem Relinks.trans (first : Relinks before middle) (second : Relinks middle after) :
    Relinks before after where
  slots n := (second.slots n).trans (first.slots n)
  slotuse n := (second.slotuse n).trans (first.slotuse n)
  allocated n := (second.allocated n).trans (first.allocated n)
  ids n := (second.ids n).trans (first.ids n)

theorem relinks_setPrev (table : Table S) (n link : PageId) : Relinks table (table.setPrev n link) :=
  ⟨fun _ => slots_setPrev, fun _ => slotuse_setPrev, fun _ => allocated_setPrev, fun _ => id_setPrev⟩

theorem relinks_setNext (table : Table S) (n link : PageId) : Relinks table (table.setNext n link) :=
  ⟨fun _ => slots_setNext, fun _ => slotuse_setNext, fun _ => allocated_setNext, fun _ => id_setNext⟩

end Table

/-- The leaf is put before the next one, if there is one. -/
theorem linkBehind_runs {table : Table S} {nextleaf id : PageId}
    (linked : nextleaf = -1 ∨ table.store.Allocated nextleaf) :
    Runs (linkBehind nextleaf id) table fun _ after => table.Relinks after := by
  unfold linkBehind
  rw [runs_ite]
  split
  next =>
    rw [runs_modify]
    exact ⟨fun _ => rfl, fun _ => rfl, fun _ => Iff.rfl, fun _ => rfl⟩
  next present =>
    rw [runs_setPrevleaf]
    exact ⟨linked.resolve_left present, table.relinks_setPrev nextleaf id⟩

section Arrays

variable [LinearOrder K] {table : Table (Slots K D)} {n leaf inner : PageId} {key : K} {value : D}

/-! ## Searching -/

private theorem searchLoop_runs (inUse : table.store.Allocated n) (isBelow : K → Bool)
    {fuel lo hi : Nat} (inside : lo ≤ hi) (enough : hi ≤ lo + fuel) :
    Runs (searchLoop (arrays K D) isBelow n fuel lo hi) table fun slot after =>
      after = table ∧ slot ≤ hi := by
  induction fuel generalizing lo hi with
  | zero =>
      rw [searchLoop, if_neg (by omega), runs_pure]
      exact ⟨rfl, inside⟩
  | succ fuel ih =>
      unfold searchLoop
      split
      next below =>
        simp only [runs_bind, runs_getKey, runs_ite]
        refine ⟨inUse, ?_⟩
        split
        · refine (ih (by omega) (by omega)).mono ?_
          intro slot after found
          exact ⟨found.1, by omega⟩
        · exact ih (by omega) (by omega)
      next =>
        rw [runs_pure]
        exact ⟨rfl, inside⟩

/-- The search ends at a slot that is in use or the one behind these. -/
theorem findLower_runs (inUse : table.store.Allocated n) :
    Runs (findLower (arrays K D) n key) table fun slot after =>
      after = table ∧ slot ≤ (table.nodeAt n).slotuse := by
  unfold findLower
  simp only [runs_bind, runs_slotuse, runs_ite, runs_pure]
  refine ⟨inUse, ?_⟩
  split
  · exact ⟨trivial, Nat.zero_le _⟩
  · exact searchLoop_runs inUse _ (Nat.zero_le _) (by omega)

/-! ## Insertion into one node -/

/-- A pair was written to a slot. The pairs from there on were copied to slots behind the
first unused one. -/
structure PairWritten (before after : Table (Slots K D)) (leaf : PageId) (slot : Nat) (key : K)
    (value : D) : Prop where
  fills : before.Fills leaf after
  slotuse : (after.nodeAt leaf).slotuse = (before.nodeAt leaf).slotuse + 1
  keys : ∀ i : Int, i ≤ (before.nodeAt leaf).slotuse → after.cells (keyColumn K D) leaf i =
    Function.update (before.cells (keyColumn K D) leaf) slot key i
  data : ∀ i : Int, i ≤ (before.nodeAt leaf).slotuse → after.cells (dataColumn K D) leaf i =
    Function.update (before.cells (dataColumn K D) leaf) slot value i

theorem insertPair_runs (inUse : table.store.Allocated leaf) {slot : Nat}
    (inside : slot ≤ (table.nodeAt leaf).slotuse) :
    Runs (insertPair (arrays K D) leaf slot key value) table fun _ after =>
      PairWritten table after leaf slot key value := by
  unfold insertPair copyLeafKeys copyLeafData
  simp only [runs_bind, runs_slotuse]
  refine ⟨inUse, copyLoop_runs (moves_moveKey leaf leaf) inUse inUse (.inr (.inr (by omega))) ?_⟩
  refine copyLoop_runs (moves_moveData leaf leaf) inUse inUse (.inr (.inr (by omega))) ?_
  simp only [runs_setKey, runs_setData, runs_setSlotuse]
  refine ⟨inUse, inUse, inUse, ?_, by simp, ?_, ?_⟩
  · exact (((((Table.Fills.refl leaf table).setCells _ _).setCells _ _).setCells _ _).setCells
      _ _).setUsed _
  · intro i used
    simp only [Table.cells_setUsed, Table.keys_setData, Table.cells_setCells_self]
    exact update_splice_below (by omega)
  · intro i used
    simp only [Table.cells_setUsed, Table.data_setKeys, Table.cells_setCells_self]
    exact update_splice_below (by omega)

/-- The key, which does not lie in the node that is about to be filled. -/
def KeyType.Holds (newkey : KeyType K) (table : Table (Slots K D)) (inner : PageId) (key : K) :
    Prop :=
  match newkey with
  | .given value => value = key
  | .stored n slot =>
      n ≠ inner ∧ table.store.Allocated n ∧ table.cells (keyColumn K D) n slot = key

private theorem read_runs {newkey : KeyType K} {after : Table (Slots K D)}
    {post : K → Table (Slots K D) → Prop} (holds : newkey.Holds table inner key)
    (fills : table.Fills inner after) (next : post key after) :
    Runs (newkey.read (arrays K D)) after post := by
  cases newkey with
  | given value =>
      cases holds
      exact (runs_pure ..).mpr next
  | stored n slot =>
      obtain ⟨apart, inUse, isKey⟩ := holds
      rw [KeyType.read, runs_getKey, Table.cells, fills.nodeAt_of_ne apart]
      rw [Table.cells] at isKey
      rw [isKey]
      exact ⟨fills.allocated.mpr inUse, next⟩

/-- The same with a key and a child. -/
structure ChildWritten (before after : Table (Slots K D)) (inner : PageId) (slot : Nat) (key : K)
    (child : PageId) : Prop where
  fills : before.Fills inner after
  slotuse : (after.nodeAt inner).slotuse = (before.nodeAt inner).slotuse + 1
  keys : ∀ i : Int, i ≤ (before.nodeAt inner).slotuse → after.cells (keyColumn K D) inner i =
    Function.update (before.cells (keyColumn K D) inner) slot key i
  childs : ∀ i : Int, i ≤ (before.nodeAt inner).slotuse + 1 →
    after.cells (childColumn K D) inner i =
      Function.update (before.cells (childColumn K D) inner) (slot + 1) child i

theorem insertChild_runs (inUse : table.store.Allocated inner) {slot : Nat}
    (inside : slot ≤ (table.nodeAt inner).slotuse) {newkey : KeyType K}
    (holds : newkey.Holds table inner key) (newchild : PageId) :
    Runs (insertChild (arrays K D) inner slot newkey newchild) table fun _ after =>
      ChildWritten table after inner slot key (table.store.file newchild).id := by
  unfold insertChild copyInnerKeys copyInnerChilds
  simp only [runs_bind, runs_slotuse]
  refine ⟨inUse, copyLoop_runs (moves_moveKey inner inner) inUse inUse (.inr (.inr (by omega))) ?_⟩
  refine copyLoop_runs (moves_moveChild inner inner) inUse inUse (.inr (.inr (by omega))) ?_
  refine read_runs holds (((Table.Fills.refl inner table).setCells _ _).setCells _ _) ?_
  simp only [runs_setKey, runs_setChild, runs_setSlotuse, runs_pageId]
  refine ⟨inUse, inUse, inUse, ?_, by simp, ?_, ?_⟩
  · exact (((((Table.Fills.refl inner table).setCells _ _).setCells _ _).setCells _ _).setCells
      _ _).setUsed _
  · intro i used
    simp only [Table.cells_setUsed, Table.keys_setChilds, Table.cells_setCells_self]
    exact update_splice_below (by omega)
  · intro i used
    simp only [Table.cells_setUsed, Table.childs_setKeys, Table.cells_setCells_self,
      Table.id_setCells]
    exact update_splice_below (by omega)

omit [LinearOrder K] in
@[simp] theorem Table.cells_withLeaf {α : Type} {column : Column K D α} :
    table.withLeaf.cells column n = table.cells column n :=
  congrArg column.get Table.slots_withLeaf

omit [LinearOrder K] in
theorem Table.Relinks.cells {α : Type} {after : Table (Slots K D)} (relinks : table.Relinks after)
    (column : Column K D α) : after.cells column n = table.cells column n :=
  congrArg column.get (relinks.slots n)

/-- A leaf was split: the keys of the upper half were copied to a new leaf, but not the
data. -/
structure LeafSplit (before after : Table (Slots K D)) (leaf : PageId) : Prop where
  apart : leaf ≠ before.fresh
  allocated : ∀ n, after.store.Allocated n ↔ before.store.Allocated n ∨ n = before.fresh
  slotuse : (after.nodeAt leaf).slotuse = (before.nodeAt leaf).slotuse / 2
  slots : (after.nodeAt leaf).slots = (before.nodeAt leaf).slots
  freshUse : (after.nodeAt before.fresh).slotuse =
    (before.nodeAt leaf).slotuse - (before.nodeAt leaf).slotuse / 2
  freshKeys : after.cells (keyColumn K D) before.fresh =
    splice (before.cells (keyColumn K D) leaf) (before.cells (keyColumn K D) before.fresh)
      ((before.nodeAt leaf).slotuse / 2 : Nat)
      ((before.nodeAt leaf).slotuse - (before.nodeAt leaf).slotuse / 2) 0
  freshData : after.cells (dataColumn K D) before.fresh =
    before.cells (dataColumn K D) before.fresh

theorem splitLeafNode_runs (sound : table.store.Sound) (inUse : table.store.Allocated leaf)
    (linked : (table.nodeAt leaf).nextleaf = -1 ∨
      table.store.Allocated (table.nodeAt leaf).nextleaf) :
    Runs (splitLeafNode (arrays K D) leaf) table fun split after =>
      split.2 = table.fresh ∧ LeafSplit table after leaf := by
  have apart : leaf ≠ table.fresh := by
    intro same
    rw [same] at inUse
    exact Store.fresh_allocate inUse
  have leafUse := (Table.allocated_withLeaf sound).mpr (.inl inUse)
  have freshUse := (Table.allocated_withLeaf sound).mpr (.inr rfl)
  unfold splitLeafNode copyLeafKeys
  simp only [runs_bind, runs_slotuse]
  refine ⟨inUse, allocateLeaf_runs sound ?_⟩
  simp only [runs_setSlotuse, runs_getNode, runs_pageId, runs_setNextleaf]
  refine ⟨freshUse, leafUse, freshUse, ?_⟩
  -- the links of the leaves do not matter for the slots
  have nextOf : ((table.withLeaf.setUsed table.fresh ((table.nodeAt leaf).slotuse -
      (table.nodeAt leaf).slotuse / 2)).nodeAt leaf).nextleaf = (table.nodeAt leaf).nextleaf := by
    rw [Table.setUsed, Table.nodeAt_setNode_of_ne apart, Table.nodeAt_withLeaf_of_ne apart]
  rw [nextOf]
  refine (linkBehind_runs ?_).mono ?_
  · exact linked.imp_right fun next => (Table.allocated_withLeaf sound).mpr (.inl next)
  intro _ middle linking
  have relinks := (Table.relinks_setNext _ _ _).trans linking
  have leafKept := (relinks.allocated leaf).mpr leafUse
  have freshKept := (relinks.allocated table.fresh).mpr freshUse
  refine copyLoop_runs (moves_moveKey leaf table.fresh) leafKept freshKept (.inl apart) ?_
  refine copyLoop_runs (moves_moveKey leaf table.fresh) leafKept freshKept (.inl apart) ?_
  simp only [runs_setPrevleaf, runs_pure]
  refine ⟨leafKept, leafKept, freshKept, trivial, apart, ?_, by simp, ?_, ?_, ?_, ?_⟩
  · intro n
    exact (relinks.allocated n).trans (Table.allocated_withLeaf sound)
  · simp only [Table.slots_setPrev, Table.slots_setNext, Table.slots_setUsed,
      Table.setCells_setCells, Table.slots_setCells_of_ne apart, relinks.slots,
      Table.slots_withLeaf]
  · simp only [Table.slotuse_setPrev, Table.slotuse_setNext,
      Table.slotuse_setUsed_of_ne apart.symm, Table.slotuse_setCells, relinks.slotuse,
      Table.slotuse_setUsed_self]
  · simp only [Table.cells_setPrev, Table.cells_setNext, Table.cells_setUsed,
      Table.setCells_setCells, Table.cells_setCells_self, Table.cells_setCells_of_ne apart,
      relinks.cells, Table.cells_withLeaf, splice_splice, Int.toNat_sub]
  · simp only [Table.cells_setPrev, Table.cells_setNext, Table.cells_setUsed,
      Table.data_setKeys, relinks.cells, Table.cells_withLeaf]

end Arrays

end PersistentBTree.Tables
