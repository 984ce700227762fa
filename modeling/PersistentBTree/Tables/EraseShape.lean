import PersistentBTree.Imperative.Preserves
import PersistentBTree.Tables.Erase
import PersistentBTree.Tables.LookupProperties

/-! What no part of an erasure changes: the levels and ids of the pages, the field that
nothing sets, and, but for the part that replaces the root, the root. -/

set_option autoImplicit false

namespace PersistentBTree.Tables.NullSafe

open Imperative Pages

variable {K D S : Type}

/-- The least number of slots, and the levels, ids and numbers of slots of the pages are
the same. -/
structure SameShape (before after : Table S) : Prop where
  minnodeslots : after.minnodeslots = before.minnodeslots
  level : ∀ n, (after.nodeAt n).level = (before.nodeAt n).level
  nSlots : ∀ n, (after.nodeAt n).nSlots = (before.nodeAt n).nSlots
  id : ∀ n, (after.store.file n).id = (before.store.file n).id

structure SameRoot (before after : Table S) : Prop extends SameShape before after where
  mRootId : after.mRootId = before.mRootId

theorem SameShape.trans {before middle after : Table S} (first : SameShape before middle)
    (second : SameShape middle after) : SameShape before after where
  minnodeslots := second.minnodeslots.trans first.minnodeslots
  level n := (second.level n).trans (first.level n)
  nSlots n := (second.nSlots n).trans (first.nSlots n)
  id n := (second.id n).trans (first.id n)

namespace SameRoot

theorem refl (table : Table S) : SameRoot table table :=
  ⟨⟨rfl, fun _ => rfl, fun _ => rfl, fun _ => rfl⟩, rfl⟩

theorem trans {before middle after : Table S} (first : SameRoot before middle)
    (second : SameRoot middle after) : SameRoot before after :=
  ⟨first.toSameShape.trans second.toSameShape, second.mRootId.trans first.mRootId⟩

theorem setNode {table : Table S} {n : PageId} {node : Node S}
    (level : node.level = (table.nodeAt n).level) (nSlots : node.nSlots = (table.nodeAt n).nSlots) :
    SameRoot table (table.setNode n node) where
  minnodeslots := rfl
  level _ := Table.field_setNode Node.level level
  nSlots _ := Table.field_setNode Node.nSlots nSlots
  id _ := Table.id_setNode
  mRootId := rfl

end SameRoot

instance isPreorder_sameRoot : IsPreorder (Table S) SameRoot where
  refl := SameRoot.refl
  trans _ _ _ := SameRoot.trans

/-! ## Freeing a page -/

theorem file_free (store : Store (Node S)) (n other : PageId) :
    ((store.free n).file other).content = (store.file other).content ∧
      ((store.free n).file other).id = (store.file other).id := by
  by_cases here : other = n
  · subst here
    unfold Store.free
    split
    · simp
    · exact ⟨rfl, rfl⟩
  · rw [Store.file_free_of_ne _ here]
    exact ⟨rfl, rfl⟩

/-- The table without a page. -/
def freed (table : Table S) (n : PageId) : Table S := { table with store := table.store.free n }

@[simp] theorem nodeAt_freed {table : Table S} {n other : PageId} :
    (freed table n).nodeAt other = table.nodeAt other :=
  (file_free table.store n other).1

theorem sameRoot_freed (table : Table S) (n : PageId) : SameRoot table (freed table n) where
  minnodeslots := rfl
  level _ := congrArg Node.level nodeAt_freed
  nSlots _ := congrArg Node.nSlots nodeAt_freed
  id other := (file_free table.store n other).2
  mRootId := rfl

/-! ## Accesses to nodes -/

section Accesses

variable {records : Records K D S}

/-- What comes after reading a node may rely on what was read. -/
theorem preserves_getNode_bind {α : Type} {n : PageId} {next : Node S → M S α}
    (second : ∀ table, Ensures (next (table.nodeAt n)) table fun _ after => SameRoot table after) :
    Preserves SameRoot (getNode n >>= next) := by
  intro table
  have read : Ensures (getNode n) table fun node after =>
      node = table.nodeAt n ∧ after = table := by
    by_cases inUse : table.store.Allocated n
    · exact .of_runs ((runs_getNode _).mpr ⟨inUse, rfl, rfl⟩)
    · exact .of_faults (faults_getNode inUse)
  refine read.bind fun node after reached => ?_
  rw [reached.1, reached.2]
  exact second table

theorem ensures_setNode {table : Table S} {n : PageId} {node : Node S}
    (level : node.level = (table.nodeAt n).level) (nSlots : node.nSlots = (table.nodeAt n).nSlots) :
    Ensures (setNode n node) table fun _ after => SameRoot table after :=
  .of_runs ((runs_setNode ..).mpr (.setNode level nSlots))

theorem preserves_setSlotuse (n : PageId) (slotuse : Nat) :
    Preserves SameRoot (setSlotuse n slotuse : M S Unit) :=
  preserves_getNode_bind fun _ => ensures_setNode rfl rfl

theorem preserves_setPrevleaf (n prevleaf : PageId) :
    Preserves SameRoot (setPrevleaf n prevleaf : M S Unit) :=
  preserves_getNode_bind fun _ => ensures_setNode rfl rfl

theorem preserves_setNextleaf (n nextleaf : PageId) :
    Preserves SameRoot (setNextleaf n nextleaf : M S Unit) :=
  preserves_getNode_bind fun _ => ensures_setNode rfl rfl

theorem preserves_setKey (n : PageId) (slot : Int) (key : K) :
    Preserves SameRoot (setKey records n slot key) :=
  preserves_getNode_bind fun _ => .orFault_bind fun _ _ => ensures_setNode rfl rfl

theorem preserves_setData (n : PageId) (slot : Int) (data : D) :
    Preserves SameRoot (setData records n slot data) :=
  preserves_getNode_bind fun _ => .orFault_bind fun _ _ => ensures_setNode rfl rfl

theorem preserves_setChild (n : PageId) (slot : Int) (child : PageId) :
    Preserves SameRoot (setChild records n slot child) :=
  preserves_getNode_bind fun _ => .orFault_bind fun _ _ => ensures_setNode rfl rfl

theorem readsOnly_getData (n : PageId) (slot : Int) : ReadsOnly (getData records n slot) :=
  (readsOnly_getNode n).bind fun _ => .orFault _ _

theorem preserves_moveKey (nodeFrom nodeTo : PageId) (target source : Int) :
    Preserves SameRoot (moveKey records nodeFrom nodeTo target source) :=
  .after (readsOnly_getKey _ _) fun _ => preserves_setKey _ _ _

theorem preserves_moveData (nodeFrom nodeTo : PageId) (target source : Int) :
    Preserves SameRoot (moveData records nodeFrom nodeTo target source) :=
  .after (readsOnly_getData _ _) fun _ => preserves_setData _ _ _

theorem preserves_moveChild (nodeFrom nodeTo : PageId) (target source : Int) :
    Preserves SameRoot (moveChild records nodeFrom nodeTo target source) :=
  .after (readsOnly_getChild _ _) fun _ => preserves_setChild _ _ _

theorem preserves_copyLoop {move : (target source : Int) → M S Unit}
    (moves : ∀ target source, Preserves SameRoot (move target source)) (count : Nat) (l dest : Int) :
    Preserves SameRoot (copyLoop move count l dest) := by
  induction count generalizing l dest with
  | zero => exact .pure
  | succ count ih => exact (moves dest l).bind fun _ => ih (l + 1) (dest + 1)

/-! ## The parts of an erasure -/

theorem preserves_freeNode (n : PageId) : Preserves SameRoot (freeNode n : M S Unit) :=
  .after .get fun _ => .ite (.after (readsOnly_getNode n) fun _ => .modify fun table =>
    sameRoot_freed table n) .pure

theorem readsOnly_needsFix (n : PageId) : ReadsOnly (needsFix n : M S Bool) :=
  ((readsOnly_getNode n).bind fun _ => ReadsOnly.get.bind fun _ => .pure).bind fun _ =>
    (ReadsOnly.get.bind fun _ => .pure).bind fun _ => (readsOnly_slotuse n).bind fun _ =>
      ReadsOnly.get.bind fun _ => .pure

theorem readsOnly_parentHasSlot (place : Place) : ReadsOnly (parentHasSlot place : M S Bool) := by
  unfold parentHasSlot
  split
  · exact .pure
  · exact (readsOnly_slotuse _).bind fun _ => .pure

theorem readsOnly_readLastkey (lastkey : Option (KeyType K)) :
    ReadsOnly (readLastkey records lastkey) := by
  unfold readLastkey
  split
  · exact .throw _
  · exact .pure
  · exact ReadsOnly.get.bind fun _ => .orFault _ _

theorem preserves_setParentKey (place : Place) (key : K) :
    Preserves SameRoot (setParentKey records place key) :=
  .after (.orFault _ _) fun _ => preserves_setKey _ _ _

theorem preserves_passLastkey (result : Result K) (place : Place) :
    Preserves SameRoot (passLastkey records result place) := by
  unfold passLastkey
  refine .ite (.after (readsOnly_parentHasSlot place) fun _ => .ite ?_ .pure) .pure
  exact .after (readsOnly_readLastkey _) fun _ => (preserves_setParentKey place _).bind fun _ => .pure

theorem preserves_fixMerge (inner : PageId) (slot : Nat) (result : Result K) :
    Preserves SameRoot (fixMerge records inner slot result) := by
  have removes (slot : Int) : Preserves SameRoot (removeChild records inner slot) := by
    refine .after (readsOnly_getChild inner slot) fun emptied => ?_
    refine (preserves_freeNode emptied).bind fun _ => .after (readsOnly_slotuse inner) fun _ => ?_
    refine (preserves_copyLoop (preserves_moveKey inner inner) _ _ _).bind fun _ => ?_
    refine (preserves_copyLoop (preserves_moveChild inner inner) _ _ _).bind fun _ => ?_
    refine (preserves_setSlotuse inner _).bind fun _ => .after (readsOnly_getNode inner) fun _ => ?_
    refine .ite (.after (readsOnly_getChild inner _) fun child => ?_) .pure
    exact .after (readsOnly_slotuse child) fun _ => .after (readsOnly_getKey child _) fun _ =>
      preserves_setKey inner _ _
  unfold fixMerge
  refine .ite (.after (readsOnly_getChild inner _) fun child => ?_) .pure
  exact .after (readsOnly_slotuse child) fun _ => .ite (removes _) (removes _)

theorem preserves_mergeLeaves (left right parent : PageId) :
    Preserves SameRoot (mergeLeaves records left right parent) := by
  refine .after (readsOnly_slotuse left) fun _ => .after (readsOnly_slotuse right) fun _ => ?_
  refine (preserves_copyLoop (preserves_moveKey right left) _ _ _).bind fun _ => ?_
  refine (preserves_copyLoop (preserves_moveData right left) _ _ _).bind fun _ => ?_
  refine (preserves_setSlotuse left _).bind fun _ => .after (readsOnly_getNode right) fun node => ?_
  refine (preserves_setNextleaf left _).bind fun _ => ?_
  refine .after (ReadsOnly.get.bind fun _ => .pure) fun id => ?_
  have ends : Preserves SameRoot (do setSlotuse right 0; pure .merged : M S (Result K)) :=
    (preserves_setSlotuse right 0).bind fun _ => .pure
  split
  · exact (preserves_setPrevleaf _ _).bind fun _ => ends
  · exact .bind (.modify fun table => ⟨⟨rfl, fun _ => rfl, fun _ => rfl, fun _ => rfl⟩, rfl⟩)
      fun _ => ends

theorem preserves_mergeInner (left right parent : PageId) (parentslot : Nat) :
    Preserves SameRoot (mergeInner records left right parent parentslot) := by
  refine .after (readsOnly_slotuse left) fun _ => .after (readsOnly_getKey parent _) fun _ => ?_
  refine (preserves_setKey left _ _).bind fun _ => (preserves_setSlotuse left _).bind fun _ => ?_
  refine .after (readsOnly_slotuse right) fun _ => ?_
  refine (preserves_copyLoop (preserves_moveKey right left) _ _ _).bind fun _ => ?_
  refine (preserves_copyLoop (preserves_moveChild right left) _ _ _).bind fun _ => ?_
  exact (preserves_setSlotuse left _).bind fun _ => (preserves_setSlotuse right 0).bind fun _ => .pure

end Accesses

end PersistentBTree.Tables.NullSafe
