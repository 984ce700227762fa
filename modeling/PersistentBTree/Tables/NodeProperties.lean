import PersistentBTree.Tables.Node

/-! Rules for the accesses to the fields of nodes. -/

set_option autoImplicit false

namespace PersistentBTree.Tables

open Imperative Pages

namespace Table

variable {S : Type} {table : Table S} {n other : PageId} {node : Node S}

/-- The node in a page. -/
def nodeAt (table : Table S) (n : PageId) : Node S := (table.store.file n).content

@[simp] theorem nodeAt_setNode_self : (table.setNode n node).nodeAt n = node := by
  simp [nodeAt, setNode]

theorem nodeAt_setNode_of_ne (apart : other ≠ n) :
    (table.setNode n node).nodeAt other = table.nodeAt other := by
  simp only [nodeAt, setNode, Store.setPage_of_ne _ _ apart]

@[simp] theorem allocated_setNode :
    (table.setNode n node).store.Allocated other ↔ table.store.Allocated other := Iff.rfl

@[simp] theorem nodeslotmax_setNode : (table.setNode n node).nodeslotmax = table.nodeslotmax := rfl

@[simp] theorem mTailleafId_setNode : (table.setNode n node).mTailleafId = table.mTailleafId := rfl

@[simp] theorem id_setNode :
    ((table.setNode n node).store.file other).id = (table.store.file other).id := by
  by_cases same : other = n
  · subst same
    simp [setNode]
  · simp only [setNode, Store.setPage_of_ne _ _ same]

@[simp] theorem setNode_setNode (first second : Node S) :
    (table.setNode n first).setNode n second = table.setNode n second := by
  simp [setNode, Store.setPage]

@[simp] theorem setNode_nodeAt : table.setNode n (table.nodeAt n) = table := by
  simp [setNode, Store.setPage, nodeAt]

/-- A part of a node that is written back as it was is the same everywhere. -/
theorem field_setNode {α : Type} (field : Node S → α)
    (same : field node = field (table.nodeAt n)) :
    field ((table.setNode n node).nodeAt other) = field (table.nodeAt other) := by
  by_cases here : other = n
  · subst here
    rw [nodeAt_setNode_self, same]
  · rw [nodeAt_setNode_of_ne here]

theorem sound_setNode (sound : table.store.Sound) : (table.setNode n node).store.Sound :=
  @Store.Sound.setPage _ table.store n sound (fun page => { page with content := node }) rfl rfl

@[simp] theorem nodeAt_setTail {tail : PageId} :
    (table.setTail tail).nodeAt other = table.nodeAt other := rfl

@[simp] theorem allocated_setTail {tail : PageId} :
    (table.setTail tail).store.Allocated other ↔ table.store.Allocated other := Iff.rfl

/-! ### Changes of one field -/

def setUsed (table : Table S) (n : PageId) (slotuse : Nat) : Table S :=
  table.setNode n { table.nodeAt n with slotuse }

def setPrev (table : Table S) (n prevleaf : PageId) : Table S :=
  table.setNode n { table.nodeAt n with prevleaf }

def setNext (table : Table S) (n nextleaf : PageId) : Table S :=
  table.setNode n { table.nodeAt n with nextleaf }

section Fields

variable {used : Nat} {link : PageId}

@[simp] theorem allocated_setUsed :
    (table.setUsed n used).store.Allocated other ↔ table.store.Allocated other := Iff.rfl

@[simp] theorem allocated_setPrev :
    (table.setPrev n link).store.Allocated other ↔ table.store.Allocated other := Iff.rfl

@[simp] theorem allocated_setNext :
    (table.setNext n link).store.Allocated other ↔ table.store.Allocated other := Iff.rfl

@[simp] theorem mTailleafId_setUsed : (table.setUsed n used).mTailleafId = table.mTailleafId := rfl

@[simp] theorem id_setUsed :
    ((table.setUsed n used).store.file other).id = (table.store.file other).id := id_setNode

@[simp] theorem id_setPrev :
    ((table.setPrev n link).store.file other).id = (table.store.file other).id := id_setNode

@[simp] theorem id_setNext :
    ((table.setNext n link).store.file other).id = (table.store.file other).id := id_setNode

@[simp] theorem slots_setUsed :
    ((table.setUsed n used).nodeAt other).slots = (table.nodeAt other).slots :=
  field_setNode Node.slots rfl

@[simp] theorem slots_setPrev :
    ((table.setPrev n link).nodeAt other).slots = (table.nodeAt other).slots :=
  field_setNode Node.slots rfl

@[simp] theorem slots_setNext :
    ((table.setNext n link).nodeAt other).slots = (table.nodeAt other).slots :=
  field_setNode Node.slots rfl

theorem nodeAt_setUsed_self :
    (table.setUsed n used).nodeAt n = { table.nodeAt n with slotuse := used } :=
  nodeAt_setNode_self

theorem nodeAt_setUsed_of_ne (apart : other ≠ n) :
    (table.setUsed n used).nodeAt other = table.nodeAt other :=
  nodeAt_setNode_of_ne apart

theorem nodeAt_setPrev_self :
    (table.setPrev n link).nodeAt n = { table.nodeAt n with prevleaf := link } :=
  nodeAt_setNode_self

theorem nodeAt_setPrev_of_ne (apart : other ≠ n) :
    (table.setPrev n link).nodeAt other = table.nodeAt other :=
  nodeAt_setNode_of_ne apart

theorem nodeAt_setNext_self :
    (table.setNext n link).nodeAt n = { table.nodeAt n with nextleaf := link } :=
  nodeAt_setNode_self

theorem nodeAt_setNext_of_ne (apart : other ≠ n) :
    (table.setNext n link).nodeAt other = table.nodeAt other :=
  nodeAt_setNode_of_ne apart

@[simp] theorem slotuse_setUsed_self : ((table.setUsed n used).nodeAt n).slotuse = used := by
  rw [setUsed, nodeAt_setNode_self]

theorem slotuse_setUsed_of_ne (apart : other ≠ n) :
    ((table.setUsed n used).nodeAt other).slotuse = (table.nodeAt other).slotuse := by
  rw [setUsed, nodeAt_setNode_of_ne apart]

@[simp] theorem slotuse_setPrev :
    ((table.setPrev n link).nodeAt other).slotuse = (table.nodeAt other).slotuse :=
  field_setNode Node.slotuse rfl

@[simp] theorem slotuse_setNext :
    ((table.setNext n link).nodeAt other).slotuse = (table.nodeAt other).slotuse :=
  field_setNode Node.slotuse rfl

end Fields

/-! ### Changes of some nodes -/

/-- Nothing but the nodes `touched` and the tail leaf differs. -/
structure Touches (touched : List PageId) (before after : Table S) : Prop where
  nodes : ∀ n, n ∉ touched → after.nodeAt n = before.nodeAt n
  allocated : ∀ n, after.store.Allocated n ↔ before.store.Allocated n
  mRootId : after.mRootId = before.mRootId
  mHeadleafId : after.mHeadleafId = before.mHeadleafId

namespace Touches

variable {touched : List PageId} {before after : Table S}

theorem refl (touched : List PageId) (table : Table S) : Touches touched table table :=
  ⟨fun _ _ => rfl, fun _ => Iff.rfl, rfl, rfl⟩

theorem setNode (touches : Touches touched before after) (member : n ∈ touched) (node : Node S) :
    Touches touched before (after.setNode n node) where
  nodes other outside := by
    have apart : other ≠ n := fun same => outside (same ▸ member)
    exact (nodeAt_setNode_of_ne apart).trans (touches.nodes other outside)
  allocated := touches.allocated
  mRootId := touches.mRootId
  mHeadleafId := touches.mHeadleafId

theorem setTail (touches : Touches touched before after) (tail : PageId) :
    Touches touched before (after.setTail tail) :=
  ⟨touches.nodes, touches.allocated, touches.mRootId, touches.mHeadleafId⟩

theorem mono {wider : List PageId} (touches : Touches touched before after)
    (subset : ∀ n ∈ touched, n ∈ wider) : Touches wider before after :=
  ⟨fun n outside => touches.nodes n fun member => outside (subset n member), touches.allocated,
    touches.mRootId, touches.mHeadleafId⟩

end Touches

end Table

/-! ## Rules -/

section Rules

variable {S : Type} {table : Table S} {n : PageId}

@[simp] theorem runs_getNode (post : Node S → Table S → Prop) :
    Runs (getNode n) table post ↔ table.store.Allocated n ∧ post (table.nodeAt n) table := by
  simp only [getNode, runs_bind, runs_get, runs_ite, runs_pure, runs_throw, Table.nodeAt]
  split <;> simp_all

/-- Getting a page that is not in use follows a null handle. -/
theorem faults_getNode (missing : ¬ table.store.Allocated n) : Faults (getNode n) table := by
  refine Runs.faults_bind ((runs_get ..).mpr ?_)
  rw [if_neg missing]
  exact faults_throw _ _

@[simp] theorem runs_setNode (node : Node S) (post : Unit → Table S → Prop) :
    Runs (setNode n node) table post ↔ post () (table.setNode n node) := by
  simp [setNode]

@[simp] theorem runs_pageId (post : PageId → Table S → Prop) :
    Runs (pageId n) table post ↔ post (table.store.file n).id table := by
  simp [pageId]

@[simp] theorem runs_isLeaf (post : Bool → Table S → Prop) :
    Runs (isLeaf n) table post ↔
      table.store.Allocated n ∧ post (table.nodeAt n).isLeafNode table := by
  simp [isLeaf]

@[simp] theorem runs_slotuse (post : Nat → Table S → Prop) :
    Runs (slotuse n) table post ↔ table.store.Allocated n ∧ post (table.nodeAt n).slotuse table := by
  simp [slotuse]

@[simp] theorem runs_isFull (post : Bool → Table S → Prop) :
    Runs (isFull n) table post ↔ table.store.Allocated n ∧
      post ((table.nodeAt n).nSlots == table.nodeslotmax) table := by
  simp [isFull]

@[simp] theorem runs_setSlotuse (used : Nat) (post : Unit → Table S → Prop) :
    Runs (setSlotuse n used) table post ↔ table.store.Allocated n ∧
      post () (table.setUsed n used) := by
  simp [setSlotuse, Table.setUsed]

@[simp] theorem runs_setPrevleaf (prevleaf : PageId) (post : Unit → Table S → Prop) :
    Runs (setPrevleaf n prevleaf) table post ↔ table.store.Allocated n ∧
      post () (table.setPrev n prevleaf) := by
  simp [setPrevleaf, Table.setPrev]

@[simp] theorem runs_setNextleaf (nextleaf : PageId) (post : Unit → Table S → Prop) :
    Runs (setNextleaf n nextleaf) table post ↔ table.store.Allocated n ∧
      post () (table.setNext n nextleaf) := by
  simp [setNextleaf, Table.setNext]

end Rules

end PersistentBTree.Tables
