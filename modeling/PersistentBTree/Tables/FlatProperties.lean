import PersistentBTree.Tables.InsertProperties
import PersistentBTree.Tables.LookupProperties

/-! Tables without inner nodes. Nothing sets the field that `isfull` reads, so no node is
split. The calls meet a null handle only if a page is missing; how the slots of a page
work does not matter. -/

set_option autoImplicit false

namespace PersistentBTree.Tables

open Imperative Pages

variable {K D S : Type}

/-- A fault other than that of a null handle. -/
def NotNull (fault : Fault) : Prop := fault ≠ .nullHandle

/-- There is no root, or the root and the last leaf are pages in use. -/
def Points (store : Store (Node S)) (root tail : PageId) : Prop :=
  root = -1 ∨ store.Allocated root ∧ store.Allocated tail

/-- All pages in use are leaves that `isfull` does not take to be full. -/
structure Flat (store : Store (Node S)) : Prop where
  sound : store.Sound
  unset : ∀ n, (store.file n).content.nSlots = 0
  isLeaf : ∀ n, store.Allocated n → (store.file n).content.level = 0
  header : Points store store.header.rootPage store.header.tailLeaf

theorem Points.mono {before after : Store (Node S)} {root tail : PageId}
    (points : Points before root tail) (kept : ∀ n, before.Allocated n → after.Allocated n) :
    Points after root tail :=
  points.imp_right fun both => ⟨kept root both.1, kept tail both.2⟩

theorem Flat.isLeafNode {table : Table S} {n : PageId} (flat : Flat table.store)
    (inUse : table.store.Allocated n) : (table.nodeAt n).isLeafNode = true :=
  beq_iff_eq.mpr (flat.isLeaf n inUse)

theorem flat_created (zeroes : S) : Flat (Store.created (Node.zero zeroes)) where
  sound := .created _
  unset _ := rfl
  isLeaf _ _ := rfl
  header := .inl rfl

/-! ## Writing to the slots of a node -/

namespace Table

/-- Only the slots, the links and the number of used slots of nodes differ. -/
structure Keeps (before after : Table S) : Prop where
  sound : before.store.Sound → after.store.Sound
  nSlots : ∀ n, (after.nodeAt n).nSlots = (before.nodeAt n).nSlots
  level : ∀ n, (after.nodeAt n).level = (before.nodeAt n).level
  allocated : ∀ n, after.store.Allocated n ↔ before.store.Allocated n
  header : after.store.header = before.store.header
  mRootId : after.mRootId = before.mRootId
  mTailleafId : after.mTailleafId = before.mTailleafId

namespace Keeps

variable {before middle after : Table S}

theorem refl (table : Table S) : table.Keeps table :=
  ⟨id, fun _ => rfl, fun _ => rfl, fun _ => Iff.rfl, rfl, rfl, rfl⟩

theorem trans (first : before.Keeps middle) (second : middle.Keeps after) : before.Keeps after where
  sound := second.sound ∘ first.sound
  nSlots n := (second.nSlots n).trans (first.nSlots n)
  level n := (second.level n).trans (first.level n)
  allocated n := (second.allocated n).trans (first.allocated n)
  header := second.header.trans first.header
  mRootId := second.mRootId.trans first.mRootId
  mTailleafId := second.mTailleafId.trans first.mTailleafId

theorem setNode {table : Table S} {n : PageId} {node : Node S}
    (nSlots : node.nSlots = (table.nodeAt n).nSlots) (level : node.level = (table.nodeAt n).level) :
    table.Keeps (table.setNode n node) where
  sound := sound_setNode
  nSlots _ := field_setNode Node.nSlots nSlots
  level _ := field_setNode Node.level level
  allocated _ := Iff.rfl
  header := rfl
  mRootId := rfl
  mTailleafId := rfl

theorem flat (keeps : before.Keeps after) (flat : Flat before.store) : Flat after.store where
  sound := keeps.sound flat.sound
  unset n := (keeps.nSlots n).trans (flat.unset n)
  isLeaf n inUse := (keeps.level n).trans (flat.isLeaf n ((keeps.allocated n).mp inUse))
  header := by
    rw [keeps.header]
    exact flat.header.mono fun n => (keeps.allocated n).mpr

end Keeps

end Table

section Accesses

variable {records : Records K D S} {table : Table S} {n : PageId}

/-- A page in use has its slots read, or the access leaves the page. -/
private theorem reads_runsOr {α : Type} {read : Node S → Option α}
    (inUse : table.store.Allocated n) :
    RunsOr NotNull (do let node ← getNode n; orFault .outOfPage (read node)) table
      fun value after => read (table.nodeAt n) = some value ∧ after = table := by
  refine .after ((runs_getNode ..).mpr ⟨inUse, ?_⟩)
  exact .orFault nofun fun value found => ⟨found, rfl⟩

private theorem writes_runsOr {write : Node S → Option S} (inUse : table.store.Allocated n) :
    RunsOr NotNull (do
      let node ← getNode n
      let slots ← orFault .outOfPage (write node)
      setNode n { node with slots }) table fun _ after => table.Keeps after := by
  refine .after ((runs_getNode ..).mpr ⟨inUse, ?_⟩)
  have kept : RunsOr NotNull (orFault .outOfPage (write (table.nodeAt n))) table
      fun _ after => after = table := .orFault nofun fun _ _ => rfl
  refine kept.bind fun slots after same => ?_
  rw [same]
  exact .of_runs ((runs_setNode ..).mpr (.setNode rfl rfl))

theorem getKey_runsOr (inUse : table.store.Allocated n) (slot : Int) :
    RunsOr NotNull (getKey records n slot) table fun key after =>
      records.getKey (table.nodeAt n).isLeafNode (table.nodeAt n).slots slot = some key ∧
        after = table :=
  reads_runsOr inUse

theorem getData_runsOr (inUse : table.store.Allocated n) (slot : Int) :
    RunsOr NotNull (getData records n slot) table fun _ after => after = table :=
  (reads_runsOr inUse).mono fun _ _ read => read.2

theorem setKey_runsOr (inUse : table.store.Allocated n) (slot : Int) (key : K) :
    RunsOr NotNull (setKey records n slot key) table fun _ after => table.Keeps after :=
  writes_runsOr inUse

theorem setData_runsOr (inUse : table.store.Allocated n) (slot : Int) (data : D) :
    RunsOr NotNull (setData records n slot data) table fun _ after => table.Keeps after :=
  writes_runsOr inUse

/-- A loop that moves slots of one node, each step of which keeps the table. -/
private theorem copyLoop_runsOr {move : (target source : Int) → M S Unit} (count : Nat) (l dest : Int)
    (moves : ∀ target source, ∀ table : Table S, table.store.Allocated n →
      RunsOr NotNull (move target source) table fun _ after => table.Keeps after)
    (inUse : table.store.Allocated n) :
    RunsOr NotNull (copyLoop move count l dest) table fun _ after => table.Keeps after := by
  induction count generalizing table l dest with
  | zero => exact .pure (.refl table)
  | succ count ih =>
      refine (moves dest l table inUse).bind fun _ middle kept => ?_
      apply (ih _ _ ((kept.allocated n).mpr inUse)).mono
      intro _ after keptOn
      exact kept.trans keptOn

private theorem moveKey_runsOr (target source : Int) (table : Table S)
    (inUse : table.store.Allocated n) :
    RunsOr NotNull (moveKey records n n target source) table fun _ after => table.Keeps after := by
  refine (getKey_runsOr inUse source).bind fun key middle read => ?_
  rw [read.2]
  exact setKey_runsOr inUse target key

private theorem moveData_runsOr (target source : Int) (table : Table S)
    (inUse : table.store.Allocated n) :
    RunsOr NotNull (moveData records n n target source) table fun _ after => table.Keeps after := by
  refine (getData_runsOr inUse source).bind fun data middle same => ?_
  rw [same]
  exact setData_runsOr inUse target data

theorem insertPair_runsOr (inUse : table.store.Allocated n) (slot : Nat) (key : K) (value : D) :
    RunsOr NotNull (insertPair records n slot key value) table fun _ after => table.Keeps after := by
  refine .after ((runs_slotuse ..).mpr ⟨inUse, ?_⟩)
  refine (copyLoop_runsOr _ _ _ moveKey_runsOr inUse).bind fun _ table₁ kept₁ => ?_
  have inUse₁ := (kept₁.allocated n).mpr inUse
  refine (copyLoop_runsOr _ _ _ moveData_runsOr inUse₁).bind fun _ table₂ kept₂ => ?_
  have inUse₂ := (kept₂.allocated n).mpr inUse₁
  refine (setKey_runsOr inUse₂ slot key).bind fun _ table₃ kept₃ => ?_
  have inUse₃ := (kept₃.allocated n).mpr inUse₂
  refine (setData_runsOr inUse₃ slot value).bind fun _ table₄ kept₄ => ?_
  have inUse₄ := (kept₄.allocated n).mpr inUse₃
  refine .of_runs ((runs_setSlotuse ..).mpr ⟨inUse₄, ?_⟩)
  exact (((kept₁.trans kept₂).trans kept₃).trans kept₄).trans (.setNode rfl rfl)

/-! ## Searching -/

private theorem searchLoop_runsOr (inUse : table.store.Allocated n) (isBelow : K → Bool)
    (fuel lo hi : Nat) :
    RunsOr NotNull (searchLoop records isBelow n fuel lo hi) table fun _ after =>
      after = table := by
  induction fuel generalizing lo hi with
  | zero =>
      unfold searchLoop
      split
      · exact .throw fun isNull => by cases isNull
      · exact .pure rfl
  | succ fuel ih =>
      unfold searchLoop
      split
      · refine (getKey_runsOr inUse _).bind fun slot middle read => ?_
        rw [read.2]
        split
        · exact ih _ _
        · exact ih _ _
      · exact .pure rfl

theorem findUpper_runsOr (inUse : table.store.Allocated n) (key : K) :
    RunsOr NotNull (findUpper records n key) table fun _ after => after = table := by
  refine .after ((runs_slotuse ..).mpr ⟨inUse, ?_⟩)
  split
  · exact .pure rfl
  · exact searchLoop_runsOr inUse _ _ _ _

theorem findLower_runsOr (inUse : table.store.Allocated n) (key : K) :
    RunsOr NotNull (findLower records n key) table fun _ after => after = table := by
  refine .after ((runs_slotuse ..).mpr ⟨inUse, ?_⟩)
  split
  · exact .pure rfl
  · exact searchLoop_runsOr inUse _ _ _ _

end Accesses

/-! ## Insertion -/

/-- What an insertion leaves: the table has a root. -/
structure Grows (before after : Table S) : Prop where
  flat : Flat after.store
  root : after.store.Allocated after.mRootId
  tail : after.store.Allocated after.mTailleafId
  kept : ∀ n, before.store.Allocated n → after.store.Allocated n

section Calls

variable {records : Records K D S} {table : Table S}

private theorem insertRoot_grows (flat : Flat table.store)
    (points : Points table.store table.mRootId table.mTailleafId) :
    Runs insertRoot table fun _ after =>
      Grows table after ∧ after.nodeslotmax = table.nodeslotmax := by
  unfold insertRoot
  rw [runs_bind, runs_get]
  rcases points with noRoot | ⟨root, tail⟩
  · rw [if_pos noRoot, runs_bind]
    refine allocateLeaf_runs flat.sound ?_
    have allocated {n : PageId} := @Table.allocated_withLeaf S table n flat.sound
    have inUse := allocated.mpr (.inr rfl)
    have sound := Table.sound_withLeaf flat.sound
    simp only [runs_bind, runs_pageId, runs_modify]
    rw [sound.id_of_allocated inUse]
    refine ⟨⟨?_, inUse, inUse, fun n used => allocated.mpr (.inl used)⟩, rfl⟩
    constructor
    case sound => exact ⟨sound.deleted, sound.identified, sound.counted, sound.sized, sound.resized⟩
    case unset =>
      intro n
      exact Table.nSlots_withLeaf.trans (flat.unset n)
    case isLeaf =>
      intro n used
      by_cases isNew : n = table.fresh
      · rw [isNew]
        exact Table.level_withLeaf_fresh
      · have node := Table.nodeAt_withLeaf_of_ne isNew
        exact (congrArg Node.level node).trans
          (flat.isLeaf n ((allocated.mp used).resolve_right isNew))
    case header => exact .inr ⟨inUse, inUse⟩
  · have present : table.mRootId ≠ -1 := by
      intro none
      rw [none] at root
      exact absurd root.1 (by decide)
    rw [if_neg present, runs_pure]
    exact ⟨⟨flat, root, tail, fun _ => id⟩, rfl⟩

private theorem insertDescend_runsOr (flat : Flat table.store) (some_ : table.nodeslotmax ≠ 0)
    {n : PageId} (inUse : table.store.Allocated n) (key : K) (value : D) :
    RunsOr NotNull (insertDescend records ((table.nodeAt n).level + 1) n key value) table
      fun inserted after => inserted.split = none ∧ table.Keeps after := by
  rw [insertDescend]
  refine .after ((runs_isLeaf ..).mpr ⟨inUse, ?_⟩)
  rw [if_pos (flat.isLeafNode inUse)]
  refine (findLower_runsOr inUse key).bind fun slot middle same => ?_
  rw [same]
  refine .after ((runs_isFull ..).mpr ⟨inUse, ?_⟩)
  have room : ((table.nodeAt n).nSlots == table.nodeslotmax) = false := by
    rw [beq_eq_false_iff_ne, Table.nodeAt, flat.unset]
    exact some_.symm
  rw [if_neg (Bool.not_eq_true _ ▸ room)]
  refine (insertPair_runsOr inUse slot key value).bind fun _ after kept => ?_
  exact .pure ⟨rfl, kept⟩

/-- An insertion into a table with room for a pair meets no null handle. -/
theorem insert_runsOr (flat : Flat table.store)
    (points : Points table.store table.mRootId table.mTailleafId) (some_ : table.nodeslotmax ≠ 0)
    (key : K) (value : D) :
    RunsOr NotNull (insert records key value) table fun _ after => Grows table after := by
  unfold insert
  refine .after ((insertRoot_grows flat points).mono fun _ middle ⟨grown, capacity⟩ => ?_)
  refine .after ((runs_get ..).mpr (.after ((runs_getNode ..).mpr ⟨grown.root, ?_⟩)))
  rw [← capacity] at some_
  refine (insertDescend_runsOr grown.flat some_ grown.root key value).bind ?_
  intro inserted after ⟨isNone, kept⟩
  rw [isNone, growRoot, pure_bind]
  have leaves : Grows table after := by
    refine ⟨kept.flat grown.flat, ?_, ?_, fun n used => (kept.allocated n).mpr (grown.kept n used)⟩
    · rw [kept.mRootId]
      exact (kept.allocated _).mpr grown.root
    · rw [kept.mTailleafId]
      exact (kept.allocated _).mpr grown.tail
  refine .after ((runs_modify ..).mpr (.pure ?_))
  split
  · exact ⟨leaves.flat, leaves.root, leaves.tail, leaves.kept⟩
  · exact leaves

/-! ## Lookups -/

variable {search : PageId → M S Nat} {turn : PageId → Nat → M S PageId}

private theorem lookUp_runsOr (flat : Flat table.store) (root : table.store.Allocated table.mRootId)
    (searches : RunsOr NotNull (search table.mRootId) table fun _ after => after = table)
    (fuel : Nat) :
    RunsOr NotNull (lookUp search turn fuel) table fun found after =>
      found.1 = table.mRootId ∧ after = table := by
  refine .after ((runs_get ..).mpr (.after ((runs_getNode ..).mpr ⟨root, ?_⟩)))
  have descends : RunsOr NotNull (descend search turn fuel table.mRootId) table
      fun place after => place.1 = table.mRootId ∧ after = table := by
    cases fuel with
    | zero => exact .throw nofun
    | succ fuel =>
        refine .after ((runs_isLeaf ..).mpr ⟨root, ?_⟩)
        rw [if_pos (flat.isLeafNode root)]
        exact .pure ⟨rfl, rfl⟩
  refine descends.bind fun (leaf, turns) middle ⟨isRoot, same⟩ => ?_
  dsimp only at isRoot ⊢
  rw [isRoot, same]
  refine searches.bind fun slot after kept => ?_
  exact .pure ⟨rfl, kept⟩

private theorem hasKeyAt_runsOr {leaf : PageId} (inUse : table.store.Allocated leaf) (slot : Nat)
    (key : K) :
    RunsOr NotNull (hasKeyAt records leaf slot key) table fun present after => after = table ∧
      (present = true → slot < (table.nodeAt leaf).slotuse ∧ ∃ stored,
        records.getKey (table.nodeAt leaf).isLeafNode (table.nodeAt leaf).slots slot = some stored ∧
          records.keyEqual key stored = true) := by
  refine .after ((runs_slotuse ..).mpr ⟨inUse, ?_⟩)
  split
  next inside =>
    refine (getKey_runsOr inUse _).bind fun stored middle ⟨read, same⟩ => ?_
    exact .pure ⟨same, fun equal => ⟨inside, stored, read, equal⟩⟩
  next => exact .pure ⟨rfl, nofun⟩

theorem existsKey_runsOr (flat : Flat table.store) (root : table.store.Allocated table.mRootId)
    (fuel : Nat) (key : K) :
    RunsOr NotNull (existsKey records fuel key) table fun _ after => after = table := by
  refine (lookUp_runsOr flat root (findLower_runsOr root key) fuel).bind ?_
  intro (leaf, slot, turns) middle ⟨isRoot, same⟩
  dsimp only at isRoot ⊢
  rw [isRoot, same]
  refine (hasKeyAt_runsOr root slot key).bind fun present after tested => ?_
  exact .pure tested.1

theorem endIter_runsOr (tail : table.store.Allocated table.mTailleafId) :
    RunsOr NotNull endIter table fun iter after =>
      after = table ∧ iter.currnode = table.mTailleafId := by
  refine .after ((runs_get ..).mpr (.after ((runs_getNode ..).mpr ⟨tail, ?_⟩)))
  split
  · refine .after ((runs_slotuse ..).mpr ⟨tail, ?_⟩)
    exact .pure ⟨rfl, rfl⟩
  · exact .pure ⟨rfl, rfl⟩

/-- The iterator that `find` returns denotes a page in use. -/
theorem find_runsOr (flat : Flat table.store) (root : table.store.Allocated table.mRootId)
    (tail : table.store.Allocated table.mTailleafId) (fuel : Nat) (key : K) :
    RunsOr NotNull (find records fuel key) table fun found after =>
      after = table ∧ table.store.Allocated found.1.currnode := by
  refine (lookUp_runsOr flat root (findLower_runsOr root key) fuel).bind ?_
  intro (leaf, slot, turns) middle ⟨isRoot, same⟩
  dsimp only at isRoot ⊢
  rw [isRoot, same]
  refine (hasKeyAt_runsOr root slot key).bind fun present after tested => ?_
  rw [tested.1]
  split
  · exact .pure ⟨rfl, root⟩
  · refine (endIter_runsOr tail).bind fun last after ⟨kept, isTail⟩ => ?_
    refine .pure ⟨kept, ?_⟩
    rw [isTail]
    exact tail

theorem lowerBound_runsOr (flat : Flat table.store) (root : table.store.Allocated table.mRootId)
    (fuel : Nat) (key : K) :
    RunsOr NotNull (lowerBound records fuel key) table fun _ after => after = table := by
  refine (lookUp_runsOr flat root (findLower_runsOr root key) fuel).bind ?_
  intro (leaf, slot, turns) middle ⟨_, same⟩
  exact .pure same

theorem upperBound_runsOr (flat : Flat table.store) (root : table.store.Allocated table.mRootId)
    (fuel : Nat) (key : K) :
    RunsOr NotNull (upperBound records fuel key) table fun _ after => after = table := by
  refine (lookUp_runsOr flat root (findUpper_runsOr root key) fuel).bind ?_
  intro (leaf, slot, turns) middle ⟨_, same⟩
  exact .pure same

/-- The key in the last slot of the node that is in use is not equal to `key`. -/
def EndsBefore (records : Records K D S) (node : Node S) (key : K) : Prop :=
  ∀ last, records.getKey node.isLeafNode node.slots ((node.slotuse - 1 : Nat) : Int) = some last →
    records.keyEqual key last = false

private theorem countLoop_runsOr {leaf : PageId} (inUse : table.store.Allocated leaf) {key : K}
    (ends : EndsBefore records (table.nodeAt leaf) key) (fuel slot num : Nat) :
    RunsOr NotNull (countLoop records key fuel leaf slot num) table fun _ after =>
      after = table := by
  induction fuel generalizing slot num with
  | zero => exact .throw nofun
  | succ fuel ih =>
      refine (hasKeyAt_runsOr inUse slot key).bind fun present middle ⟨same, holds⟩ => ?_
      rw [same]
      split
      next isKey =>
        obtain ⟨inside, stored, read, equal⟩ := holds isKey
        refine .after ((runs_getNode ..).mpr ⟨inUse, ?_⟩)
        have notLast : ¬ (table.nodeAt leaf).slotuse ≤ slot + 1 := by
          intro isLast
          have last : (table.nodeAt leaf).slotuse - 1 = slot := by omega
          have differs := ends stored (by rw [last]; exact read)
          rw [equal] at differs
          cases differs
        rw [if_neg notLast]
        exact ih _ _
      next => exact .pure rfl

theorem countKey_runsOr (flat : Flat table.store) (root : table.store.Allocated table.mRootId)
    (fuel : Nat) {key : K} (ends : EndsBefore records (table.nodeAt table.mRootId) key) :
    RunsOr NotNull (countKey records fuel key) table fun _ after => after = table := by
  refine (lookUp_runsOr flat root (findLower_runsOr root key) fuel).bind ?_
  intro (leaf, slot, turns) middle ⟨isRoot, same⟩
  dsimp only at isRoot ⊢
  rw [isRoot, same]
  refine (countLoop_runsOr root ends fuel slot 0).bind fun num after kept => ?_
  exact .pure kept

end Calls

end PersistentBTree.Tables
