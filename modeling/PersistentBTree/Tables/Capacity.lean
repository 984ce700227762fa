import PersistentBTree.Tables.InsertGuarantees
import PersistentBTree.Tables.OperationProperties

/-! How full a node gets. Nothing sets the field that `isfull` reads, so the root leaf is
never split: it gets all the pairs. -/

set_option autoImplicit false

namespace PersistentBTree.Tables

open Imperative Pages

variable {K D : Type}

/-- No node has more slots in use than there are. -/
def WithinCapacity (table : Table (Slots K D)) : Prop :=
  ∀ n, table.store.Allocated n → (table.nodeAt n).slotuse ≤ table.nodeslotmax

/-- A node that has all its slots in use is one that is split. -/
def RecognisesFull (table : Table (Slots K D)) : Prop :=
  ∀ n, table.store.Allocated n → (table.nodeAt n).slotuse = table.nodeslotmax → IsFull table n

/-- Each insertion of the run finds the nodes that are full, and fills none of them too far. -/
def KeepsCapacity [LinearOrder K] (table : Table (Slots K D)) (commands : List (Command K D)) :
    Prop :=
  ∀ front key value, front ++ [.insert key value] <+: commands → ∀ before after,
    (performAll (arrays K D) front).run table = .ok ((), before) →
    ((Command.insert key value).perform (arrays K D)).run before = .ok ((), after) →
      RecognisesFull before ∧ WithinCapacity after

/-! ## The states of a run -/

/-- A table without a root. -/
structure Vacant (nSlots : Nat) (table : Table (Slots K D)) : Prop where
  sound : table.store.Sound
  declared : table.nSlots = nSlots
  capacity : table.nodeslotmax = nSlots
  noRoot : table.mRootId = -1
  header : table.store.header.rootPage = -1
  headLeaf : table.store.header.headLeaf = table.mHeadleafId
  tailLeaf : table.store.header.tailLeaf = table.mTailleafId
  allocated : ∀ n, ¬ table.store.Allocated n
  unset : ∀ n, (table.nodeAt n).nSlots = 0

/-- A table whose root is its only node, a leaf with `used` slots in use. -/
structure Rooted (nSlots used : Nat) (table : Table (Slots K D)) : Prop where
  sound : table.store.Sound
  declared : table.nSlots = nSlots
  capacity : table.nodeslotmax = nSlots
  header : table.store.header.rootPage = table.mRootId
  headLeaf : table.store.header.headLeaf = table.mHeadleafId
  tailLeaf : table.store.header.tailLeaf = table.mTailleafId
  allocated : ∀ n, table.store.Allocated n ↔ n = table.mRootId
  unset : ∀ n, (table.nodeAt n).nSlots = 0
  isLeaf : (table.nodeAt table.mRootId).level = 0
  slotuse : (table.nodeAt table.mRootId).slotuse = used

/-- What a table is after `count` insertions. -/
def Holding (nSlots count : Nat) (table : Table (Slots K D)) : Prop :=
  count = 0 ∧ Vacant nSlots table ∨ count ≠ 0 ∧ Rooted nSlots count table

theorem vacant_created (zeroes : Slots K D) (nSlots : Nat) :
    Vacant nSlots (Table.created zeroes nSlots) where
  sound := .created _
  declared := rfl
  capacity := rfl
  noRoot := rfl
  header := rfl
  headLeaf := rfl
  tailLeaf := rfl
  allocated _ := fun inside => absurd (lt_of_le_of_lt inside.1 inside.2.1) (lt_irrefl _)
  unset _ := rfl

namespace Rooted

variable {nSlots used : Nat} {table after : Table (Slots K D)}

theorem inUse (rooted : Rooted nSlots used table) : table.store.Allocated table.mRootId :=
  (rooted.allocated _).mpr rfl

theorem ne_none (rooted : Rooted nSlots used table) : table.mRootId ≠ -1 := by
  intro none
  have inside := rooted.inUse.1
  rw [none] at inside
  exact absurd inside (by decide)

theorem fills (rooted : Rooted nSlots used table) (fills : table.Fills table.mRootId after) :
    Rooted nSlots (after.nodeAt table.mRootId).slotuse after := by
  obtain ⟨slots, slotuse, rfl⟩ := fills
  have isLeaf := @Table.field_setNode _ table table.mRootId table.mRootId
    { table.nodeAt table.mRootId with slots, slotuse } _ Node.level rfl
  have unset := fun n => @Table.field_setNode _ table table.mRootId n
    { table.nodeAt table.mRootId with slots, slotuse } _ Node.nSlots rfl
  exact {
    sound := Table.sound_setNode rooted.sound
    declared := rooted.declared
    capacity := rooted.capacity
    header := rooted.header
    headLeaf := rooted.headLeaf
    tailLeaf := rooted.tailLeaf
    allocated := rooted.allocated
    unset := fun n => (unset n).trans (rooted.unset n)
    isLeaf := isLeaf.trans rooted.isLeaf
    slotuse := rfl }

theorem withinCapacity_iff (rooted : Rooted nSlots used table) :
    WithinCapacity table ↔ used ≤ nSlots := by
  constructor
  · intro within
    have bound := within _ rooted.inUse
    rwa [rooted.slotuse, rooted.capacity] at bound
  · intro bound n inUse
    rw [(rooted.allocated n).mp inUse, rooted.slotuse, rooted.capacity]
    exact bound

end Rooted

section Steps

variable [LinearOrder K] {nSlots count : Nat} {table : Table (Slots K D)} {key : K} {value : D}

omit [LinearOrder K] in
private theorem insertRoot_runs (holding : Holding nSlots count table) :
    Runs insertRoot table fun _ after => Rooted nSlots count after := by
  unfold insertRoot
  rw [runs_bind, runs_get]
  rcases holding with ⟨rfl, vacant⟩ | ⟨-, rooted⟩
  · rw [if_pos vacant.noRoot, runs_bind]
    refine allocateLeaf_runs vacant.sound ?_
    have inUse := (Table.allocated_withLeaf vacant.sound).mpr (.inr rfl)
    have sound := Table.sound_withLeaf vacant.sound
    have id := sound.id_of_allocated inUse
    simp only [runs_bind, runs_pageId, runs_modify]
    rw [id]
    exact {
      sound := ⟨sound.deleted, sound.identified, sound.counted, sound.sized, sound.resized⟩
      declared := vacant.declared
      capacity := vacant.capacity
      header := rfl
      headLeaf := rfl
      tailLeaf := rfl
      allocated := fun n => (Table.allocated_withLeaf vacant.sound).trans (by simp [vacant.allocated])
      unset := fun n => Table.nSlots_withLeaf.trans (vacant.unset n)
      isLeaf := Table.level_withLeaf_fresh
      slotuse := Table.slotuse_withLeaf_fresh }
  · rw [if_neg rooted.ne_none, runs_pure]
    exact rooted

private theorem insertIntoRoot_runs (rooted : Rooted nSlots count table) (some_ : nSlots ≠ 0) :
    Runs (insertDescend (arrays K D) ((table.nodeAt table.mRootId).level + 1) table.mRootId key
      value) table fun result after => result.split = none ∧ Rooted nSlots (count + 1) after := by
  have inUse := rooted.inUse
  obtain ⟨slot, _, returned, same, inside⟩ := @findLower_runs K D _ _ _ key inUse
  have found : FoundAt table table.mRootId slot key := ⟨slot, _, returned, rfl⟩
  have isLeaf : (table.nodeAt table.mRootId).isLeafNode = true := beq_iff_eq.mpr rooted.isLeaf
  have room : ¬ IsFull table table.mRootId := by
    rw [IsFull, rooted.unset, rooted.capacity]
    exact some_.symm
  refine (insertDescend_iff inUse isLeaf found).2.mpr ?_
  refine (insertIntoLeaf_runs inUse inside room).mono ?_
  intro result after ⟨isNone, written⟩
  have filled := rooted.fills written.fills
  rw [written.slotuse, rooted.slotuse] at filled
  exact ⟨isNone, filled⟩

theorem insert_runs (holding : Holding nSlots count table) (some_ : nSlots ≠ 0) :
    Runs (insert (arrays K D) key value) table fun _ after => Holding nSlots (count + 1) after := by
  unfold insert
  rw [runs_bind]
  refine (insertRoot_runs holding).mono ?_
  intro _ middle rooted
  simp only [runs_bind, runs_get, runs_getNode]
  refine ⟨rooted.inUse, (insertIntoRoot_runs rooted some_).mono ?_⟩
  intro result after reached
  obtain ⟨isNone, filled⟩ := reached
  rw [isNone, growRoot, runs_pure]
  simp only [runs_modify, runs_pure]
  refine .inr ⟨Nat.succ_ne_zero _, ?_⟩
  split
  · exact ⟨filled.sound, filled.declared, filled.capacity, filled.header, filled.headLeaf,
      filled.tailLeaf, filled.allocated, filled.unset, filled.isLeaf, filled.slotuse⟩
  · exact filled

omit [LinearOrder K] in
private theorem Holding.reopen (holding : Holding nSlots count table) :
    Holding nSlots count (.opened table.store table.nSlots) := by
  rcases holding with ⟨isZero, vacant⟩ | ⟨some_, rooted⟩
  · exact .inl ⟨isZero, vacant.sound, vacant.declared, vacant.declared, vacant.header,
      vacant.header, rfl, rfl, vacant.allocated, vacant.unset⟩
  · have root := rooted.header
    refine .inr ⟨some_, rooted.sound, rooted.declared, rooted.declared, rfl, rfl, rfl, ?_,
      rooted.unset, ?_, ?_⟩
    · intro n
      exact (rooted.allocated n).trans (by rw [Table.opened, root])
    · rw [Table.opened, root]
      exact rooted.isLeaf
    · rw [Table.opened, root]
      exact rooted.slotuse

private theorem perform_holding {after : Table (Slots K D)} (some_ : nSlots ≠ 0)
    (holding : Holding nSlots count table) {command : Command K D}
    (returned : (command.perform (arrays K D)).run table = .ok ((), after)) :
    Holding nSlots (count + insertions [command]) after := by
  rcases perform_cases returned with ⟨key, value, rfl⟩ | ⟨rfl, rfl⟩ | ⟨erases, -, rfl⟩
  · have inserted : Runs ((Command.insert key value).perform (arrays K D)) table
        fun _ final => Holding nSlots (count + 1) final :=
      (runs_bind ..).mpr ((insert_runs holding some_).mono fun _ _ more => (runs_pure ..).mpr more)
    exact inserted.holds returned
  · exact holding.reopen
  · cases erases <;> exact holding

theorem performAll_holding {after : Table (Slots K D)} (some_ : nSlots ≠ 0)
    (holding : Holding nSlots count table) {commands : List (Command K D)}
    (returned : (performAll (arrays K D) commands).run table = .ok ((), after)) :
    Holding nSlots (count + insertions commands) after := by
  induction commands generalizing table count with
  | nil =>
      cases returned
      exact holding
  | cons command rest ih =>
      obtain ⟨middle, first, second⟩ :=
        (@performAll_append_iff _ _ _ _ _ _ [command] rest).mp returned
      rw [performAll_singleton] at first
      have reached := ih (perform_holding some_ holding first) second
      rwa [Nat.add_assoc, insertions, insertions, ← List.countP_append] at reached

theorem insertAll_runs (some_ : nSlots ≠ 0) (holding : Holding nSlots count table)
    {commands : List (Command K D)} (inserts : ∀ command ∈ commands, command.isInsert = true) :
    Runs (performAll (arrays K D) commands) table fun _ after =>
      Holding nSlots (count + insertions commands) after := by
  have returns : Runs (performAll (arrays K D) commands) table fun _ _ => True := by
    induction commands generalizing table count with
    | nil => exact (runs_pure ..).mpr trivial
    | cons command rest ih =>
        obtain ⟨isInsert, others⟩ := List.forall_mem_cons.mp inserts
        cases command with
        | insert key value =>
            refine (runs_bind ..).mpr ((runs_bind ..).mpr ?_)
            exact (insert_runs holding some_).mono fun _ _ more =>
              (runs_pure ..).mpr (ih more others)
        | _ => cases isInsert
  obtain ⟨_, after, returned, -⟩ := returns
  exact ⟨(), after, returned, performAll_holding some_ holding returned⟩

end Steps

/-! ## The capacity of a run -/

section Runs

variable [LinearOrder K] {nSlots : Nat} {zeroes : Slots K D} {commands : List (Command K D)}

private theorem keepsCapacity_of_le (some_ : nSlots ≠ 0) (few : insertions commands ≤ nSlots) :
    KeepsCapacity (Table.created zeroes nSlots) commands := by
  intro front key value part before after first inserted
  have held : Holding nSlots (insertions front) before := by
    have reached := performAll_holding some_ (.inl ⟨rfl, vacant_created zeroes nSlots⟩) first
    rwa [Nat.zero_add] at reached
  have more : Holding nSlots (insertions front + 1) after := perform_holding some_ held inserted
  have bound : insertions front + 1 ≤ nSlots := by
    have counted : insertions (front ++ [.insert key value]) ≤ insertions commands :=
      part.countP_le
    have split : insertions (front ++ [.insert key value]) = insertions front + 1 := by
      simp [insertions, Command.isInsert]
    omega
  have fits : WithinCapacity after := by
    rcases more with ⟨isZero, -⟩ | ⟨-, rooted⟩
    · cases isZero
    · exact rooted.withinCapacity_iff.mpr bound
  refine ⟨?_, fits⟩
  -- no node has all its slots in use before the last insertion that is allowed
  intro n inUse isFull
  rcases held with ⟨-, vacant⟩ | ⟨-, rooted⟩
  · exact absurd inUse (vacant.allocated n)
  · rw [(rooted.allocated n).mp inUse, rooted.slotuse, rooted.capacity] at isFull
    omega

/-- A run keeps the capacity of the nodes exactly when there are not more insertions than
slots. -/
theorem keepsCapacity_iff (atLeastTwo : 2 ≤ nSlots) {final : Table (Slots K D)}
    (returned : (performAll (arrays K D) commands).run (Table.created zeroes nSlots) =
      .ok ((), final)) :
    KeepsCapacity (Table.created zeroes nSlots) commands ↔ insertions commands ≤ nSlots := by
  have some_ : nSlots ≠ 0 := by omega
  constructor
  · intro keeps
    by_contra many
    obtain ⟨count, counted⟩ := Nat.exists_eq_succ_of_ne_zero (show insertions commands ≠ 0 by omega)
    obtain ⟨front, key, value, ⟨rest, rfl⟩, frontCount⟩ := exists_last counted
    obtain ⟨after, reached, -⟩ := performAll_append_iff.mp returned
    obtain ⟨before, first, last⟩ := performAll_append_iff.mp reached
    rw [performAll_singleton] at last
    have within := (keeps front key value (List.prefix_append _ _) before after first last).2
    have held := performAll_holding some_ (.inl ⟨rfl, vacant_created zeroes nSlots⟩) reached
    have split : insertions (front ++ [Command.insert key value]) = count + 1 := by
      rw [← frontCount]
      simp [insertions, Command.isInsert]
    rw [Nat.zero_add, split] at held
    rcases held with ⟨isZero, -⟩ | ⟨-, rooted⟩
    · cases isZero
    · have bound := rooted.withinCapacity_iff.mp within
      omega
  · exact keepsCapacity_of_le some_

end Runs

/-! ## Three insertions into two slots -/

def threeKeys : List (Command Nat Nat) := [.insert 1 10, .insert 2 20, .insert 3 30]

/-- The slots of a page that was never written to. -/
def zeroSlots : Slots Nat Nat := ⟨fun _ => 0, fun _ => 0, fun _ => 0⟩

theorem keepsCapacity_iff_threeKeys : ∃ final,
    (performAll (arrays Nat Nat) threeKeys).run (Table.created zeroSlots 2) = .ok ((), final) ∧
      (KeepsCapacity (Table.created zeroSlots 2) threeKeys ↔ insertions threeKeys ≤ 2) := by
  obtain ⟨_, final, returned, -⟩ := insertAll_runs Nat.two_pos.ne' (.inl ⟨rfl,
    vacant_created zeroSlots 2⟩) (by decide : ∀ command ∈ threeKeys, command.isInsert = true)
  exact ⟨final, returned, keepsCapacity_iff (Nat.le_refl 2) returned⟩

theorem not_keepsCapacity_threeKeys : ¬ KeepsCapacity (Table.created zeroSlots 2) threeKeys := by
  intro keeps
  obtain ⟨_, after, returned, held⟩ := insertAll_runs Nat.two_pos.ne' (.inl ⟨rfl,
    vacant_created zeroSlots 2⟩) (by decide : ∀ command ∈ threeKeys, command.isInsert = true)
  obtain ⟨before, first, last⟩ :=
    (@performAll_append_iff _ _ _ _ _ _ [.insert 1 10, .insert 2 20] [.insert 3 30]).mp returned
  rw [performAll_singleton] at last
  have within := (keeps _ 3 30 (List.prefix_refl _) before after first last).2
  rcases held with ⟨isZero, -⟩ | ⟨-, rooted⟩
  · cases isZero
  · exact absurd (rooted.withinCapacity_iff.mp within) (by decide)

end PersistentBTree.Tables
