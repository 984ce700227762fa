import PersistentBTree.Tables.Capacity

/-! What is left of a table when it is closed and opened again. -/

set_option autoImplicit false

namespace PersistentBTree.Tables

open Imperative Pages

variable {K D S : Type}

/-- The ids in the header are those in memory, and the table that is opened after this one
was closed has the same ids and the same size. -/
structure Durable (table : Table S) : Prop where
  rootPage : table.store.header.rootPage = table.mRootId
  headLeaf : table.store.header.headLeaf = table.mHeadleafId
  tailLeaf : table.store.header.tailLeaf = table.mTailleafId
  root : (Table.opened table.store table.nSlots).mRootId = table.mRootId
  head : (Table.opened table.store table.nSlots).mHeadleafId = table.mHeadleafId
  tail : (Table.opened table.store table.nSlots).mTailleafId = table.mTailleafId
  size : (Table.opened table.store table.nSlots).size = table.size

/-- The table is durable after each call of the run. -/
def StaysDurable (records : Records K D S) (table : Table S) (commands : List (Command K D)) :
    Prop :=
  ∀ front, front <+: commands → ∀ after,
    (performAll records front).run table = .ok ((), after) → Durable after

theorem durable_opened (store : Store (Node S)) (nSlots : Nat) :
    Durable (Table.opened store nSlots) :=
  ⟨rfl, rfl, rfl, rfl, rfl, rfl, rfl⟩

section Insertions

variable {records : Records K D S} {table before after : Table S}

private theorem insertIntoLeaf_ensures (leaf : PageId) (slot : Nat) (key : K) (value : D) :
    Ensures (insertIntoLeaf records leaf slot key value) table
      fun result _ => result.inserted = true := by
  unfold insertIntoLeaf
  refine .after fun full _ => ?_
  split
  · refine .after fun split _ => .after fun used _ => ?_
    split
    · exact .after fun _ _ => .pure rfl
    · exact .after fun _ _ => .pure rfl
  · exact .after fun _ _ => .pure rfl

private theorem insertSplitChild_ensures (inner : PageId) (slot : Nat) (child : Insertion K)
    (newkey : KeyType K) (newchild : PageId) :
    Ensures (insertSplitChild records inner slot child newkey newchild) table
      fun result _ => result.inserted = child.inserted := by
  unfold insertSplitChild
  refine .after fun full _ => ?_
  split
  · refine .after fun split _ => .after fun used _ => .after fun splitUsed _ => ?_
    split
    · refine .after fun _ _ => .after fun _ _ => .after fun _ _ => .after fun _ _ => ?_
      refine .after fun _ _ => .after fun _ _ => .after fun _ _ => .after fun _ _ => ?_
      exact .after fun _ _ => .after fun _ _ => .pure rfl
    · split
      · exact .after fun _ _ => .pure rfl
      · exact .after fun _ _ => .pure rfl
  · exact .after fun _ _ => .pure rfl

private theorem insertDescend_ensures (fuel : Nat) (n : PageId) (key : K) (value : D) :
    Ensures (insertDescend records fuel n key value) table fun result _ => result.inserted = true := by
  induction fuel generalizing table n with
  | zero => exact .throw _
  | succ fuel ih =>
      unfold insertDescend
      refine .after fun isLeaf _ => ?_
      split
      · exact .after fun slot _ => insertIntoLeaf_ensures n slot key value
      · refine .after fun slot _ => .after fun child _ => (ih child).bind fun result _ inserted => ?_
        split
        · refine (insertSplitChild_ensures n slot result _ _).mono ?_
          intro _ _ same
          exact same.trans inserted
        · exact .pure inserted

theorem insert_ensures (key : K) (value : D) :
    Ensures (insert records key value) table fun _ after => after.mStats.itemcount ≠ 0 := by
  unfold insert
  refine .after fun _ _ => .after fun _ _ => .after fun _ _ => ?_
  refine (insertDescend_ensures _ _ key value).bind fun result _ inserted => .after fun _ _ => ?_
  refine .of_runs ?_
  simp [inserted]

/-- It is not durable: the table that is opened has no pairs. -/
theorem not_durable_of_insert {key : K} {value : D}
    (returned : ((Command.insert key value).perform records).run before = .ok ((), after)) :
    ¬ Durable after := by
  intro durable
  have some_ : Ensures ((Command.insert key value).perform records) before
      fun _ after => after.mStats.itemcount ≠ 0 :=
    (insert_ensures key value).bind fun _ _ some_ => .pure some_
  exact some_ _ _ returned durable.size.symm

private theorem durable_of_perform {command : Command K D} (durable : Durable before)
    (isOther : command.isInsert = false)
    (returned : (command.perform records).run before = .ok ((), after)) : Durable after := by
  rcases perform_cases returned with ⟨key, value, rfl⟩ | ⟨-, rfl⟩ | ⟨-, -, rfl⟩
  · cases isOther
  · exact durable_opened _ _
  · exact durable

private theorem durable_of_performAll {commands : List (Command K D)} (durable : Durable before)
    (noInsertion : insertions commands = 0)
    (returned : (performAll records commands).run before = .ok ((), after)) : Durable after := by
  induction commands generalizing before with
  | nil =>
      cases returned
      exact durable
  | cons command rest ih =>
      obtain ⟨middle, first, second⟩ :=
        (@performAll_append_iff _ _ _ _ _ _ [command] rest).mp returned
      rw [performAll_singleton] at first
      obtain ⟨isOther, others⟩ := List.forall_mem_cons.mp (List.countP_eq_zero.mp noInsertion)
      exact ih (durable_of_perform durable (by simpa using isOther) first)
        (List.countP_eq_zero.mpr others) second

/-- A run leaves the table durable after each call exactly when no call is an insertion. -/
theorem staysDurable_iff {store : Store (Node S)} {nSlots : Nat} {commands : List (Command K D)}
    {final : Table S}
    (returned : (performAll records commands).run (.opened store nSlots) = .ok ((), final)) :
    StaysDurable records (.opened store nSlots) commands ↔ insertions commands = 0 := by
  constructor
  · intro durable
    by_contra some_
    obtain ⟨count, counted⟩ := Nat.exists_eq_succ_of_ne_zero some_
    obtain ⟨front, key, value, ⟨rest, rfl⟩, -⟩ := exists_last counted
    obtain ⟨after, reached, -⟩ := performAll_append_iff.mp returned
    obtain ⟨before, first, last⟩ := performAll_append_iff.mp reached
    rw [performAll_singleton] at last
    exact not_durable_of_insert last (durable _ (List.prefix_append _ _) after reached)
  · intro none front part after reached
    have frontNone : insertions front = 0 := by
      have counted : insertions front ≤ insertions commands := part.countP_le
      omega
    exact durable_of_performAll (durable_opened store nSlots) frontNone reached

end Insertions

/-- In the runs of a new table the header has the ids that are in memory: it is only the
size that is lost. -/
theorem performAll_ids [LinearOrder K] {nSlots : Nat} (some_ : nSlots ≠ 0) {zeroes : Slots K D}
    {commands : List (Command K D)} {final : Table (Slots K D)}
    (returned : (performAll (arrays K D) commands).run (Table.created zeroes nSlots) =
      .ok ((), final)) :
    final.store.header.rootPage = final.mRootId ∧
      final.store.header.headLeaf = final.mHeadleafId ∧
      final.store.header.tailLeaf = final.mTailleafId := by
  rcases performAll_holding some_ (.inl ⟨rfl, vacant_created zeroes nSlots⟩) returned with
    ⟨-, vacant⟩ | ⟨-, rooted⟩
  · exact ⟨vacant.header.trans vacant.noRoot.symm, vacant.headLeaf, vacant.tailLeaf⟩
  · exact ⟨rooted.header, rooted.headLeaf, rooted.tailLeaf⟩

/-! ## One pair -/

private theorem onePair_returned : ∃ final, (performAll (arrays Nat Nat) [.insert 1 10]).run
    (Table.created zeroSlots 4) = .ok ((), final) := by
  obtain ⟨_, final, returned, -⟩ := insertAll_runs (by decide) (.inl ⟨rfl,
    vacant_created zeroSlots 4⟩) (by decide : ∀ command ∈ [Command.insert 1 10],
      command.isInsert = true)
  exact ⟨final, returned⟩

theorem staysDurable_iff_onePair :
    StaysDurable (arrays Nat Nat) (Table.created zeroSlots 4) [.insert 1 10] ↔
      insertions [Command.insert 1 10] = 0 := by
  obtain ⟨final, returned⟩ := onePair_returned
  exact staysDurable_iff returned

theorem not_staysDurable_onePair :
    ¬ StaysDurable (arrays Nat Nat) (Table.created zeroSlots 4) [.insert 1 10] := by
  intro durable
  obtain ⟨final, returned⟩ := onePair_returned
  have last := durable _ (List.prefix_refl _) final returned
  rw [performAll_singleton] at returned
  exact not_durable_of_insert returned last

end PersistentBTree.Tables
