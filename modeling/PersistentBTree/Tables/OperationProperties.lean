import PersistentBTree.Tables.NodeProperties
import PersistentBTree.Tables.Operations

/-! What the calls do other than inserting. -/

set_option autoImplicit false

namespace PersistentBTree.Tables

open Imperative Pages

variable {K D S : Type} {records : Records K D S} {table before after : Table S}

/-- Erasing from a table that has a root follows a null handle. -/
theorem eraseRoot_runsIf :
    RunsIf (table.mRootId = -1) eraseRoot table fun found after => found = false ∧ after = table := by
  unfold eraseRoot
  refine .after ((runs_get ..).mpr ?_)
  by_cases noRoot : table.mRootId = -1
  · rw [if_pos noRoot]
    exact .of_runs ((runs_pure ..).mpr ⟨rfl, rfl⟩) noRoot
  · rw [if_neg noRoot]
    refine .inr ⟨noRoot, faults_bind fun root middle _ => ?_⟩
    exact Faults.bind (faults_throw _ _)

theorem eraseLoop_runsIf (key : K) (fuel count : Nat) :
    RunsIf (table.mRootId = -1) (eraseLoop key (fuel + 1) count) table
      fun total after => total = count ∧ after = table := by
  unfold eraseLoop
  refine eraseRoot_runsIf.before ?_
  rintro _ _ ⟨rfl, rfl⟩
  rw [if_neg Bool.false_ne_true, runs_pure]
  exact ⟨rfl, rfl⟩

/-- The calls that erase. -/
inductive Command.Erases : Command K D → Prop where
  | eraseOne (key : K) : Erases (.eraseOne key)
  | eraseKey (key : K) : Erases (.eraseKey key)
  | eraseIter (iter : Iterator) : Erases (.eraseIter iter)

/-- A call that erases changes nothing, and returns only if there is no root. -/
theorem erases_runsIf {command : Command K D} (erases : command.Erases) :
    RunsIf (table.mRootId = -1) (command.perform records) table fun _ after => after = table := by
  cases erases with
  | eraseOne key =>
      refine (@eraseRoot_runsIf _ table).before ?_
      rintro _ _ ⟨-, same⟩
      exact (runs_pure ..).mpr same
  | eraseKey key =>
      have erased : RunsIf (table.mRootId = -1) (eraseKey key) table fun _ after => after = table := by
        refine .after ((runs_get ..).mpr ?_)
        exact (eraseLoop_runsIf key _ 0).mono fun _ _ left => left.2
      exact erased.before fun _ _ same => (runs_pure ..).mpr same
  | eraseIter iter =>
      refine (@eraseRoot_runsIf _ table).before ?_
      rintro _ _ ⟨-, same⟩
      exact (runs_pure ..).mpr same

/-- A call that returns inserts, opens the table again or leaves it as it is. -/
theorem perform_cases {command : Command K D}
    (returned : (command.perform records).run before = .ok ((), after)) :
    (∃ key value, command = .insert key value) ∨ (command = .reopen ∧
      after = .opened before.store before.nSlots) ∨ (command.Erases ∧ before.mRootId = -1 ∧
        after = before) := by
  have nothing (erases : command.Erases) : before.mRootId = -1 ∧ after = before := by
    have outcome := @erases_runsIf K D S records before command erases
    exact ⟨outcome.runs_iff.mp ⟨(), after, returned, outcome.holds returned⟩, outcome.holds returned⟩
  cases command with
  | insert key value => exact .inl ⟨key, value, rfl⟩
  | eraseOne key => exact .inr (.inr ⟨.eraseOne key, nothing (.eraseOne key)⟩)
  | eraseKey key => exact .inr (.inr ⟨.eraseKey key, nothing (.eraseKey key)⟩)
  | eraseIter iter => exact .inr (.inr ⟨.eraseIter iter, nothing (.eraseIter iter)⟩)
  | reopen =>
      cases returned
      exact .inr (.inl ⟨rfl, rfl⟩)

theorem performAll_append (front back : List (Command K D)) :
    performAll records (front ++ back) =
      performAll records front >>= fun _ => performAll records back := by
  induction front with
  | nil => simp [performAll]
  | cons command rest ih => simp [performAll, ih]

theorem performAll_append_iff {front back : List (Command K D)} :
    (performAll records (front ++ back)).run before = .ok ((), after) ↔
      ∃ middle, (performAll records front).run before = .ok ((), middle) ∧
        (performAll records back).run middle = .ok ((), after) := by
  have runs_iff {program : M S Unit} {start : Table S} : program.run start = .ok ((), after) ↔
      Runs program start fun _ final => final = after := by
    constructor
    · intro returned
      exact ⟨(), after, returned, rfl⟩
    · rintro ⟨_, _, returned, rfl⟩
      exact returned
  rw [performAll_append, runs_iff, runs_bind]
  constructor
  · rintro ⟨_, middle, first, second⟩
    exact ⟨middle, first, runs_iff.mpr second⟩
  · rintro ⟨middle, first, second⟩
    exact ⟨(), middle, first, runs_iff.mp second⟩

@[simp] theorem performAll_singleton {command : Command K D} :
    performAll records [command] = command.perform records :=
  bind_pure_unit

theorem exists_last {commands : List (Command K D)} {count : Nat}
    (some_ : insertions commands = count + 1) :
    ∃ front key value, front ++ [.insert key value] <+: commands ∧ insertions front = count := by
  induction commands using List.reverseRecOn with
  | nil => cases some_
  | append_singleton front command ih =>
      cases isInsert : command.isInsert with
      | true =>
          cases command with
          | insert key value =>
              refine ⟨front, key, value, List.prefix_refl _, ?_⟩
              simpa [insertions, Command.isInsert] using some_
          | _ => cases isInsert
      | false =>
          obtain ⟨earlier, key, value, part, counted⟩ := ih (by simpa [insertions, isInsert] using some_)
          exact ⟨earlier, key, value, part.trans (List.prefix_append _ _), counted⟩

end PersistentBTree.Tables
