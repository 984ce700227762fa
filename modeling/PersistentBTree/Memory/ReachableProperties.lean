import PersistentBTree.Memory.ClearProperties
import PersistentBTree.Memory.OperationProperties
import PersistentBTree.Memory.Operations

/-! Every run of calls keeps the invariant, and the stored pairs go through a
run of multimap operations. -/

set_option autoImplicit false

namespace PersistentBTree.Memory

open Imperative Multimap

variable {K D : Type} [LinearOrder K] [Inhabited K] {bounds : Bounds} {sizes : NodeSizes}
  {checks : Assertion → Bool} {tree : BTree K D}

/-- What a call is for, as an operation on the stored pairs, and what it
returns. -/
def Command.Meets (before after : BTree K D) : Command K D → Reply → Prop
  | .insert key value, reply => ∃ iter, reply = .inserted iter true ∧
      after.contents = put before.contents key value ∧
      Denotes after.leafBlocks iter (before.contents.filter fun pair => pair.1 < key) (key, value)
        (before.contents.filter fun pair => ¬ pair.1 < key)
  | .eraseOne key, reply =>
      (reply = .found true ∧ (∃ pair ∈ before.contents, pair.1 = key) ∧
        after.contents = removeFirst before.contents key) ∨
      reply = .found false ∧ (∀ pair ∈ before.contents, pair.1 ≠ key) ∧ after = before
  | .eraseKey key, reply => reply = .total (count before.contents key) ∧
      after.contents = removeAll before.contents key
  | .eraseIter iter, reply => reply = .done ∧ ∃ front pair back,
      Denotes before.leafBlocks iter front pair back ∧ after.contents = front ++ back
  | .clear, reply => reply = .done ∧ after.contents = []

omit [Inhabited K] in
/-- A call that does what it is for is one change of the multimap. -/
theorem Command.Meets.next {before after : BTree K D} {command : Command K D} {reply : Reply}
    (meets : command.Meets before after reply) : Next before.contents after.contents := by
  cases command with
  | insert key value =>
      obtain ⟨iter, -, contents, -⟩ := meets
      rw [contents]
      exact .put ..
  | eraseOne key =>
      rcases meets with ⟨-, -, contents⟩ | ⟨-, absent, rfl⟩
      · rw [contents]
        exact .removeFirst ..
      · have next := Next.removeFirst after.contents key
        rwa [removeFirst_of_absent absent] at next
  | eraseKey key =>
      rw [meets.2]
      exact .removeAll ..
  | eraseIter iter =>
      obtain ⟨-, front, pair, back, denotes, contents⟩ := meets
      rw [contents, BTree.contents, denotes.pairsIn_eq]
      exact .removeAt ..
  | clear =>
      rw [meets.2]
      exact .clear ..

/-! ## One call -/

theorem Command.insert_perform (splits : bounds.Splits tree.sizes) (holds : tree.Invariant bounds)
    (key : K) (value : D)
    (takes : ∀ height sub, tree.Intact bounds 1 height sub → sub.Takes key tree.sizes) :
    Runs (Command.insert key value).perform tree fun reply after =>
      Kept bounds tree after ∧ (Command.insert key value).Meets tree after reply := by
  simp only [perform, runs_bind, runs_pure]
  refine (insert_runs splits holds takes).mono ?_
  rintro ⟨iter, isNew⟩ after ⟨invariant, sizes, checks, rfl, front, back, contents, cut, denotes⟩
  refine ⟨⟨invariant, sizes, checks⟩, iter, rfl, ?_, ?_⟩
  · rw [contents, cut.put, ← denotes.pairsIn_eq]
    rfl
  · rwa [contents, cut.filter_before, cut.filter_behind]

theorem Command.eraseOne_perform (erases : bounds.Erases tree.sizes tree.checks)
    (searchable : tree.Searchable) (holds : tree.Invariant bounds) (key : K) :
    Runs (Command.eraseOne (D := D) key).perform tree fun reply after =>
      Kept bounds tree after ∧ (Command.eraseOne key).Meets tree after reply := by
  simp only [perform, runs_bind, runs_pure]
  refine (eraseOne_runs erases searchable holds key).mono fun found after outcome => ?_
  rcases outcome with ⟨rfl, rfl, absent⟩ | ⟨rfl, kept, lower, pair, upper, contents, cut, isKey,
    remaining⟩
  · exact ⟨.refl holds, .inr ⟨rfl, absent, rfl⟩⟩
  · refine ⟨kept, .inl ⟨rfl, ⟨pair, ?_, isKey⟩, ?_⟩⟩
    · rw [contents]
      simp
    · rw [contents, cut.removeFirst isKey, remaining]

/-- Every call that can search does what it is for and keeps the invariant. Only
`clear` may fail to return, when some node is too wide. -/
theorem Command.perform_runs (erases : bounds.Erases tree.sizes tree.checks)
    (holds : tree.Invariant bounds) (command : Command K D) (valid : command.Valid tree)
    (searches : command.SearchesIn BTree.Searchable tree) :
    RunsIf (command = .clear → ¬ tree.Wide) command.perform tree fun reply after =>
      Kept bounds tree after ∧ command.Meets tree after reply := by
  cases command with
  | insert key value =>
      refine .of_runs (insert_perform erases.splits holds key value fun height sub intact =>
        erases.takes searches intact key) fun isClear => ?_
      cases isClear
  | eraseOne key =>
      refine .of_runs (eraseOne_perform erases searches holds key) fun isClear => ?_
      cases isClear
  | eraseKey key =>
      refine .of_runs ?_ fun isClear => by cases isClear
      simp only [perform, runs_bind, runs_pure]
      refine (eraseKey_runs erases searches holds).mono fun total after outcome => ?_
      obtain ⟨rfl, kept, contents⟩ := outcome
      exact ⟨kept, rfl, contents⟩
  | eraseIter iter =>
      obtain ⟨front, pair, back, denotes⟩ := valid
      refine .of_runs ?_ fun isClear => by cases isClear
      simp only [perform, runs_bind, runs_pure]
      refine (eraseIter_runs erases searches holds denotes).mono fun _ after outcome => ?_
      exact ⟨outcome.1, rfl, front, pair, back, denotes, outcome.2⟩
  | clear =>
      refine ((clear_runs holds.isTree).before fun _ after outcome => (runs_pure ..).mpr ?_).congr
        ⟨fun notWide _ => notWide, fun notWide => notWide rfl⟩
      obtain ⟨vacant, sizes, checks⟩ := outcome
      have nothing : after.contents = [] := by rw [BTree.contents, vacant.leafBlocks_eq, pairsIn_nil]
      exact ⟨⟨⟨.inl vacant, by rw [nothing, vacant.stats]; rfl⟩, sizes, checks⟩, rfl, nothing⟩

/-! ## Runs of calls -/

omit [Inhabited K] in
theorem BTree.empty_invariant (bounds : Bounds) (sizes : NodeSizes) (checks : Assertion → Bool) :
    (BTree.empty sizes checks : BTree K D).Invariant bounds :=
  ⟨.inl (.empty sizes checks), rfl⟩

theorem Reachable.empty (sizes : NodeSizes) (checks : Assertion → Bool) :
    Reachable sizes checks (BTree.empty sizes checks : BTree K D) :=
  .refl

section Searchable

variable (erases : bounds.Erases sizes checks)
  (reached : ReachableIn BTree.Searchable sizes checks tree)

include erases reached

theorem ReachableIn.kept : Kept bounds (BTree.empty sizes checks) tree := by
  induction reached with
  | refl => exact .refl (BTree.empty_invariant bounds sizes checks)
  | tail _ step kept =>
      obtain ⟨command, reply, valid, searches, returned⟩ := step
      have kept' := command.perform_runs (kept.erases erases) kept.invariant valid searches
      exact kept.trans (kept'.holds returned).1

theorem ReachableIn.perform_runs (command : Command K D) (valid : command.Valid tree)
    (searches : command.SearchesIn BTree.Searchable tree) :
    RunsIf (command = .clear → ¬ tree.Wide) command.perform tree fun reply after =>
      ReachableIn BTree.Searchable sizes checks after ∧ command.Meets tree after reply := by
  have kept := reached.kept erases
  rcases command.perform_runs (kept.erases erases) kept.invariant valid searches with
    ⟨narrow, reply, after, returned, -, meets⟩ | faults
  · exact .inl ⟨narrow, reply, after, returned,
      reached.tail ⟨command, reply, valid, searches, returned⟩, meets⟩
  · exact .inr faults

/-- The stored pairs of a run are a run of multimap operations. -/
theorem ReachableIn.refines : Relation.ReflTransGen Next [] tree.contents := by
  induction reached with
  | refl => exact .refl
  | tail before step runs =>
      obtain ⟨command, reply, valid, searches, returned⟩ := step
      exact runs.tail ((perform_runs erases before command valid searches).holds returned).2.next

end Searchable

omit [Inhabited K] in
theorem BTree.Invariant.searchable (small : bounds.Searchable) (holds : tree.Invariant bounds) :
    tree.Searchable := by
  intro ptr node found
  rcases holds.shape with vacant | ⟨height, sub, intact⟩
  · rw [vacant.unused ptr] at found
    cases found
  · exact intact.stored.slotuse_le small intact.wellFormed
      (intact.allocated ptr (by simp [found])) found

/-- With small nodes every call can search. -/
theorem Command.searchesIn (small : bounds.Searchable)
    (erases : bounds.Erases tree.sizes tree.checks) (holds : tree.Invariant bounds)
    (command : Command K D) : command.SearchesIn BTree.Searchable tree := by
  have searchable := holds.searchable small
  cases command with
  | insert | eraseOne | eraseIter => exact searchable
  | clear => trivial
  | eraseKey key =>
      intro after rounds
      have kept : Kept bounds tree after := by
        induction rounds with
        | refl => exact .refl holds
        | tail _ returned kept =>
            obtain ⟨found, last, returned', outcome⟩ := eraseOne_runs (kept.erases erases)
              (kept.invariant.searchable small) kept.invariant key
            rw [returned] at returned'
            obtain ⟨rfl, rfl⟩ := Prod.mk.inj (Except.ok.inj returned')
            rcases outcome with ⟨isFound, -⟩ | ⟨-, kept', -⟩
            · cases isFound
            · exact kept.trans kept'
      exact kept.invariant.searchable small

theorem Command.searchesIn_true (tree : BTree K D) (command : Command K D) :
    command.SearchesIn (fun _ => True) tree := by
  cases command with
  | eraseKey key => exact fun _ _ => trivial
  | _ => trivial

theorem ReachableIn.reachable {kind : BTree K D → Prop}
    (reached : ReachableIn kind sizes checks tree) : Reachable sizes checks tree := by
  induction reached with
  | refl => exact .refl
  | tail _ step runs =>
      obtain ⟨command, reply, valid, -, returned⟩ := step
      exact runs.tail ⟨command, reply, valid, command.searchesIn_true _, returned⟩

section Small

variable (small : bounds.Searchable) (erases : bounds.Erases sizes checks)
  (reached : Reachable sizes checks tree)

include small erases reached

/-- With small nodes every run is one that only searches in searchable trees. -/
theorem Reachable.searchable : ReachableIn BTree.Searchable sizes checks tree := by
  induction reached with
  | refl => exact .refl
  | tail _ step runs =>
      obtain ⟨command, reply, valid, -, returned⟩ := step
      have kept := runs.kept erases
      exact runs.tail ⟨command, reply, valid,
        command.searchesIn small (kept.erases erases) kept.invariant, returned⟩

theorem Reachable.kept : Kept bounds (BTree.empty sizes checks) tree :=
  (reached.searchable small erases).kept erases

theorem Reachable.perform_runs (command : Command K D) (valid : command.Valid tree) :
    RunsIf (command = .clear → ¬ tree.Wide) command.perform tree fun reply after =>
      Reachable sizes checks after ∧ command.Meets tree after reply := by
  have kept := reached.kept small erases
  have searches := command.searchesIn small (kept.erases erases) kept.invariant
  exact ((reached.searchable small erases).perform_runs erases command valid searches).mono
    fun _ _ outcome => ⟨outcome.1.reachable, outcome.2⟩

end Small

omit [LinearOrder K] [Inhabited K] in
theorem Command.valid_of_hasKey {command : Command K D} (hasKey : command.hasKey = true)
    (tree : BTree K D) : command.Valid tree := by
  cases command with
  | eraseIter iter => cases hasKey
  | _ => trivial

theorem Reachable.performAll {before after : BTree K D} {commands : List (Command K D)}
    (reached : Reachable sizes checks before)
    (haveKeys : ∀ command ∈ commands, command.hasKey = true)
    (returned : (performAll commands).run before = .ok ((), after)) :
    Reachable sizes checks after := by
  induction commands generalizing before with
  | nil =>
      cases returned
      exact reached
  | cons command rest ih =>
      have runs : Runs (Memory.performAll (command :: rest)) before fun _ final => final = after :=
        ⟨(), after, returned, rfl⟩
      rw [Memory.performAll, runs_bind] at runs
      obtain ⟨reply, middle, first, ⟨⟩, final, second, rfl⟩ := runs
      have valid := Command.valid_of_hasKey (haveKeys command (by simp)) before
      exact ih (reached.tail ⟨command, reply, valid, command.searchesIn_true before, first⟩)
        (fun other member => haveKeys other (by simp [member])) second

end PersistentBTree.Memory
