import PersistentBTree.Abstract.Stacks
import PersistentBTree.Memory.Guarantees

/-! What users of the in-memory `btree` may rely on when keys are equal: every key
has a stack of values of its own, and pairs that are inserted one after the other
are sorted by their keys, the later one first among equal keys. -/

set_option autoImplicit false

namespace PersistentBTree.Memory

open Imperative Multimap

variable {K D : Type} [LinearOrder K] [Inhabited K] {leafslotmax innerslotmax : Nat}
  {sizes : NodeSizes} {checks : Assertion → Bool} {tree : BTree K D}

namespace Command

/-- What a call with a key does to the stored pairs. -/
def onPairs : Command K D → List (K × D) → List (K × D)
  | .insert key value, pairs => put pairs key value
  | .eraseOne key, pairs => removeFirst pairs key
  | .eraseKey key, pairs => removeAll pairs key
  | .eraseIter _, pairs | .clear, pairs => pairs

/-- What a call with a key does to the values of one key. -/
def onStack (key : K) : Command K D → List D → List D
  | .insert other value, values => if other = key then value :: values else values
  | .eraseOne other, values => if other = key then values.tail else values
  | .eraseKey other, values => if other = key then [] else values
  | .eraseIter _, values | .clear, values => values

omit [Inhabited K] in
theorem stack_onPairs (command : Command K D) (pairs : List (K × D)) (key : K) :
    stack (command.onPairs pairs) key = command.onStack key (stack pairs key) := by
  cases command with
  | insert other value => exact stack_put pairs other key value
  | eraseOne other => exact stack_removeFirst pairs other key
  | eraseKey other => exact stack_removeAll pairs other key
  | eraseIter => rfl
  | clear => rfl

omit [Inhabited K] in
theorem Meets.contents_eq {before after : BTree K D} {command : Command K D} {reply : Reply}
    (meets : command.Meets before after reply) (hasKey : command.hasKey = true) :
    after.contents = command.onPairs before.contents := by
  cases command with
  | insert key value =>
      obtain ⟨iter, -, contents, -⟩ := meets
      exact contents
  | eraseOne key =>
      rcases meets with ⟨-, -, contents⟩ | ⟨-, absent, rfl⟩
      · exact contents
      · exact (removeFirst_of_absent absent).symm
  | eraseKey key => exact meets.2
  | eraseIter => cases hasKey
  | clear => cases hasKey

end Command

/-- Calls with a key return, one after the other. -/
theorem Reachable.performAll_runs {bounds : Bounds} (small : bounds.Searchable)
    (erases : bounds.Erases sizes checks) (reached : Reachable sizes checks tree)
    {commands : List (Command K D)}
    (haveKeys : ∀ command ∈ commands, command.hasKey = true) :
    Runs (Memory.performAll commands) tree fun _ after => Reachable sizes checks after ∧
      after.contents = commands.foldl (fun pairs command => command.onPairs pairs)
        tree.contents := by
  induction commands generalizing tree with
  | nil => exact (runs_pure ..).mpr ⟨reached, rfl⟩
  | cons command rest ih =>
      have hasKey : command.hasKey = true := haveKeys command (by simp)
      have noClear : command ≠ .clear := by
        rintro rfl
        cases hasKey
      rw [Memory.performAll, runs_bind]
      have valid := Command.valid_of_hasKey hasKey tree
      have returns := (reached.perform_runs small erases command valid).runs
        fun isClear => absurd isClear noClear
      apply returns.mono
      rintro reply middle ⟨reachedMiddle, meets⟩
      rw [List.foldl_cons, ← meets.contents_eq hasKey]
      exact ih reachedMiddle fun other member => haveKeys other (by simp [member])

omit [Inhabited K] in
private theorem stack_foldl (commands : List (Command K D)) (pairs : List (K × D)) (key : K) :
    stack (commands.foldl (fun pairs command => command.onPairs pairs) pairs) key =
      commands.foldl (fun values command => command.onStack key values) (stack pairs key) := by
  induction commands generalizing pairs with
  | nil => rfl
  | cons command rest ih => rw [List.foldl_cons, List.foldl_cons, ih, command.stack_onPairs]

/-- Calls with keys return, and they do to every key what they would do to a stack
of its values. No other multimap has these stacks. -/
theorem reachable_stacks (small : Small leafslotmax innerslotmax)
    (reached : Reachable (setNodeSize leafslotmax innerslotmax) checks tree)
    (commands : List (Command K D)) (haveKeys : ∀ command ∈ commands, command.hasKey = true) :
    Runs (performAll commands) tree fun _ after => ∀ pairs : List (K × D), Sorted pairs →
      ((∀ key, stack pairs key =
        commands.foldl (fun values command => command.onStack key values)
          (stack tree.contents key)) ↔ pairs = after.contents) := by
  have erases := small.erases checks
  apply (reached.performAll_runs small.searchable erases haveKeys).mono
  rintro _ after ⟨reachedAfter, contents⟩ pairs sorted
  have values : ∀ key, stack after.contents key = _ := fun key =>
    contents ▸ stack_foldl commands tree.contents key
  constructor
  · intro same
    apply eq_of_stacks sorted (reachedAfter.kept small.searchable erases).invariant.sorted
    intro key
    rw [same, values]
  · rintro rfl
    exact values

theorem reachable_stacks_duplicates : ∃ tree, (performAll duplicates).run
    (BTree.empty (setNodeSize 4 4) releaseBuild) = .ok ((), tree) ∧
      Runs (performAll [.insert 2 0, .eraseOne 5, .eraseOne 2]) tree fun _ after =>
        ∀ pairs : List (Nat × Nat), Sorted pairs →
          ((∀ key, stack pairs key =
            [Command.insert 2 0, .eraseOne 5, .eraseOne 2].foldl
              (fun values command => command.onStack key values) (stack tree.contents key)) ↔
            pairs = after.contents) := by
  obtain ⟨tree, returned, reached⟩ := exists_reachable (setNodeSize 4 4) releaseBuild duplicates
    (by decide) (by decide +kernel)
  exact ⟨tree, returned, reachable_stacks small_four reached _ (by decide)⟩

/-! ## Insertions -/

omit [Inhabited K] in
private theorem inserts_foldl (pairs : List (K × D)) {stored : List (K × D)}
    (sorted : Sorted stored) :
    Sorted ((pairs.map fun pair => Command.insert pair.1 pair.2).foldl
        (fun pairs command => command.onPairs pairs) stored) ∧
      (pairs.map fun pair => Command.insert pair.1 pair.2).foldl
          (fun pairs command => command.onPairs pairs) stored =
        (pairs.reverse ++ stored).insertionSort fun first second => first.1 ≤ second.1 := by
  induction pairs using List.reverseRecOn with
  | nil => exact ⟨sorted, (List.Pairwise.insertionSort_eq sorted).symm⟩
  | append_singleton pairs pair ih =>
      obtain ⟨sortedBefore, before⟩ := ih
      rw [List.map_append, List.foldl_append, List.reverse_append]
      refine ⟨(Next.put _ pair.1 pair.2).sorted sortedBefore, ?_⟩
      have inserted := sortedBefore.put_eq_orderedInsert pair.1 pair.2
      rw [before] at inserted
      rw [List.reverse_singleton, List.singleton_append, List.cons_append, List.insertionSort_cons,
        ← inserted, before]
      rfl

/-- Insertions one after the other sort the pairs, those inserted later first among
equal keys and the stored ones last. -/
theorem reachable_inserts (small : Small leafslotmax innerslotmax)
    (reached : Reachable (setNodeSize leafslotmax innerslotmax) checks tree)
    (pairs : List (K × D)) :
    Runs (performAll (pairs.map fun pair => .insert pair.1 pair.2)) tree fun _ after =>
      Reachable (setNodeSize leafslotmax innerslotmax) checks after ∧
        after.contents = (pairs.reverse ++ tree.contents).insertionSort
          fun first second => first.1 ≤ second.1 := by
  have erases := small.erases checks
  have haveKeys : ∀ command ∈ pairs.map fun pair : K × D => Command.insert pair.1 pair.2,
      command.hasKey = true := by
    intro command member
    obtain ⟨pair, -, rfl⟩ := List.mem_map.mp member
    rfl
  apply (reached.performAll_runs small.searchable erases haveKeys).mono
  rintro _ after ⟨reachedAfter, contents⟩
  exact ⟨reachedAfter, contents.trans
    (inserts_foldl pairs (reached.kept small.searchable erases).invariant.sorted).2⟩

theorem reachable_inserts_duplicates : ∃ tree, (performAll duplicates).run
    (BTree.empty (setNodeSize 4 4) releaseBuild) = .ok ((), tree) ∧
      Runs (performAll ([(2, 0), (6, 1), (2, 2)].map fun pair => .insert pair.1 pair.2)) tree
        fun _ after => Reachable (setNodeSize 4 4) releaseBuild after ∧
          after.contents = ([(2, 0), (6, 1), (2, 2)].reverse ++ tree.contents).insertionSort
            fun first second => first.1 ≤ second.1 := by
  obtain ⟨tree, returned, reached⟩ := exists_reachable (setNodeSize 4 4) releaseBuild duplicates
    (by decide) (by decide +kernel)
  exact ⟨tree, returned, reachable_inserts small_four reached _⟩

end PersistentBTree.Memory
