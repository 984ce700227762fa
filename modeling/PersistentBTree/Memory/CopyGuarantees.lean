import PersistentBTree.Memory.EqualCopies
import PersistentBTree.Memory.Guarantees
import PersistentBTree.Memory.StatisticsProperties

/-! What users may rely on when trees are assigned and copied: the statistics are
exact, and a copy is equal to its source when it can hold its nodes. -/

set_option autoImplicit false

namespace PersistentBTree.Memory

open Imperative Multimap

variable {K D : Type} [LinearOrder K] [Inhabited K] {leafslotmax innerslotmax : Nat}
  {sizes : NodeSizes} {checks : Assertion → Bool} {tree source : BTree K D}

/-! ## Statistics -/

/-- In every state of every run of calls and assignments the statistics are exact,
and the next one returns exactly when its loops can count the children. -/
theorem assembled_exact (suitable : Suitable leafslotmax innerslotmax)
    (assembled : AssembledIn BTree.Searchable (setNodeSize leafslotmax innerslotmax) checks tree)
    (change : Change K D)
    (valid : change.Valid BTree.Searchable (setNodeSize leafslotmax innerslotmax) checks tree)
    (searches : change.SearchesIn BTree.Searchable tree) :
    tree.Exact ∧ (Runs change.perform tree (fun _ after => after.Exact) ↔ change.Narrow tree) := by
  have erases := suitable.erases checks
  refine ⟨(assembled.kept erases).invariant.exact, ?_⟩
  exact ((assembled.perform_runs erases change valid searches).mono fun _ after assembledAfter =>
    (assembledAfter.kept erases).invariant.exact).runs_iff

theorem assembled_exact_duplicates : ∃ tree, (performAll duplicates).run
    (BTree.empty (setNodeSize 4 4) releaseBuild) = .ok ((), tree) ∧ tree.Exact ∧
      (Runs (Change.assign tree).perform tree (fun _ after => after.Exact) ↔
        (Change.assign tree).Narrow tree) := by
  obtain ⟨tree, returned, reached⟩ := exists_reachable (setNodeSize 4 4) releaseBuild duplicates
    (by decide) (by decide +kernel)
  have assembled := (reached.searchable small_four.searchable (small_four.erases _)).assembled
  exact ⟨tree, returned, assembled_exact small_four.toSuitable assembled (.assign tree) assembled
    trivial⟩

/-- In every run the statistics are exact, and every call and assignment returns. -/
def KeepsStatistics (kind : BTree K D → Prop) (sizes : NodeSizes) : Prop :=
  ∀ (checks : Assertion → Bool) (tree : BTree K D), AssembledIn kind sizes checks tree →
    tree.Exact ∧ ∀ change : Change K D, change.Valid kind sizes checks tree →
      change.SearchesIn kind tree → Runs change.perform tree fun _ after => after.Exact

omit [LinearOrder K] [Inhabited K] in
private theorem Forest.length_pairs_le {forest : Forest K D} {most : Nat}
    (small : ∀ kid ∈ forest, kid.pairs.length ≤ most) :
    (Forest.pairs forest).length ≤ forest.length * most := by
  induction forest with
  | nil => simp
  | cons kid forest ih =>
      have first := small kid (by simp)
      have rest := ih fun other member => small other (by simp [member])
      rw [Forest.pairs_cons, List.length_append, List.length_cons, Nat.succ_mul]
      omega

omit [LinearOrder K] [Inhabited K] in
/-- A narrow tree whose inner nodes, but for the root, are wide has no inner node
besides the root. -/
private theorem WellFormed.length_pairs_le {bounds : Bounds} {least height : Nat} {sub : Tree K D}
    (tall : 2 ^ 16 ≤ bounds.innerMin + 1) (formed : WellFormed bounds least height sub)
    (narrow : sub.Narrow) : sub.pairs.length < 2 ^ 16 * (bounds.leafMax + 1) := by
  cases height with
  | zero =>
      obtain ⟨ptr, pairs, rfl⟩ := formed.exists_leaf
      have most : pairs.length ≤ bounds.leafMax := formed.2
      rw [Tree.pairs_leaf]
      omega
  | succ height =>
      obtain ⟨ptr, keys, kids, rfl⟩ := formed.exists_inner
      obtain ⟨-, -, count, -, kidsFormed⟩ := formed
      obtain ⟨few, kidsNarrow⟩ := (Tree.narrow_inner ..).mp narrow
      cases height with
      | zero =>
          have small : ∀ kid ∈ kids, kid.pairs.length ≤ bounds.leafMax := by
            intro kid member
            obtain ⟨ptr, pairs, rfl⟩ := (kidsFormed kid member).exists_leaf
            rw [Tree.pairs_leaf]
            exact (kidsFormed _ member).2
          rw [Tree.pairs_inner]
          calc (Forest.pairs kids).length
              ≤ kids.length * bounds.leafMax := Forest.length_pairs_le small
            _ ≤ 2 ^ 16 * bounds.leafMax := Nat.mul_le_mul_right _ (Nat.le_of_lt few)
            _ < 2 ^ 16 * (bounds.leafMax + 1) := by omega
      | succ height =>
          obtain ⟨kid, member⟩ : ∃ kid, kid ∈ kids := List.exists_mem_of_length_pos (by omega)
          have kidFormed := kidsFormed kid member
          obtain ⟨ptr, below, others, rfl⟩ := kidFormed.exists_inner
          have kidFew := ((Tree.narrow_inner ..).mp (kidsNarrow _ member)).1
          have enough : bounds.innerMin ≤ below.length := kidFormed.1
          have kidCount : others.length = below.length + 1 := kidFormed.2.2.1
          omega

private theorem Reachable.inserts {bounds : Bounds} (small : bounds.Searchable)
    (erases : bounds.Erases sizes checks) (reached : Reachable sizes checks tree) (key : K)
    (value : D) (count : Nat) :
    Runs (Memory.performAll (List.replicate count (Command.insert key value))) tree fun _ after =>
      Reachable sizes checks after ∧ after.contents.length = tree.contents.length + count := by
  induction count generalizing tree with
  | zero => exact (runs_pure ..).mpr ⟨reached, rfl⟩
  | succ count ih =>
      rw [List.replicate_succ, Memory.performAll, runs_bind]
      refine ((reached.perform_runs small erases (.insert key value) trivial).runs
        fun isClear => by cases isClear).mono ?_
      rintro _ middle ⟨reachedMiddle, iter, -, contents, -⟩
      refine (ih reachedMiddle).mono fun _ after outcome => ⟨outcome.1, ?_⟩
      rw [outcome.2, contents, length_put]
      omega

/-- With such sizes inner nodes that are not the root have 2^16 children or more.
After so many insertions there is one, or the root has as many, and `clear` deletes
a node twice. -/
theorem not_keepsStatistics_wide :
    ¬ KeepsStatistics (fun _ : BTree Nat Nat => True) (setNodeSize 131072 131072) := by
  intro keeps
  have small : Small 131072 131072 :=
    ⟨⟨by decide, by decide, by decide⟩, by decide, by decide⟩
  have erases := small.erases releaseBuild
  obtain ⟨_, tree, -, reached, many⟩ := Reachable.inserts small.searchable erases
    (.empty (setNodeSize 131072 131072) releaseBuild) 0 0 (2 ^ 16 * 131073)
  have clears := (keeps releaseBuild tree (ReachableIn.assembled reached)).2 (.call .clear) trivial
    trivial
  have outcome := (reached.searchable small.searchable erases).assembled.perform_runs erases
    (.call .clear) trivial trivial
  have narrow : ¬ tree.Wide := fun wide =>
    clears.not_faults (outcome.faults fun fine => fine rfl wide)
  have few : tree.contents.length < 2 ^ 16 * (131072 + 1) := by
    have invariant := (reached.kept small.searchable erases).invariant
    rcases invariant.shape with vacant | ⟨height, sub, intact⟩
    · rw [BTree.contents, vacant.leafBlocks_eq, pairsIn_nil]
      decide
    · rw [intact.contents_eq]
      exact intact.wellFormed.length_pairs_le (by decide) (intact.whole.narrow_iff.mpr narrow)
  omega

/-! ## Copies -/

omit [LinearOrder K] [Inhabited K] in
/-- A copy of any tree, assigned to any tree or constructed, is an equal tree that
is fit for further calls exactly when the nodes fit the sizes of the object that
holds the copy. -/
theorem copies_iff (isSource : source.IsTree) (isTree : tree.IsTree) :
    (Runs (copyConstruct source) (BTree.uninitialised sizes checks source)
        (fun _ after => source.CopyOf after) ↔ source.HeldBy sizes ∧ ¬ source.Wide) ∧
      (Runs (assign source) tree (fun _ after => source.CopyOf after) ↔
        ¬ tree.Wide ∧ source.HeldBy tree.sizes ∧ ¬ source.Wide) :=
  ⟨copyConstruct_copyOf_iff isSource sizes checks, assign_copyOf_iff isTree isSource⟩

theorem ReachableIn.isTree (suitable : Suitable leafslotmax innerslotmax)
    (reached : ReachableIn BTree.Searchable (setNodeSize leafslotmax innerslotmax) checks tree) :
    tree.IsTree :=
  (reached.kept (suitable.erases checks)).invariant.isTree

theorem copies_iff_duplicates : ∃ source, (performAll duplicates).run
    (BTree.empty (setNodeSize 8 8) releaseBuild) = .ok ((), source) ∧
      (Runs (copyConstruct source) (BTree.uninitialised (setNodeSize 4 4) releaseBuild source)
          (fun _ after => source.CopyOf after) ↔
        source.HeldBy (setNodeSize 4 4) ∧ ¬ source.Wide) ∧
      (Runs (assign source) source (fun _ after => source.CopyOf after) ↔
        ¬ source.Wide ∧ source.HeldBy source.sizes ∧ ¬ source.Wide) := by
  obtain ⟨source, returned, reached⟩ := exists_reachable (setNodeSize 8 8) releaseBuild duplicates
    (by decide) (by decide +kernel)
  have small : Small 8 8 := ⟨⟨by decide, by decide, by decide⟩, by decide, by decide⟩
  have isTree :=
    (reached.searchable small.searchable (small.erases releaseBuild)).isTree small.toSuitable
  exact ⟨source, returned, copies_iff isTree isTree⟩

/-- Every copy construction of a reachable tree makes an equal tree, whatever node
sizes are found in the memory of the new object. -/
def ConstructsEqual (K D : Type) [LinearOrder K] [Inhabited K] : Prop :=
  ∀ (leafslotmax innerslotmax : Nat) (checks : Assertion → Bool) (source : BTree K D),
    Reachable (setNodeSize leafslotmax innerslotmax) checks source → ∀ sizes : NodeSizes,
      Runs (copyConstruct source) (BTree.uninitialised sizes checks source) fun _ after =>
        source.CopyOf after

/-- Every assignment of a reachable tree to another one makes an equal tree. -/
def AssignsEqual (K D : Type) [LinearOrder K] [Inhabited K] : Prop :=
  ∀ (leafslotmax innerslotmax leafslots innerslots : Nat) (checks : Assertion → Bool)
    (source tree : BTree K D), Reachable (setNodeSize leafslotmax innerslotmax) checks source →
      Reachable (setNodeSize leafslots innerslots) checks tree →
        Runs (assign source) tree fun _ after => source.CopyOf after

/-- The outcome of a program on the tree that some calls lead to. -/
private def faultAfter (commands : List (Command Nat Nat)) (sizes : NodeSizes)
    (outcome : BTree Nat Nat → Option Fault) : Option Fault :=
  match (performAll commands).run (BTree.empty sizes releaseBuild) with
  | .ok (_, source) => outcome source
  | .error fault => some fault

/-- A leaf of eight pairs does not fit into an object whose leaves hold four. -/
theorem not_copiesEqual : ¬ ConstructsEqual Nat Nat ∧ ¬ AssignsEqual Nat Nat := by
  obtain ⟨source, returned, reached⟩ := exists_reachable (setNodeSize 8 8) releaseBuild duplicates
    (by decide) (by decide +kernel)
  constructor
  · intro equal
    have stops : faultAfter duplicates (setNodeSize 8 8) (fun source => faultOf
        ((copyConstruct source).run (BTree.uninitialised (setNodeSize 4 4) releaseBuild source))) =
          some .outOfBounds := by
      decide +kernel
    obtain ⟨⟨⟩, after, copied, -⟩ := equal 8 8 releaseBuild source reached (setNodeSize 4 4)
    simp only [faultAfter, returned, copied, faultOf] at stops
    cases stops
  · intro equal
    have stops : faultAfter duplicates (setNodeSize 8 8) (fun source => faultOf
        ((assign source).run (BTree.empty (setNodeSize 4 4) releaseBuild))) =
          some .outOfBounds := by
      decide +kernel
    obtain ⟨⟨⟩, after, copied, -⟩ := equal 8 8 4 4 releaseBuild source _ reached
      (.empty (setNodeSize 4 4) releaseBuild)
    simp only [faultAfter, returned, copied, faultOf] at stops
    cases stops

end PersistentBTree.Memory
