import PersistentBTree.Memory.LargeNodes
import PersistentBTree.Memory.StructureProperties

/-! What users of the in-memory `btree` may rely on in every run: it is an ordered
multimap, its nodes form a B+ tree, no assertion fails, and, with node sizes that
are close enough, no node leaves its bounds. All this ends where the sums of two
slots leave the range of an `int`, so it is said of runs that only search in trees of
some kind: the searchable ones, or all. -/

set_option autoImplicit false

namespace PersistentBTree.Memory

open Imperative Multimap

variable {K D : Type} [LinearOrder K] [Inhabited K] {leafslotmax innerslotmax : Nat}
  {checks : Assertion → Bool} {tree : BTree K D}

/-- The node sizes that the guarantees ask for: leaves are at least as large as inner
nodes. -/
structure Suitable (leafslotmax innerslotmax : Nat) : Prop where
  innerSome : 2 ≤ (setNodeSize leafslotmax innerslotmax).mininnerslots
  ordered : (setNodeSize leafslotmax innerslotmax).mininnerslots ≤
    (setNodeSize leafslotmax innerslotmax).minleafslots
  isUnsigned : innerslotmax < 2 ^ 32

omit [LinearOrder K] [Inhabited K] in
theorem Suitable.erases (suitable : Suitable leafslotmax innerslotmax)
    (checks : Assertion → Bool) :
    (setNodeSize leafslotmax innerslotmax).bounds.Erases (setNodeSize leafslotmax innerslotmax)
      checks :=
  erases_setNodeSize (suitable.innerSome.trans suitable.ordered) suitable.innerSome
    (Nat.le_succ_of_le suitable.ordered) (fun _ => suitable.ordered) suitable.isUnsigned

/-- No node of these sizes is too large for the sums of its binary search. -/
structure Small (leafslotmax innerslotmax : Nat) : Prop extends
    Suitable leafslotmax innerslotmax where
  leafSmall : leafslotmax ≤ 2 ^ 30
  innerSmall : innerslotmax ≤ 2 ^ 30

omit [LinearOrder K] [Inhabited K] in
theorem Small.searchable (small : Small leafslotmax innerslotmax) :
    (setNodeSize leafslotmax innerslotmax).bounds.Searchable :=
  ⟨small.leafSmall, small.innerSmall⟩

theorem exists_reachable (sizes : NodeSizes) (checks : Assertion → Bool)
    (commands : List (Command K D)) (haveKeys : ∀ command ∈ commands, command.hasKey = true)
    (returned : ((performAll commands).run (BTree.empty sizes checks)).isOk = true) :
    ∃ after, (performAll commands).run (BTree.empty sizes checks) = .ok ((), after) ∧
      Reachable sizes checks after := by
  cases result : (performAll commands).run (BTree.empty sizes checks) with
  | error fault =>
      rw [result] at returned
      cases returned
  | ok outcome =>
      obtain ⟨⟨⟩, after⟩ := outcome
      exact ⟨after, rfl, .performAll (.empty sizes checks) haveKeys result⟩

/-- A run whose leaves split and hold one key several times. -/
def duplicates : List (Command Nat Nat) :=
  [3, 1, 2, 2, 5, 2, 4, 2].map fun key => .insert key (10 * key)

theorem small_four : Small 4 4 := ⟨⟨by decide, by decide, by decide⟩, by decide, by decide⟩

/-! ## The multimap -/

/-- In every state of every run, every call returns and does what it is for. -/
def KeepsMultimap (kind : BTree K D → Prop) (sizes : NodeSizes) : Prop :=
  ∀ (checks : Assertion → Bool) (tree : BTree K D), ReachableIn kind sizes checks tree →
    ∀ command : Command K D, command.Valid tree → command.SearchesIn kind tree →
      command ≠ .clear → Runs command.perform tree fun reply after =>
        ReachableIn kind sizes checks after ∧ command.Meets tree after reply

theorem keepsMultimap_of_suitable (suitable : Suitable leafslotmax innerslotmax) :
    KeepsMultimap (@BTree.Searchable K D) (setNodeSize leafslotmax innerslotmax) :=
  fun checks _ reached command valid searches noClear =>
    (reached.perform_runs (suitable.erases checks) command valid searches).runs fun isClear =>
      absurd isClear noClear

theorem keepsMultimap_four : KeepsMultimap (@BTree.Searchable Nat Nat) (setNodeSize 4 4) :=
  keepsMultimap_of_suitable small_four.toSuitable

/-- The key 0 fills a leaf up to a pair too many for the search for the key 1. -/
theorem not_keepsMultimap_large :
    ¬ KeepsMultimap (fun _ : BTree Nat Nat => True) (setNodeSize (2 ^ 31) 8) := by
  intro keeps
  obtain ⟨tree, -, reached, -, -, faults, -⟩ := exists_unsearchable (setNodeSize (2 ^ 31) 8)
    (by decide) (by decide) (by decide) releaseBuild Nat.one_pos 0
  have performs := keeps releaseBuild tree reached (.insert 1 0) trivial trivial (by simp)
  exact performs.not_faults faults.bind

/-! ## The nodes -/

/-- Every run leads to a B+ tree. -/
def KeepsSound (kind : BTree K D → Prop) (sizes : NodeSizes) : Prop :=
  ∀ (checks : Assertion → Bool) (tree : BTree K D), ReachableIn kind sizes checks tree → tree.Sound

theorem keepsSound_of_suitable (suitable : Suitable leafslotmax innerslotmax) :
    KeepsSound (@BTree.Searchable K D) (setNodeSize leafslotmax innerslotmax) :=
  fun checks _ reached =>
    (reached.kept (suitable.erases checks)).invariant.sound (suitable.erases checks).positive

theorem keepsSound_four : KeepsSound (@BTree.Searchable Nat Nat) (setNodeSize 4 4) :=
  keepsSound_of_suitable small_four.toSuitable

/-- Behind 2^31 pairs with the key 0 the number of used slots is negative as an `int`,
and a pair with the key 1 is put before them. -/
theorem not_keepsSound_large :
    ¬ KeepsSound (fun _ : BTree Nat Nat => True) (setNodeSize (2 ^ 32 - 1) 8) := by
  intro keeps
  obtain ⟨tree, reached, unsorted⟩ := exists_unsorted (setNodeSize (2 ^ 32 - 1) 8) (by decide)
    (by decide) (by decide) releaseBuild Nat.one_pos 0
  exact unsorted (keeps releaseBuild tree reached).sorted

/-! ## Assertions -/

/-- In every run, calls return, and they leave every node within its bounds. The
assertion that two leaves fit into one is left out, the others may be compiled in:
in a shift the donor holds more slots than the receiver. -/
def KeepsBounds (kind : BTree K D → Prop) (sizes : NodeSizes) : Prop :=
  ∀ checks : Assertion → Bool, checks .fits = false → ∀ tree : BTree K D,
    ReachableIn kind sizes checks tree → tree.Filled ∧
      ∀ command : Command K D, command.Valid tree → command.SearchesIn kind tree →
        command ≠ .clear → ∃ reply after, command.perform.run tree = .ok (reply, after)

theorem keepsBounds_of_close (leafLarge : 8 ≤ leafslotmax) (innerLarge : 8 ≤ innerslotmax)
    (atLeast : (setNodeSize leafslotmax innerslotmax).minleafslots ≤
      (setNodeSize leafslotmax innerslotmax).mininnerslots)
    (close : (setNodeSize leafslotmax innerslotmax).mininnerslots ≤
      (setNodeSize leafslotmax innerslotmax).minleafslots + 1)
    (isUnsigned : innerslotmax < 2 ^ 32) :
    KeepsBounds (@BTree.Searchable K D) (setNodeSize leafslotmax innerslotmax) := by
  intro checks noFits tree reached
  have erases : (setNodeSize leafslotmax innerslotmax).bounds.Erases _ checks :=
    erases_setNodeSize (by omega) (by omega) close (fun isFits => by simp [noFits] at isFits)
      isUnsigned
  have kept := reached.kept erases
  have sized : tree.sizes = setNodeSize leafslotmax innerslotmax := kept.sizes
  refine ⟨BTree.Invariant.filled (sized ▸ kept.invariant) (by rwa [sized]),
    fun command valid searches noClear => ?_⟩
  obtain ⟨reply, after, returned, -⟩ := (reached.perform_runs erases command valid searches).runs
    fun isClear => absurd isClear noClear
  exact ⟨reply, after, returned⟩

theorem keepsBounds_of_close_ten : KeepsBounds (@BTree.Searchable Nat Nat) (setNodeSize 8 10) :=
  keepsBounds_of_close (by decide) (by decide) (by decide) (by decide) (by decide)

/-- Calls with a key return in all states when bounds are kept. -/
private theorem KeepsBounds.performAll {sizes : NodeSizes}
    (keeps : KeepsBounds (fun _ : BTree K D => True) sizes)
    (noFits : checks .fits = false) {commands : List (Command K D)}
    (haveKeys : ∀ command ∈ commands, command.hasKey = true)
    (reached : Reachable sizes checks tree) : Runs (performAll commands) tree fun _ _ => True := by
  induction commands generalizing tree with
  | nil => exact (runs_pure ..).mpr trivial
  | cons command rest ih =>
      have hasKey := haveKeys command (by simp)
      have valid := Command.valid_of_hasKey hasKey tree
      have noClear : command ≠ .clear := by
        rintro rfl
        cases hasKey
      have searches := command.searchesIn_true tree
      obtain ⟨reply, after, returned⟩ :=
        (keeps checks noFits tree reached).2 command valid searches noClear
      rw [Memory.performAll, runs_bind]
      exact ⟨reply, after, returned, ih (fun other member => haveKeys other (by simp [member]))
        (reached.tail ⟨command, reply, valid, searches, returned⟩)⟩

/-- Twelve ascending keys and the last one erased. -/
def overflowing : List (Command Nat Nat) :=
  (List.range 12).map (fun key => .insert key key) ++ [.eraseOne 11]

/-- The fault that stopped a run. -/
def faultOf {α : Type} : Except Fault α → Option Fault
  | .ok _ => none
  | .error fault => some fault

/-- With keys of 4 bytes and data of 28 bytes the traits give leaves of 8 pairs and
inner nodes of 21 keys: a leaf of 7 pairs underflows, and is merged with one of 4. -/
theorem not_keepsBounds_traits :
    faultOf ((performAll overflowing).run (BTree.empty (defaultMapTraits 4 28) releaseBuild)) =
        some .outOfBounds ∧
      ¬ KeepsBounds (fun _ : BTree Nat Nat => True) (defaultMapTraits 4 28) := by
  have stops : faultOf ((performAll overflowing).run
      (BTree.empty (defaultMapTraits 4 28) releaseBuild)) = some .outOfBounds := by decide +kernel
  refine ⟨stops, fun keeps => ?_⟩
  have haveKeys : ∀ command ∈ overflowing, command.hasKey = true := by decide
  obtain ⟨_, after, returned, -⟩ := keeps.performAll rfl haveKeys (.empty _ releaseBuild)
  rw [returned] at stops
  cases stops

end PersistentBTree.Memory
