import PersistentBTree.Memory.RemovalProperties

/-! `clear` deletes every node. Its loop counts children in an `unsigned short`:
a node with 2^16 children or more makes it start over at the first child, which
was deleted. -/

set_option autoImplicit false

namespace PersistentBTree.Memory

open Imperative Multimap

variable {K D : Type} {tree : BTree K D} {height : Nat}

/-- The nodes `gone` are deleted, and the other ones are as they were. -/
structure Cleared (before after : BTree K D) (gone : Multiset Ptr) : Prop where
  deleted : ∀ ptr ∈ gone, after.heap ptr = none
  kept : ∀ ptr ∉ gone, after.heap ptr = before.heap ptr
  sizes : after.sizes = before.sizes
  checks : after.checks = before.checks

namespace Cleared

variable {before middle after : BTree K D} {gone more : Multiset Ptr}

theorem refl (tree : BTree K D) : Cleared tree tree 0 := ⟨by simp, fun _ _ => rfl, rfl, rfl⟩

theorem trans (first : Cleared before middle gone) (second : Cleared middle after more) :
    Cleared before after (gone + more) where
  deleted ptr member := by
    by_cases again : ptr ∈ more
    · exact second.deleted ptr again
    · rw [second.kept ptr again]
      exact first.deleted ptr ((Multiset.mem_add.mp member).resolve_right again)
  kept ptr outside := by
    rw [Multiset.mem_add, not_or] at outside
    rw [second.kept ptr outside.2, first.kept ptr outside.1]
  sizes := second.sizes.trans first.sizes
  checks := second.checks.trans first.checks

theorem freed (tree : BTree K D) (ptr : Ptr) (level : Nat) :
    Cleared tree (tree.freed ptr level) {ptr} where
  deleted other member := by
    rw [Multiset.mem_singleton.mp member]
    exact BTree.heap_setNode_self ..
  kept other outside := BTree.heap_setNode_of_ne tree none (by simpa using outside)
  sizes := rfl
  checks := rfl

theorem represents (cleared : Cleared before after gone) {sub : Tree K D}
    (stored : before.Represents height sub) (apart : ∀ ptr ∈ sub.foot, ptr ∉ gone) :
    after.Represents height sub :=
  stored.congr cleared.sizes fun ptr within => by
    rw [BTree.content, BTree.content, cleared.kept ptr (apart ptr within)]

theorem innerAt (cleared : Cleared before after gone) {ptr : Ptr} {level : Nat} {keys : List K}
    {children : List Ptr} (stored : before.InnerAt ptr level keys children) (apart : ptr ∉ gone) :
    after.InnerAt ptr level keys children :=
  stored.congr cleared.sizes (by rw [BTree.content, BTree.content, cleared.kept ptr apart])

end Cleared

/-- No inner node has more than `most` children. -/
def Tree.Branches (most : Nat) : Tree K D → Prop
  | .leaf _ _ => True
  | .inner _ _ kids => kids.length ≤ most ∧ ∀ kid ∈ kids, kid.Branches most

@[simp] theorem Tree.branches_leaf (most : Nat) (ptr : Ptr) (pairs : List (K × D)) :
    (Tree.leaf ptr pairs).Branches most := by
  rw [Branches]
  trivial

@[simp] theorem Tree.branches_inner (most : Nat) (ptr : Ptr) (keys : List K)
    (kids : Forest K D) :
    (Tree.inner ptr keys kids).Branches most ↔
      kids.length ≤ most ∧ ∀ kid ∈ kids, kid.Branches most := by
  rw [Branches]

/-- No inner node has so many children that the loop starts over. -/
def Tree.Narrow (tree : Tree K D) : Prop := tree.Branches (2 ^ 16 - 1)

@[simp] theorem Tree.narrow_leaf (ptr : Ptr) (pairs : List (K × D)) :
    (Tree.leaf ptr pairs).Narrow :=
  branches_leaf ..

@[simp] theorem Tree.narrow_inner (ptr : Ptr) (keys : List K) (kids : Forest K D) :
    (Tree.inner ptr keys kids).Narrow ↔ kids.length < 2 ^ 16 ∧ ∀ kid ∈ kids, kid.Narrow := by
  rw [Narrow, branches_inner]
  exact and_congr_left fun _ => Nat.le_sub_one_iff_lt (by decide)

/-- Some inner node has so many children. -/
def BTree.Wide (tree : BTree K D) : Prop :=
  ∃ ptr node, tree.heap ptr = some (.inner node) ∧ 2 ^ 16 ≤ node.slotuse + 1

namespace BTree

variable {sub : Tree K D} {most : Nat}

theorem Represents.branches_iff (stored : tree.Represents height sub) :
    sub.Branches most ↔ ∀ ptr ∈ sub.foot, ∀ node, tree.heap ptr = some (.inner node) →
      node.slotuse + 1 ≤ most := by
  induction height generalizing sub with
  | zero =>
      obtain ⟨ptr, pairs, rfl⟩ := stored.exists_leaf
      obtain ⟨leaf, found, -⟩ := stored
      simp [found]
  | succ height ih =>
      obtain ⟨ptr, keys, kids, rfl⟩ := stored.exists_inner
      obtain ⟨⟨inner, found, -, stores⟩, below⟩ := stored
      have count := stores.count
      rw [List.length_map, ← stores.used] at count
      have top : kids.length ≤ most ↔
          ∀ node, tree.heap ptr = some (.inner node) → node.slotuse + 1 ≤ most := by
        simp [found, count]
      rw [Tree.branches_inner, Tree.foot_inner, Multiset.forall_mem_cons, top]
      refine and_congr_right fun _ => ⟨fun each other inFoot => ?_, fun each kid member => ?_⟩
      · obtain ⟨kid, member, inKid⟩ := Forest.mem_foot.mp inFoot
        exact (ih (below kid member)).mp (each kid member) other inKid
      · exact (ih (below kid member)).mpr fun other inKid =>
          each other (Forest.mem_foot.mpr ⟨kid, member, inKid⟩)

/-- How many children the inner nodes have can be seen from the shape. -/
theorem Stored.branches_iff (whole : tree.Stored height sub) :
    sub.Branches most ↔
      ∀ ptr node, tree.heap ptr = some (.inner node) → node.slotuse + 1 ≤ most := by
  refine whole.stored.branches_iff.trans (forall_congr' fun ptr => ?_)
  exact ⟨fun each node found => each (whole.allocated ptr (by simp [found])) node found,
    fun each _ => each⟩

theorem Stored.narrow_iff (whole : tree.Stored height sub) : sub.Narrow ↔ ¬ tree.Wide := by
  rw [Tree.Narrow, whole.branches_iff, Wide]
  simp only [not_exists, not_and, not_le]
  exact forall₃_congr fun _ _ _ => Nat.le_sub_one_iff_lt (by decide)

end BTree

theorem BTree.Vacant.not_wide (vacant : tree.Vacant) : ¬ tree.Wide := by
  rintro ⟨ptr, node, found, -⟩
  rw [vacant.unused ptr] at found
  cases found

theorem getNode_faults {ptr : Ptr} (deleted : tree.heap ptr = none) :
    Faults (getNode ptr : M K D (Node K D)) tree :=
  Runs.faults_bind (by simp [deleted, orFault, faults_throw])

/-- Deleting what is below a deleted node stops the program. -/
private theorem clearRecursive_deleted {ptr : Ptr} {fuel : Nat} (deleted : tree.heap ptr = none) :
    Faults (clearRecursive fuel ptr) tree := by
  cases fuel with
  | zero => exact faults_throw ..
  | succ fuel => exact (getNode_faults deleted).bind

/-- The loop starts over at a child that was deleted. -/
private theorem clearChildren_again {inner : Ptr} {level fuel : Nat} {keys : List K}
    {first : Ptr} {children : List Ptr} {clear : Ptr → M K D Unit}
    (stored : tree.InnerAt inner level keys (first :: children))
    (faults : Faults (clear first) tree) : Faults (clearChildren inner clear fuel 0) tree := by
  obtain ⟨node, found, -, stores⟩ := stored
  have held : node.childid.Holds ([] ++ first :: children) := stores.children
  cases fuel with
  | zero =>
      refine Runs.faults_bind ((runs_getInner ..).mpr ⟨node, found, ?_⟩)
      rw [if_pos (Nat.succ_pos _)]
      exact faults_throw ..
  | succ fuel =>
      refine Runs.faults_bind ((runs_getInner ..).mpr ⟨node, found, ?_⟩)
      rw [if_pos (Nat.succ_pos _)]
      refine Runs.faults_bind ((runs_readSlot ..).mpr ⟨first, held.read, ?_⟩)
      exact faults.bind

/-- The loop deletes the children `back` and all that is below them. -/
private theorem clearChildren_runs {inner : Ptr} {level : Nat} {keys : List K}
    {front back : Forest K D} {clear : Ptr → M K D Unit}
    (stored : tree.InnerAt inner level keys ((front ++ back).map Tree.ptr))
    (below : ∀ kid ∈ back, tree.Represents height kid)
    (nodup : (inner ::ₘ Forest.foot back).Nodup) (started : front.length < 2 ^ 16)
    (deleted : ∀ kid ∈ front, tree.heap kid.ptr = none)
    (clears : ∀ kid ∈ back, ∀ state : BTree K D, state.Represents height kid →
      RunsIf kid.Narrow (clear kid.ptr) state
        fun _ after => Cleared state after (kid.foot.erase kid.ptr))
    (faults : ∀ ptr (state : BTree K D), state.heap ptr = none → Faults (clear ptr) state) :
    RunsIf ((front ++ back).length < 2 ^ 16 ∧ ∀ kid ∈ back, kid.Narrow)
      (clearChildren inner clear back.length front.length) tree
      fun _ after => Cleared tree after (Forest.foot back) := by
  induction back generalizing tree front with
  | nil =>
      obtain ⟨node, found, -, stores⟩ := stored
      have count := stores.count
      simp only [List.append_nil, List.length_map] at count
      refine .of_runs ?_ (by simpa using started)
      simp only [List.length_nil, clearChildren, runs_bind, runs_getInner]
      refine ⟨node, found, ?_⟩
      rw [if_neg (by rw [stores.used]; omega), runs_pure]
      exact .refl tree
  | cons kid back ih =>
      obtain ⟨node, found, isLevel, stores⟩ := id stored
      have count := stores.count
      simp only [List.length_map, List.length_append, List.length_cons] at count
      have held := stores.children
      rw [List.map_append, List.map_cons] at held
      have read := held.read
      rw [List.length_map] at read
      rw [Forest.foot_cons] at nodup ⊢
      obtain ⟨notInner, separate⟩ := Multiset.nodup_cons.mp nodup
      rw [Multiset.mem_add, not_or] at notInner
      obtain ⟨kidNodup, backNodup, disjoint⟩ := Multiset.nodup_add.mp separate
      rw [List.length_cons, clearChildren]
      refine .after ((runs_getInner ..).mpr ⟨node, found, ?_⟩)
      rw [if_pos (by rw [stores.used]; omega)]
      refine .after ((runs_readSlot ..).mpr ⟨kid.ptr, read, ?_⟩)
      have narrow : (kid.Narrow ∧ (front ++ kid :: back).length < 2 ^ 16 ∧
          ∀ other ∈ back, other.Narrow) ↔ (front ++ kid :: back).length < 2 ^ 16 ∧
            ∀ other ∈ kid :: back, other.Narrow := by
        rw [List.forall_mem_cons, and_left_comm]
      refine ((clears kid (by simp) tree (below kid (by simp))).bind
        fun _ middle cleared => ?_).congr narrow
      have present : ∃ kidNode, middle.heap kid.ptr = some kidNode := by
        obtain ⟨kidNode, kidFound, -⟩ := (below kid (by simp)).exists_node
        refine ⟨kidNode, (cleared.kept kid.ptr ?_).trans kidFound⟩
        exact kidNodup.notMem_erase
      obtain ⟨kidNode, kidFound⟩ := present
      refine .after (freeNode_runs kidFound ?_)
      have all : Cleared tree (middle.freed kid.ptr kidNode.level) kid.foot := by
        have both := cleared.trans (Cleared.freed middle kid.ptr kidNode.level)
        rwa [add_comm, Multiset.singleton_add, Multiset.cons_erase kid.ptr_mem_foot] at both
      have storedNow := all.innerAt stored notInner.1
      have deletedNow : ∀ other ∈ front ++ [kid],
          (middle.freed kid.ptr kidNode.level).heap other.ptr = none := by
        intro other member
        by_cases within : other.ptr ∈ kid.foot
        · exact all.deleted other.ptr within
        · rw [all.kept other.ptr within]
          rcases List.mem_append.mp member with inFront | isKid
          · exact deleted other inFront
          · rw [List.mem_singleton.mp isKid] at within
            exact absurd kid.ptr_mem_foot within
      rw [List.append_cons] at storedNow
      by_cases small : front.length + 1 < 2 ^ 16
      · have belowNow : ∀ other ∈ back,
            (middle.freed kid.ptr kidNode.level).Represents height other := fun other member =>
          all.represents (below other (by simp [member])) fun ptr within inKid =>
            Multiset.disjoint_left.mp disjoint inKid
              (Multiset.mem_of_le (Forest.foot_le_of_mem member) within)
        have rest := ih storedNow belowNow
          (Multiset.nodup_cons.mpr ⟨notInner.2, backNodup⟩) (by simpa using small) deletedNow
          fun other member => clears other (by simp [member])
        rw [← List.append_cons, @List.length_append _ front [kid],
          List.length_singleton] at rest
        rw [Nat.mod_eq_of_lt small]
        exact rest.mono fun _ after cleared => all.trans cleared
      · have wraps : front.length + 1 = 2 ^ 16 := by omega
        obtain ⟨first, more, isCons⟩ := List.exists_cons_of_ne_nil (l := front ++ [kid]) (by simp)
        rw [isCons, List.cons_append, List.map_cons] at storedNow
        rw [wraps, Nat.mod_self]
        refine .inr ⟨fun narrow => ?_, clearChildren_again storedNow
          (faults _ _ (deletedNow first ?_))⟩
        · have short := narrow.1
          rw [← wraps, List.length_append, List.length_cons] at short
          omega
        · simp [isCons]

theorem clearRecursive_runs {sub : Tree K D} (stored : tree.Represents height sub)
    (nodup : sub.foot.Nodup) : RunsIf sub.Narrow (clearRecursive (height + 1) sub.ptr) tree
      fun _ after => Cleared tree after (sub.foot.erase sub.ptr) := by
  induction height generalizing tree sub with
  | zero =>
      obtain ⟨ptr, pairs, rfl⟩ := stored.exists_leaf
      obtain ⟨node, found, -⟩ := stored
      refine .after ((runs_getNode ..).mpr ⟨_, found, .of_runs ?_ (Tree.narrow_leaf ..)⟩)
      rw [runs_pure]
      simpa using Cleared.refl tree
  | succ height ih =>
      obtain ⟨ptr, keys, kids, rfl⟩ := stored.exists_inner
      have ⟨innerAt, below⟩ := stored
      obtain ⟨node, found, -, stores⟩ := id innerAt
      rw [Tree.foot_inner] at nodup ⊢
      refine .after ((runs_getNode ..).mpr ⟨_, found, ?_⟩)
      have count : node.slotuse + 1 = kids.length := by
        rw [stores.used, ← stores.count, List.length_map]
      rw [Tree.ptr_inner, Multiset.erase_cons_head]
      simp only [count]
      have atFirst : tree.InnerAt ptr (height + 1) keys (([] ++ kids).map Tree.ptr) := innerAt
      refine (clearChildren_runs atFirst below nodup (by simp) (by simp)
        (fun kid member state stored => ih stored ?_)
        fun _ _ deleted => clearRecursive_deleted deleted).congr (Tree.narrow_inner ..).symm
      exact Multiset.nodup_of_le (Forest.foot_le_of_mem member) (Multiset.nodup_cons.mp nodup).2

/-- `clear` leaves an empty tree, unless some node is too wide. -/
theorem clear_runs (isTree : tree.IsTree) :
    RunsIf (¬ tree.Wide) (clear : M K D Unit) tree fun _ after =>
      after.Vacant ∧ after.sizes = tree.sizes ∧ after.checks = tree.checks := by
  refine .after ((runs_get ..).mpr ?_)
  rcases isTree with vacant | ⟨height, sub, whole⟩
  · rw [vacant.root]
    exact .of_runs ((runs_pure ..).mpr ⟨vacant, rfl, rfl⟩) vacant.not_wide
  · rw [whole.root]
    refine .after (whole.stored.runs_level.mpr ?_)
    refine ((clearRecursive_runs whole.stored whole.nodup).congr whole.narrow_iff).before
      fun _ middle cleared => ?_
    obtain ⟨root, found, -⟩ := whole.stored.exists_node
    simp only [runs_bind]
    refine freeNode_runs ((cleared.kept _ whole.nodup.notMem_erase).trans found) ?_
    have all : Cleared tree (middle.freed sub.ptr root.level) sub.foot := by
      have both := cleared.trans (Cleared.freed middle sub.ptr root.level)
      rwa [add_comm, Multiset.singleton_add, Multiset.cons_erase sub.ptr_mem_foot] at both
    rw [runs_modify]
    refine ⟨⟨rfl, rfl, rfl, rfl, fun ptr => ?_⟩, all.sizes, all.checks⟩
    by_cases within : ptr ∈ sub.foot
    · exact all.deleted ptr within
    · exact (all.kept ptr within).trans (by_contra fun inUse => within (whole.allocated ptr inUse))

end PersistentBTree.Memory
