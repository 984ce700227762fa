import PersistentBTree.Memory.Rebalance
import PersistentBTree.Memory.Represents

/-! Neighbouring subtrees while a pair is erased below one of them. A family is
what one parent stores, or the root alone. Erasing reshapes a family: subtrees
shrink, exchange pairs or are merged, and a node that a merge emptied stays
behind until the parent removes it. -/

set_option autoImplicit false

namespace PersistentBTree.Memory

open Imperative Multimap

variable {K D : Type}

/-- The subtrees of one height below a parent, or the whole tree when there is
no parent. -/
structure Family (tree : BTree K D) (height : Nat) (parent : Option Ptr) (keys : List K)
    (kids : Forest K D) (lefts rights : List Ptr) : Prop where
  parentAt : ∀ ptr, parent = some ptr → tree.InnerAt ptr (height + 1) keys (kids.map Tree.ptr)
  outside : ∀ ptr, parent = some ptr → ptr ∉ Forest.foot kids
  stored : ∀ kid ∈ kids, tree.Represents height kid
  matching : keys.map some = separators kids
  nodup : (Forest.foot kids).Nodup
  chained : tree.Chained (lefts ++ Forest.leaves kids ++ rights)
  distinct : (lefts ++ Forest.leaves kids ++ rights).Nodup
  leaves : (Forest.leaves kids).length ≤ tree.mStats.leaves
  innernodes : Forest.innerCount kids ≤ tree.mStats.innernodes

/-- A family was changed from `old` to `new`. The nodes in `spare` are no longer
part of it but still in memory; all others that are gone were freed. -/
structure Reshaped (before after : BTree K D) (parent : Option Ptr) (height : Nat)
    (old new : Forest K D) (spare : Multiset Ptr) (lefts rights : List Ptr) : Prop where
  frame : before.Frame after {ptr | parent = some ptr ∨ ptr ∈ Forest.foot old}
  stored : ∀ kid ∈ new, after.Represents height kid
  foot : ∃ dead, Forest.foot old = Forest.foot new + spare + dead ∧
    ∀ ptr ∈ dead, after.heap ptr = none
  chained : after.Chained (lefts ++ Forest.leaves new ++ rights)
  sublist : (Forest.leaves new).Sublist (Forest.leaves old)
  mRoot : after.mRoot = before.mRoot
  brk : after.brk = before.brk
  itemcount : after.mStats.itemcount = before.mStats.itemcount
  leaves : after.mStats.leaves + (Forest.leaves old).length =
    before.mStats.leaves + (Forest.leaves new).length + if height = 0 then spare.card else 0
  innernodes : after.mStats.innernodes + Forest.innerCount old =
    before.mStats.innernodes + Forest.innerCount new + if height = 0 then 0 else spare.card

namespace Reshaped

variable {before middle after : BTree K D} {parent : Option Ptr} {height : Nat}
  {old between new : Forest K D} {spare : Multiset Ptr} {lefts rights : List Ptr} {keys : List K}

theorem foot_le (reshaped : Reshaped before after parent height old new spare lefts rights) :
    Forest.foot new ≤ Forest.foot old := by
  obtain ⟨dead, isFoot, -⟩ := reshaped.foot
  rw [isFoot, add_assoc]
  exact Multiset.le_add_right _ _

/-- The new family, once it is known what the parent stores. -/
theorem family (reshaped : Reshaped before after parent height old new 0 lefts rights)
    {oldKeys : List K} (family : Family before height parent oldKeys old lefts rights)
    (parentAt : ∀ ptr, parent = some ptr →
      after.InnerAt ptr (height + 1) keys (new.map Tree.ptr))
    (matching : keys.map some = separators new) :
    Family after height parent keys new lefts rights where
  parentAt := parentAt
  outside ptr isParent within :=
    family.outside ptr isParent (Multiset.mem_of_le reshaped.foot_le within)
  stored := reshaped.stored
  matching := matching
  nodup := Multiset.nodup_of_le reshaped.foot_le family.nodup
  chained := reshaped.chained
  distinct := family.distinct.sublist
    (((List.Sublist.refl lefts).append reshaped.sublist).append (List.Sublist.refl rights))
  leaves := by
    have count := reshaped.leaves
    have enough := family.leaves
    simp only [Multiset.card_zero, ite_self, Nat.add_zero] at count
    omega
  innernodes := by
    have count := reshaped.innernodes
    have enough := family.innernodes
    simp only [Multiset.card_zero, ite_self, Nat.add_zero] at count
    omega

theorem trans {oldKeys : List K} (family : Family before height parent oldKeys old lefts rights)
    (first : Reshaped before middle parent height old between 0 lefts rights)
    (second : Reshaped middle after parent height between new spare lefts rights) :
    Reshaped before after parent height old new spare lefts rights where
  frame := first.frame.trans (second.frame.mono fun ptr touched =>
    touched.imp id (Multiset.mem_of_le first.foot_le))
  stored := second.stored
  foot := by
    obtain ⟨firstDead, firstFoot, firstFreed⟩ := first.foot
    obtain ⟨secondDead, secondFoot, secondFreed⟩ := second.foot
    refine ⟨secondDead + firstDead, ?_, fun ptr member => ?_⟩
    · rw [firstFoot, secondFoot]
      abel
    · rcases Multiset.mem_add.mp member with isSecond | isFirst
      · exact secondFreed ptr isSecond
      · have nodup := family.nodup
        rw [firstFoot, add_zero, Multiset.nodup_add, Multiset.disjoint_left] at nodup
        refine second.frame.heap_eq_none ?_ (firstFreed ptr isFirst)
        rintro (isParent | within)
        · refine family.outside ptr isParent ?_
          rw [firstFoot]
          exact Multiset.mem_add.mpr (.inr isFirst)
        · exact nodup.2.2 within isFirst
  chained := second.chained
  sublist := second.sublist.trans first.sublist
  mRoot := second.mRoot.trans first.mRoot
  brk := second.brk.trans first.brk
  itemcount := second.itemcount.trans first.itemcount
  leaves := by
    have one := first.leaves
    have two := second.leaves
    simp only [Multiset.card_zero, ite_self, Nat.add_zero] at one
    omega
  innernodes := by
    have one := first.innernodes
    have two := second.innernodes
    simp only [Multiset.card_zero, ite_self, Nat.add_zero] at one
    omega

end Reshaped

theorem Family.reshape {before after : BTree K D} {parent : Option Ptr} {height : Nat}
    {keys : List K} {front back : Forest K D} (olds news : Forest K D) {spare : Multiset Ptr}
    {lefts rights : List Ptr}
    (family : Family before height parent keys (front ++ (olds ++ back)) lefts rights)
    (frame : before.Frame after {ptr | parent = some ptr ∨ ptr ∈ Forest.foot olds})
    (stored : ∀ kid ∈ news, after.Represents height kid)
    (foot : ∃ dead, Forest.foot olds = Forest.foot news + spare + dead ∧
      ∀ ptr ∈ dead, after.heap ptr = none)
    (chained : after.Chained (lefts ++ Forest.leaves front ++ (Forest.leaves news ++
      (Forest.leaves back ++ rights))))
    (sublist : (Forest.leaves news).Sublist (Forest.leaves olds))
    (mRoot : after.mRoot = before.mRoot) (brk : after.brk = before.brk)
    (itemcount : after.mStats.itemcount = before.mStats.itemcount)
    (leaves : after.mStats.leaves + (Forest.leaves olds).length =
      before.mStats.leaves + (Forest.leaves news).length + if height = 0 then spare.card else 0)
    (innernodes : after.mStats.innernodes + Forest.innerCount olds =
      before.mStats.innernodes + Forest.innerCount news +
        if height = 0 then 0 else spare.card) :
    Reshaped before after parent height (front ++ (olds ++ back)) (front ++ (news ++ back)) spare
      lefts rights where
  frame := frame.mono fun ptr touched => touched.imp id fun within => by
    simp only [Forest.foot_append, Multiset.mem_add]
    exact .inr (.inl within)
  stored := by
    have nodup := family.nodup
    simp only [Forest.foot_append, Multiset.nodup_add, Multiset.disjoint_left,
      Multiset.mem_add, not_or] at nodup
    have kept : ∀ kid ∈ front ++ (olds ++ back), (∀ ptr ∈ kid.foot, ptr ∉ Forest.foot olds) →
        after.Represents height kid := by
      intro kid member apart
      refine frame.represents (fun ptr within => ?_) (family.stored kid member)
      rintro (isParent | inOlds)
      · exact family.outside ptr isParent (Forest.mem_foot.mpr ⟨kid, member, within⟩)
      · exact apart ptr within inOlds
    intro kid member
    simp only [List.mem_append] at member
    rcases member with inFront | inNews | inBack
    · exact kept kid (by simp [inFront]) fun ptr within =>
        (nodup.2.2 (Forest.mem_foot.mpr ⟨kid, inFront, within⟩)).1
    · exact stored kid inNews
    · exact kept kid (by simp [inBack]) fun ptr within inOlds =>
        nodup.2.1.2.2 inOlds (Forest.mem_foot.mpr ⟨kid, inBack, within⟩)
  foot := by
    obtain ⟨dead, isFoot, freed⟩ := foot
    refine ⟨dead, ?_, freed⟩
    simp only [Forest.foot_append, isFoot]
    abel
  chained := by simpa using chained
  sublist := by
    simp only [Forest.leaves_append]
    exact (List.Sublist.refl _).append (sublist.append (List.Sublist.refl _))
  mRoot := mRoot
  brk := brk
  itemcount := itemcount
  leaves := by
    simp only [Forest.leaves_append, List.length_append]
    omega
  innernodes := by
    simp only [Forest.innerCount_append]
    omega

end PersistentBTree.Memory
