import PersistentBTree.Memory.RootProperties

/-! The neighbours that a descent hands down. They are children of the same
node, or of its neighbours; on the left the last child but one. -/

set_option autoImplicit false

namespace PersistentBTree.Memory

open Imperative Multimap

variable {K D : Type} {tree : BTree K D} {bounds : Bounds} {height : Nat}
  {parent left right leftparent rightparent : Option Ptr} {front back : Forest K D}
  {keys oldKeys : List K} {lefts rights : List Ptr} {ptr : Ptr} {sub kid : Tree K D}
  {kids kidsFront kidsBack : Forest K D} {neighbour neighbourParent : Option Ptr}

private theorem Outside.mono {avoid fewer : Multiset Ptr}
    (outside : Outside tree bounds height avoid neighbour neighbourParent)
    (subset : ∀ address ∈ fewer, address ∈ avoid) :
    Outside tree bounds height fewer neighbour neighbourParent := by
  refine ⟨fun address isNeighbour => ?_, fun address isParent within =>
    outside.parent address isParent (subset address within)⟩
  obtain ⟨other, isPtr, stored, formed, apart⟩ := outside.stored address isNeighbour
  exact ⟨other, isPtr, stored, formed, fun address within inFewer =>
    apart address within (subset address inFewer)⟩

/-- Whichever way a neighbour was found, it has no node in common with the
subtree. -/
private theorem Beside.outside {parent : Ptr} {near : Option (Tree K D)}
    (beside : Beside tree bounds height parent (Forest.foot (front ++ sub :: back)) neighbour
      neighbourParent near)
    (family : Family tree height (some parent) keys (front ++ sub :: back) lefts rights)
    (isNear : ∀ sibling ∈ near, sibling ∈ front ++ back)
    (formed : ∀ kid ∈ front ++ back, WellFormed bounds (bounds.least height) height kid) :
    Outside tree bounds height sub.foot neighbour neighbourParent := by
  have nodup := family.nodup
  have outside := family.outside parent rfl
  simp only [Forest.foot_append, Forest.foot_cons, Multiset.nodup_add, Multiset.mem_add,
    Multiset.disjoint_left, not_or] at nodup outside
  cases near with
  | none =>
      refine Outside.mono beside fun address within => Multiset.mem_cons_of_mem ?_
      simp [within]
  | some sibling =>
      obtain ⟨rfl, rfl⟩ := beside
      have member := isNear sibling rfl
      refine ⟨fun address isNeighbour => ⟨sibling, Option.some.inj isNeighbour,
        family.stored sibling ?_, formed sibling member, fun other within inSub => ?_⟩,
        fun address isParent => ?_⟩
      · simp only [List.mem_append, List.mem_cons] at member ⊢
        exact member.imp id .inr
      · rcases List.mem_append.mp member with inFront | inBack
        · exact (nodup.2.2 (Forest.mem_foot.mpr ⟨sibling, inFront, within⟩)).1 inSub
        · exact nodup.2.1.2.2 inSub (Forest.mem_foot.mpr ⟨sibling, inBack, within⟩)
      · obtain rfl := Option.some.inj isParent
        exact outside.2.1

private theorem Place.outside [LinearOrder K]
    (place : Place tree bounds height sub parent front back lefts rights left right leftparent
      rightparent)
    (family : Family tree height parent keys (front ++ sub :: back) lefts rights) :
    Outside tree bounds height sub.foot left leftparent ∧
      Outside tree bounds height sub.foot right rightparent := by
  cases place with
  | root => exact ⟨⟨by simp, by simp⟩, ⟨by simp, by simp⟩⟩
  | child below formed =>
      refine ⟨below.leftSide.outside family (fun sibling isLast => ?_) below.formed,
        below.rightSide.outside family (fun sibling isFirst => ?_) below.formed⟩
      · exact List.mem_append_left _ (List.mem_of_mem_getLast? isLast)
      · exact List.mem_append_right _ (List.mem_of_mem_head? isFirst)

section Reads

variable (stored : tree.InnerAt ptr (height + 1) oldKeys ((kidsFront ++ kid :: kidsBack).map Tree.ptr))
  {post : Option Ptr × Option Ptr → BTree K D → Prop}

include stored

private theorem leftOf_runs (several : 1 ≤ bounds.innerMin)
    (outside : Outside tree bounds (height + 1) (ptr ::ₘ Forest.foot (kidsFront ++ kid :: kidsBack))
      left leftparent)
    (next : ∀ myleft myleftparent, Beside tree bounds height ptr
      (Forest.foot (kidsFront ++ kid :: kidsBack)) myleft myleftparent kidsFront.getLast? →
      post (myleft, myleftparent) tree) :
    Runs (leftOf ptr kidsFront.length left leftparent) tree post := by
  rcases List.eq_nil_or_concat' kidsFront with rfl | ⟨before, sibling, rfl⟩
  · cases left with
    | none =>
        simp only [leftOf, List.length_nil, ↓reduceIte, runs_pure]
        exact next none leftparent ⟨by simp, outside.parent⟩
    | some address =>
        obtain ⟨other, rfl, otherStored, formed, apart⟩ := outside.stored address rfl
        obtain ⟨otherPtr, otherKeys, otherKids, rfl⟩ := otherStored.exists_inner
        obtain ⟨⟨node, found, -, stores⟩, below⟩ := otherStored
        obtain ⟨enough, -, count, -, kidsFormed⟩ := formed
        have inUse : 1 ≤ otherKeys.length := several.trans enough
        have bound : otherKeys.length - 1 < otherKids.length := by omega
        obtain ⟨earlier, cousin, later, rfl, size⟩ := exists_split_at otherKids bound
        have children := stores.children
        rw [List.map_append, List.map_cons] at children
        have read : node.childid.read (usub node.slotuse 1) = some cousin.ptr := by
          have found := children.read
          rwa [List.length_map, size, ← usub_of_le (by omega), ← stores.used] at found
        simp only [leftOf, List.length_nil, ↓reduceIte, runs_bind, runs_getInner, runs_readSlot,
          runs_pure]
        refine ⟨node, found, cousin.ptr, read, next _ _ ⟨fun address isCousin => ⟨cousin,
          Option.some.inj isCousin, below cousin (by simp), kidsFormed cousin (by simp),
          fun other within => apart other ?_⟩, outside.parent⟩⟩
        simp [within]
  · obtain ⟨node, found, -, stores⟩ := stored
    have children : node.childid.Holds (before.map Tree.ptr ++ sibling.ptr ::
        (kid :: kidsBack).map Tree.ptr) := by simpa using stores.children
    simp only [leftOf, List.length_append, List.length_singleton, Nat.add_one_ne_zero, ↓reduceIte,
      Nat.add_sub_cancel, runs_bind, runs_getInner, runs_readSlot, runs_pure]
    exact ⟨node, found, sibling.ptr, by simpa using children.read, next _ _ (by simp [Beside])⟩

private theorem rightOf_runs
    (outside : Outside tree bounds (height + 1) (ptr ::ₘ Forest.foot (kidsFront ++ kid :: kidsBack))
      right rightparent)
    (next : ∀ myright myrightparent, Beside tree bounds height ptr
      (Forest.foot (kidsFront ++ kid :: kidsBack)) myright myrightparent kidsBack.head? →
      post (myright, myrightparent) tree) :
    Runs (rightOf ptr kidsFront.length right rightparent) tree post := by
  obtain ⟨node, found, -, stores⟩ := stored
  have count := stores.count
  simp only [List.length_map, List.length_append, List.length_cons] at count
  simp only [rightOf, runs_bind, runs_getInner]
  refine ⟨node, found, ?_⟩
  cases kidsBack with
  | nil =>
      rw [runs_ite, if_pos (by rw [stores.used]; simpa using count)]
      cases right with
      | none =>
          rw [runs_pure]
          exact next none rightparent ⟨by simp, outside.parent⟩
      | some address =>
          obtain ⟨other, rfl, otherStored, formed, apart⟩ := outside.stored address rfl
          obtain ⟨otherPtr, otherKeys, otherKids, rfl⟩ := otherStored.exists_inner
          obtain ⟨⟨otherNode, otherFound, -, otherStores⟩, below⟩ := otherStored
          obtain ⟨-, -, otherCount, -, kidsFormed⟩ := formed
          obtain ⟨cousin, later, rfl⟩ := List.exists_cons_of_length_pos
            (show 0 < otherKids.length by omega)
          have children : otherNode.childid.Holds ([] ++ cousin.ptr :: later.map Tree.ptr) :=
            otherStores.children
          simp only [runs_bind, runs_getInner, runs_readSlot, runs_pure]
          refine ⟨otherNode, otherFound, cousin.ptr, children.read, next _ _
            ⟨fun address isCousin => ⟨cousin, Option.some.inj isCousin, below cousin (by simp),
              kidsFormed cousin (by simp), fun other within => apart other ?_⟩, outside.parent⟩⟩
          simp [within]
  | cons sibling rest =>
      rw [runs_ite, if_neg (by rw [stores.used]; simp only [List.length_cons] at count; omega)]
      have children : node.childid.Holds ((kidsFront ++ [kid]).map Tree.ptr ++ sibling.ptr ::
          rest.map Tree.ptr) := by simpa using stores.children
      simp only [runs_bind, runs_readSlot, runs_pure]
      exact ⟨sibling.ptr, by simpa using children.read, next _ _ (by simp [Beside])⟩

end Reads

/-! ## The recursive call -/

/-- The children of a node of a family are a family. -/
theorem Family.below
    (family : Family tree (height + 1) parent keys (front ++ .inner ptr oldKeys kids :: back) lefts
      rights) (matching : oldKeys.map some = separators kids) :
    Family tree height (some ptr) oldKeys kids (lefts ++ Forest.leaves front)
      (Forest.leaves back ++ rights) := by
  have stored := family.stored (.inner ptr oldKeys kids) (by simp)
  have nodup := family.nodup
  have leaves := family.leaves
  have innernodes := family.innernodes
  simp only [Forest.foot_append, Forest.foot_cons, Tree.foot_inner, Multiset.nodup_add,
    Multiset.nodup_cons] at nodup
  obtain ⟨-, ⟨⟨apart, kidsNodup⟩, -, -⟩, -⟩ := nodup
  simp only [Forest.leaves_append, Forest.leaves_cons, Tree.leaves_inner, List.length_append]
    at leaves
  simp only [Forest.innerCount_append, Forest.innerCount_cons, Tree.innerCount_inner] at innernodes
  refine ⟨fun address isParent => ?_, fun address isParent => ?_, stored.2, matching, kidsNodup,
    by simpa using family.chained, by simpa using family.distinct, by omega, by omega⟩
  · obtain rfl := Option.some.inj isParent
    exact stored.1
  · obtain rfl := Option.some.inj isParent
    exact apart

theorem descendTo_runs [LinearOrder K] {node : InnerNode K} {capacity : Nat}
    {descend : Ptr → (left right leftparent rightparent parent : Option Ptr) → Nat →
      M K D (Result K)} {post : Result K → BTree K D → Prop}
    (erases : bounds.Erases tree.sizes tree.checks)
    (place : Place tree bounds (height + 1) (.inner ptr oldKeys (kidsFront ++ kid :: kidsBack))
      parent front back lefts rights left right leftparent rightparent)
    (family : Family tree (height + 1) parent keys
      (front ++ .inner ptr oldKeys (kidsFront ++ kid :: kidsBack) :: back) lefts rights)
    (stores : node.Stores capacity oldKeys ((kidsFront ++ kid :: kidsBack).map Tree.ptr))
    (next : ∀ myleft myright myleftparent myrightparent,
      Place tree bounds height kid (some ptr) kidsFront kidsBack (lefts ++ Forest.leaves front)
        (Forest.leaves back ++ rights) myleft myright myleftparent myrightparent →
      Family tree height (some ptr) oldKeys (kidsFront ++ kid :: kidsBack)
        (lefts ++ Forest.leaves front) (Forest.leaves back ++ rights) →
      Runs (descend kid.ptr myleft myright myleftparent myrightparent (some ptr) kidsFront.length)
        tree post) :
    Runs (descendTo ptr node kidsFront.length left right leftparent rightparent descend) tree
      post := by
  obtain ⟨several, -, count, matching, kidsFormed⟩ := place.formed erases
  obtain ⟨leftOutside, rightOutside⟩ := place.outside family
  rw [Tree.foot_inner] at leftOutside rightOutside
  have kidFamily := family.below matching
  have innerAt := kidFamily.parentAt ptr rfl
  have two := erases.two_le_least (height + 1)
  have children := stores.children
  rw [List.map_append, List.map_cons] at children
  have read := children.read
  rw [List.length_map] at read
  simp only [descendTo, runs_bind]
  refine leftOf_runs innerAt (Nat.le_of_succ_le two) leftOutside
    fun myleft myleftparent leftSide => rightOf_runs innerAt rightOutside
      fun myright myrightparent rightSide => ?_
  rw [runs_readSlot]
  refine ⟨kid.ptr, read, next _ _ _ _ (.child ⟨?_, fun address isRoot within => ?_,
    fun other member => kidsFormed other ?_, leftSide, rightSide⟩ (kidsFormed kid (by simp)))
    kidFamily⟩
  · rw [List.length_append, List.length_cons] at count
    by_contra none
    rw [not_or, not_not, not_not] at none
    simp only [none.1, none.2, List.length_nil] at count
    omega
  · cases place with
    | root intact =>
        obtain rfl : ptr = address := by simpa [intact.root] using isRoot
        exact kidFamily.outside ptr rfl (by simp [within])
    | child below => exact below.notRoot address isRoot (by simp [within])
  · simp only [List.mem_append, List.mem_cons] at member ⊢
    exact member.imp id .inr

end PersistentBTree.Memory
