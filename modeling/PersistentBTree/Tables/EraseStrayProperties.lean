import PersistentBTree.Tables.EraseAgreeProperties

/-! Where `erase_one` goes astray. Below the root, it makes the first child of a node with
both neighbours the root; the real root, which is then mended like any other node, has no
neighbour to be merged with. -/

set_option autoImplicit false

namespace PersistentBTree.Tables.NullSafe

open Imperative Pages Multimap
open Memory (Tree Forest Bounds)

variable {K D : Type} [LinearOrder K] {table : Table (Slots K D)} {bounds : Bounds}
  {height : Nat} {key : K} {iter : Iterator} {kid : Tree K D} {front back kids : Forest K D}
  {ptr : Memory.Ptr} {keys : List K} {place below : Place} {leaves : List PageId} {n : PageId}
  {myres : Result K}

/-! ## The root -/

omit [LinearOrder K] in
theorem freeNode_ensures :
    Ensures (freeNode n) table fun _ after => SameRoot table after ∧
      ∀ m, after.cells (childColumn K D) m = table.cells (childColumn K D) m := by
  refine .get_bind ?_
  split
  · refine (readsOnly_getNode n table).bind fun _ middle same => ?_
    rw [same]
    refine .of_runs ((runs_modify ..).mpr ⟨sameRoot_freed table n, fun m => ?_⟩)
    exact congrArg (fun node => (childColumn K D).get node.slots) nodeAt_freed
  · exact .pure ⟨.refl table, fun _ => rfl⟩

/-- What becomes of the root when a node has been taken for it. -/
theorem trimRoot_ensures :
    Ensures (trimRoot (arrays K D) n) table fun result after => result = .ok ∧
      SameShape table after ∧ after.mRootId = childAt table n 0 ∧
      ∀ m, after.cells (childColumn K D) m = table.cells (childColumn K D) m := by
  by_cases inUse : table.store.Allocated n
  · have reads : Ensures (getChild (arrays K D) n 0) table fun child after =>
        child = childAt table n 0 ∧ after = table :=
      .of_runs ((runs_getChild ..).mpr ⟨inUse, rfl, rfl⟩)
    refine reads.bind fun child middle reached => .modify_bind ?_
    rw [reached.1, reached.2]
    have rooted : SameShape table { table with mRootId := childAt table n 0 } :=
      ⟨rfl, fun _ => rfl, fun _ => rfl, fun _ => rfl⟩
    generalize isRooted : { table with mRootId := childAt table n 0 } = other at rooted ⊢
    have empties : Ensures (setSlotuse n 0) other fun _ after => after = other.setUsed n 0 :=
      .of_runs ((runs_setSlotuse ..).mpr ⟨isRooted ▸ inUse, rfl⟩)
    refine empties.bind fun _ middle same => ?_
    rw [same]
    have reads : ReadsOnly (pageId n : M (Slots K D) PageId) := ReadsOnly.get.bind fun _ => .pure
    refine (reads _).bind fun id middle same => ?_
    rw [same]
    refine freeNode_ensures.bind fun _ last reached => .pure ⟨rfl, ?_, ?_, fun m => ?_⟩
    · have emptied : SameRoot other (other.setUsed n 0) := .setNode rfl rfl
      exact rooted.trans (emptied.trans reached.1).toSameShape
    · rw [reached.1.mRootId, ← isRooted]
      rfl
    · rw [reached.2, Table.cells_setUsed, ← isRooted]
      rfl
  · exact .of_faults (faults_getNode inUse).bind.bind

/-! ## Below the root -/

/-- A descent into a node below the root has made a lower node the root. -/
structure Strayed (height : Nat) (place : Place) (before : Table (Slots K D)) (result : Result K)
    (after : Table (Slots K D)) : Prop where
  shape : SameShape before after
  lower : (after.nodeAt after.mRootId).level < height
  replaced : hasBoth place = true → result = .ok ∧ ∀ n, height < (before.nodeAt n).level →
    after.cells (childColumn K D) n = before.cells (childColumn K D) n

theorem trims {middle : Table (Slots K D)} (shape : SameShape table middle)
    (higher : ∀ m, height < (table.nodeAt m).level →
      middle.cells (childColumn K D) m = table.cells (childColumn K D) m)
    (first : childAt middle n 0 = childAt table n 0)
    (lower : (table.nodeAt (childAt table n 0)).level < height) :
    Ensures (lift (trimRoot (arrays K D) n)) middle (Strayed height place table) := by
  refine (trimRoot_ensures.withFault Halt.fault).mono fun result after reached => ?_
  obtain ⟨isOk, same, isRoot, childs⟩ := reached
  constructor
  · exact shape.trans same
  · rw [isRoot, first, (shape.trans same).level]
    exact lower
  · exact fun _ => ⟨isOk, fun m high => (childs m).trans (higher m high)⟩

theorem leaf_stops (path : OnPath table bounds key iter leaves 1 (.inner ptr keys (front ++ kid :: back)))
    (onward : Onward table bounds key iter leaves 0 ptr front kid back place below)
    (chain : LeafChain table leaves) (unset : Unset table)
    (above : 0 < (table.nodeAt table.mRootId).level) (mends : 0 < table.minnodeslots)
    (isEnd : (table.nodeAt (rightMerged kid.ptr below)).nextleaf = -1) :
    Ensures (eraseOneDescend (arrays K D) samePage direct 1 key kid.ptr below) table
      fun _ _ => False := by
  have placed := leafPlaced path onward.descends chain
  have notRoot := onward.path.notRoot above
  have kidPath := onward.path
  obtain ⟨kidPtr, pairs, rfl⟩ := kidPath.formed.exists_leaf
  have outcome := @eraseInLeaf_runsIf _ _ _ _ _ _ iter.currslot placed unset notRoot
  refine .of_run_eq (descendByKey_leaf kidPath) (.of_faults (outcome.faults ?_))
  exact not_or.mpr ⟨Nat.ne_of_gt mends, not_not.mpr isEnd⟩

theorem strays_leaf (path : OnPath table bounds key iter leaves 1 (.inner ptr keys (front ++ kid :: back)))
    (onward : Onward table bounds key iter leaves 0 ptr front kid back place below)
    (placed : Placed table 1 ptr place) (chain : LeafChain table leaves) (unset : Unset table)
    (above : 1 < (table.nodeAt table.mRootId).level) (mends : 0 < table.minnodeslots)
    (never : ¬ MergesAtEdge table key 1 ptr place.left.isSome place.right.isSome) :
    Ensures (eraseOneDescend (arrays K D) samePage direct 2 key ptr place) table
      (Strayed 1 place table) := by
  have lower : 0 < (table.nodeAt table.mRootId).level := Nat.zero_lt_of_lt above
  refine .of_run_eq (descendByKey_inner path onward.goes) ?_
  by_cases isEnd : (table.nodeAt (rightMerged kid.ptr below)).nextleaf = -1
  · exact (leaf_stops path onward chain unset lower mends isEnd).bind fun _ _ reached => reached.elim
  · have both : hasBoth place = true := by
      by_contra edge
      apply never
      refine ⟨Bool.not_eq_true _ ▸ edge, ?_⟩
      rw [← onward.rightMerged_eq path]
      exact isEnd
    obtain ⟨result, middle, done, byKey, -⟩ := bothReturn_leaf onward.path
      (leafPlaced path onward.descends chain) unset (onward.path.notRoot lower) (.inr isEnd)
    obtain ⟨myres, after, goesOn, -, frame, here, -, first⟩ :=
      onward.settles path done (placed.frame done.frame (Nat.zero_le 1)).parentIn
    have start := branch_of_represents path.represents path.nodup
    have fixes : Fixes after ptr := by
      refine ⟨frame.minnodeslots ▸ mends, .inl ?_⟩
      rw [frame.id, frame.mRootId]
      exact path.notRoot above
    refine .of_run_eq (run_bind_ok byKey) ?_
    rw [done.notFound, if_neg (by decide)]
    refine .of_run_eq ((goesOn hasBoth).trans ?_) (trims frame.toSameShape frame.childs first ?_)
    · exact fixNode_replaces (frame.unset unset) here fixes both
    · exact (start.child 0 (Nat.zero_le _)).2 ▸ Nat.zero_lt_one

/-- What happens in an inner node before it is mended keeps the root. -/
theorem eraseInInner_ensures {isRoot : Place → Bool} {slot : Nat} {result : Result K}
    {goal : Result K → Table (Slots K D) → Prop}
    (mends : ∀ myres middle, SameRoot table middle → Ensures (fixNode samePage direct isRoot
      (trimRoot (arrays K D) n) false n myres place) middle goal) :
    Ensures (eraseInInner (arrays K D) samePage direct isRoot n slot result place) table goal := by
  have passes : Preserves SameRoot
      (lift (passLastkey (arrays K D) result place) : Erasing (Slots K D) (Result K)) :=
    (preserves_passLastkey result place).withFault Halt.fault
  have removes : Preserves SameRoot
      (lift (fixMerge (arrays K D) n slot result) : Erasing (Slots K D) Unit) :=
    (preserves_fixMerge n slot result).withFault Halt.fault
  refine (passes table).bind fun myres passed first => ?_
  refine (removes passed).bind fun _ removed second => ?_
  exact mends myres removed (first.trans second)

omit [LinearOrder K] in
theorem Descends.hasBoth (descends : Descends table bounds height ptr front kid back place below)
    (both : NullSafe.hasBoth place = true) : NullSafe.hasBoth below = true := by
  obtain ⟨left, right⟩ := (Bool.and_eq_true ..).mp both
  apply (Bool.and_eq_true ..).mpr
  constructor
  · exact descends.left.trans ((Bool.or_eq_true ..).mpr (.inl left))
  · exact descends.right.trans ((Bool.or_eq_true ..).mpr (.inl right))

/-- Once a node has been taken for the root, the real root is out of reach. -/
theorem strays_inner
    (path : OnPath table bounds key iter leaves (height + 1) (.inner ptr keys (front ++ kid :: back)))
    (onward : Onward table bounds key iter leaves height ptr front kid back place below)
    (unset : Unset table)
    (strays : Ensures (eraseOneDescend (arrays K D) samePage direct (height + 1) key kid.ptr below)
      table (Strayed height below table)) :
    Ensures (eraseOneDescend (arrays K D) samePage direct (height + 2) key ptr place) table
      (Strayed (height + 1) place table) := by
  refine .of_run_eq (descendByKey_inner path onward.goes) ?_
  refine strays.bind fun result middle strayed => ?_
  have lower := strayed.lower.trans (Nat.lt_succ_self height)
  have passes (both : hasBoth place = true) := strayed.replaced (onward.descends.hasBoth both)
  have higher (kept : ∀ n, height < (table.nodeAt n).level →
      middle.cells (childColumn K D) n = table.cells (childColumn K D) n) (n : PageId)
      (high : height + 1 < (table.nodeAt n).level) := kept n (Nat.lt_of_succ_lt high)
  split
  · exact .pure ⟨strayed.shape, lower, fun both => ⟨(passes both).1, higher (passes both).2⟩⟩
  · cases both : hasBoth place with
    | false =>
        have keeps : Ensures (eraseInInner (arrays K D) samePage direct hasBoth ptr
            (table.lowerSlot ptr key) result place) middle fun _ after => SameRoot middle after := by
          refine eraseInInner_ensures fun myres settled first => ?_
          have later := first.unset (strayed.shape.unset unset)
          exact (fixNode_ensures later false ptr myres both).mono fun _ _ second => first.trans second
        refine keeps.mono fun _ after same => ?_
        refine ⟨strayed.shape.trans same.toSameShape, ?_, fun impossible => ?_⟩
        · rw [same.mRootId, same.level]
          exact lower
        · cases both.symm.trans impossible
    | true =>
        obtain ⟨rfl, kept⟩ := passes both
        have start := branch_of_represents path.represents path.nodup
        have first := congrFun (kept ptr (start.level ▸ Nat.lt_succ_self height)) 0
        have needs : ReadsOnly (lift (needsFix ptr) : Erasing (Slots K D) Bool) := by
          exact fun state => (readsOnly_needsFix _ state).withFault Halt.fault
        refine .of_run_eq ((run_bind_ok (lift_run rfl)).trans (run_bind_ok (lift_run rfl))) ?_
        refine (needs middle).bind fun fixes last same => ?_
        rw [same]
        cases fixes with
        | false => exact .pure ⟨strayed.shape, lower, fun _ => ⟨rfl, higher kept⟩⟩
        | true =>
            rw [if_pos rfl, both, if_pos rfl]
            refine trims strayed.shape (higher kept) first ?_
            exact (start.child 0 (Nat.zero_le _)).2 ▸ Nat.lt_succ_self height

/-- A path that comes to a node with both neighbours, or to the last leaves. -/
theorem OnPath.strays (positive : Positive bounds) (chain : LeafChain table leaves)
    (unset : Unset table) (mends : 0 < table.minnodeslots)
    (path : OnPath table bounds key iter leaves (height + 1) (.inner ptr keys kids))
    (beside : Beside table bounds (height + 1) place) (placed : Placed table (height + 1) ptr place)
    (above : height + 1 < (table.nodeAt table.mRootId).level)
    (never : ¬ MergesAtEdge table key (height + 1) ptr place.left.isSome place.right.isSome) :
    Ensures (eraseOneDescend (arrays K D) samePage direct (height + 2) key ptr place) table
      (Strayed (height + 1) place table) := by
  induction height generalizing ptr keys kids place with
  | zero =>
      obtain ⟨front, kid, back, below, rfl, onward⟩ := path.onward positive beside
      exact strays_leaf path onward placed chain unset above mends never
  | succ height ih =>
      obtain ⟨front, kid, back, below, rfl, onward⟩ := path.onward positive beside
      have kidPath := onward.path
      obtain ⟨kidPtr, kidKeys, kids, rfl⟩ := kidPath.formed.exists_inner
      have further := mt (onward.mergesAtEdge_iff path).mpr never
      have lower := (Nat.lt_succ_self (height + 1)).trans above
      exact strays_inner path onward unset
        (ih kidPath onward.descends.beside onward.descends.placed lower further)

end PersistentBTree.Tables.NullSafe
