import PersistentBTree.Tables.EraseShape

/-! How an erasure mends a node. The field that `isfew` and `isunderflow` read is never
set, so that with a positive least number of slots every node is too small, and every
neighbour too. -/

set_option autoImplicit false

namespace PersistentBTree.Tables.NullSafe

open Imperative Pages
open Memory (usub)

variable {K D S : Type}

/-- Handles compared by page. -/
def samePage (a b : MemoryNode) : Bool := decide (a = b)

/-- A call of a helper that works on the slots. -/
def direct [LinearOrder K] (call : HelperCall) : Erasing (Slots K D) (Result K) :=
  lift (call.perform (arrays K D))

/-- The field that nothing sets. -/
def Unset (table : Table S) : Prop := ∀ n, (table.nodeAt n).nSlots = 0

theorem SameShape.unset {before after : Table S} (same : SameShape before after)
    (unset : Unset before) : Unset after := fun n => (same.nSlots n).trans (unset n)

/-- The merge of a node with the neighbour that is chosen for it, when handles are compared with
`same`. -/
def mending (same : MemoryNode → MemoryNode → Bool) (leaf : Bool) (curr : PageId) (place : Place) :
    HelperCall :=
  let slot (slot : Nat) := if leaf then none else some slot
  if same place.leftparent place.parent then
    ⟨.merge, leaf, curr, place.left, some curr, place.leftparent, slot (usub place.parentslot 1)⟩
  else ⟨.merge, leaf, curr, some curr, place.right, place.rightparent, slot place.parentslot⟩

theorem lift_run {α : Type} {program : M S α} {table after : Table S} {value : α}
    (returned : program.run table = .ok (value, after)) :
    (lift program).run table = .ok (value, after) := by
  change (program.run table).mapError Halt.fault = _
  rw [returned]
  rfl

section Few

variable {table : Table S} {n : PageId} {handle : MemoryNode}

theorem isFew_runs (unset : Unset table) (inUse : table.store.Allocated n) :
    Runs (isFew n) table fun few after => few = true ∧ after = table := by
  simp [isFew, inUse, unset n]

theorem nullOrFew_runs (unset : Unset table) (inUse : ∀ n ∈ handle, table.store.Allocated n) :
    Runs (nullOrFew handle) table fun few after => few = true ∧ after = table := by
  cases handle with
  | none => exact (runs_pure ..).mpr ⟨rfl, rfl⟩
  | some n => exact isFew_runs unset (inUse n rfl)

theorem presentAndFew_runs (unset : Unset table) (inUse : ∀ n ∈ handle, table.store.Allocated n) :
    Runs (presentAndFew handle) table fun _ after => after = table := by
  cases handle with
  | none => exact (runs_pure ..).mpr rfl
  | some n => exact (isFew_runs unset (inUse n rfl)).mono fun _ _ reached => reached.2

theorem presentAndRich_runs (unset : Unset table)
    (inUse : ∀ n ∈ handle, table.store.Allocated n) :
    Runs (presentAndRich handle) table fun _ after => after = table := by
  cases handle with
  | none => exact (runs_pure ..).mpr rfl
  | some n =>
      refine (runs_bind ..).mpr ((isFew_runs unset (inUse n rfl)).mono fun _ _ reached => ?_)
      exact (runs_pure ..).mpr reached.2

/-- Both neighbours are few, so that the first case is taken. -/
theorem chooseFix_runs (same : MemoryNode → MemoryNode → Bool) (unset : Unset table) (leaf : Bool)
    (curr : PageId) {place : Place} (left : ∀ n ∈ place.left, table.store.Allocated n)
    (right : ∀ n ∈ place.right, table.store.Allocated n) :
    Runs (chooseFix same leaf curr place) table fun chosen after =>
      chosen = mending same leaf curr place ∧ after = table := by
  unfold chooseFix
  rw [(nullOrFew_runs unset left).bind_iff, (nullOrFew_runs unset right).bind_iff]
  refine (runs_bind ..).mpr ((presentAndFew_runs unset left).mono fun _ _ same => ?_)
  subst same
  refine (runs_bind ..).mpr ((presentAndFew_runs unset right).mono fun _ _ same => ?_)
  subst same
  refine (runs_bind ..).mpr ((presentAndRich_runs unset left).mono fun _ _ same => ?_)
  subst same
  refine (runs_bind ..).mpr ((presentAndRich_runs unset right).mono fun _ _ same => ?_)
  subst same
  rw [Bool.and_self, if_pos rfl]
  unfold mending
  by_cases sibling : same place.leftparent place.parent = true
  · rw [if_pos sibling, if_pos sibling]
    exact (runs_pure ..).mpr ⟨rfl, rfl⟩
  · rw [if_neg sibling, if_neg sibling]
    exact (runs_pure ..).mpr ⟨rfl, rfl⟩

theorem nullOrFew_ensures : Ensures (nullOrFew handle) table fun _ after =>
    after = table ∧ ∀ n ∈ handle, table.store.Allocated n := by
  cases handle with
  | none => exact .pure ⟨rfl, fun _ member => by cases member⟩
  | some n =>
      by_cases inUse : table.store.Allocated n
      · have reads : ReadsOnly (isFew n : M S Bool) :=
          (readsOnly_getNode n).bind fun _ => ReadsOnly.get.bind fun _ => .pure
        refine (reads table).mono fun few after same => ⟨same, fun m member => ?_⟩
        exact Option.mem_some_iff.mp member ▸ inUse
      · exact .of_faults (faults_getNode inUse).bind

theorem chooseFix_ensures (unset : Unset table) (leaf : Bool) (curr : PageId) (place : Place) :
    Ensures (chooseFix samePage leaf curr place) table fun chosen after =>
      chosen = mending samePage leaf curr place ∧ after = table := by
  intro chosen after returned
  have runs : Runs (chooseFix samePage leaf curr place) table fun _ _ => True :=
    ⟨chosen, after, returned, trivial⟩
  unfold chooseFix at runs
  obtain ⟨leftFew, middle, leftRan, rest⟩ := (runs_bind ..).mp runs
  obtain ⟨same, left⟩ := nullOrFew_ensures leftFew middle leftRan
  subst same
  obtain ⟨rightFew, last, rightRan, -⟩ := (runs_bind ..).mp rest
  exact (chooseFix_runs samePage unset leaf curr left (nullOrFew_ensures rightFew last rightRan).2).holds
    returned

/-- Nothing is known of the node but that it is not the root, or empty. -/
theorem needsFix_runs (unset : Unset table) (inUse : table.store.Allocated n) :
    Runs (needsFix n) table fun fixes after => after = table ∧
      fixes = (decide (0 < table.minnodeslots) && !((table.store.file n).id == table.mRootId &&
        decide (1 ≤ (table.nodeAt n).slotuse))) := by
  simp [needsFix, isUnderflow, inUse, unset n]

end Few

/-! ## The end of a step -/

section Fixes

variable {records : Records K D S} {same : MemoryNode → MemoryNode → Bool}
  {call : HelperCall → Erasing S (Result K)} {isRoot : Place → Bool} {replaceRoot : M S (Result K)}
  {leaf : Bool} {n : PageId} {myres : Result K} {place : Place} {table : Table S}

/-- The node is mended: it is not the root, or it is empty. -/
def Fixes (table : Table S) (n : PageId) : Prop :=
  0 < table.minnodeslots ∧ ((table.store.file n).id ≠ table.mRootId ∨ (table.nodeAt n).slotuse = 0)

theorem needsFix_run (unset : Unset table) (inUse : table.store.Allocated n) (fixes : Bool)
    (means : fixes = true ↔ Fixes table n) : (needsFix n).run table = .ok (fixes, table) := by
  obtain ⟨result, after, returned, same, isResult⟩ := needsFix_runs unset inUse
  have value : result = fixes := by
    apply Bool.eq_iff_iff.mpr
    rw [means, isResult, Fixes, Bool.and_eq_true, decide_eq_true_iff, Bool.not_eq_true',
      Bool.and_eq_false_iff, beq_eq_false_iff_ne, decide_eq_false_iff_not, Nat.not_le,
      Nat.lt_one_iff]
  rw [returned, same, value]

theorem fixNode_idle (unset : Unset table) (inUse : table.store.Allocated n)
    (never : ¬ Fixes table n) :
    (fixNode same call isRoot replaceRoot leaf n myres place).run table =
      .ok (myres, table) := by
  unfold fixNode
  rw [run_bind_ok (lift_run (needsFix_run unset inUse false (iff_of_false (by decide) never)))]
  rfl

theorem fixNode_replaces (unset : Unset table) (inUse : table.store.Allocated n)
    (fixes : Fixes table n) (root : isRoot place = true) :
    (fixNode same call isRoot replaceRoot leaf n myres place).run table =
      (lift replaceRoot).run table := by
  unfold fixNode
  rw [run_bind_ok (lift_run (needsFix_run unset inUse true (iff_of_true rfl fixes))), if_pos rfl,
    if_pos root]

theorem fixNode_mends (unset : Unset table) (inUse : table.store.Allocated n)
    (fixes : Fixes table n) (notRoot : isRoot place = false)
    (left : ∀ n ∈ place.left, table.store.Allocated n)
    (right : ∀ n ∈ place.right, table.store.Allocated n) :
    (fixNode same call isRoot replaceRoot leaf n myres place).run table =
      (do
        let fixed ← call (mending same leaf n place)
        pure (myres.or fixed)).run table := by
  obtain ⟨chosen, after, returned, isChosen, unchanged⟩ :=
    chooseFix_runs same unset leaf n left right
  rw [isChosen, unchanged] at returned
  unfold fixNode
  rw [run_bind_ok (lift_run (needsFix_run unset inUse true (iff_of_true rfl fixes))), if_pos rfl,
    notRoot, if_neg (by decide), run_bind_ok (lift_run returned)]

theorem preserves_merge {made : HelperCall} (isMerge : made.balance = .merge) :
    Preserves SameRoot (made.perform records) := by
  refine .after (.orFault _ _) fun left => .after (.orFault _ _) fun right => ?_
  rw [isMerge]
  cases made.leaf with
  | true => exact preserves_mergeLeaves left right _
  | false => exact .after (.orFault _ _) fun parent => preserves_mergeInner left right parent _

theorem fixNode_ensures [LinearOrder K] {place : Place} {table : Table (Slots K D)}
    {replaceRoot : M (Slots K D) (Result K)} (unset : Unset table) (leaf : Bool) (n : PageId)
    (myres : Result K) (notRoot : isRoot place = false) :
    Ensures (fixNode samePage direct isRoot replaceRoot leaf n myres place) table
      fun _ after => SameRoot table after := by
  have reads : Preserves (fun before after => after = before)
      (lift (needsFix n) : Erasing (Slots K D) Bool) := .withFault (readsOnly_needsFix n) _
  refine (reads table).bind fun fixes middle same => ?_
  subst same
  cases fixes with
  | false => exact .pure (.refl middle)
  | true =>
      rw [if_pos rfl, notRoot, if_neg (by decide)]
      have chooses : Ensures (lift (chooseFix samePage leaf n place)) middle fun chosen after =>
          chosen = mending samePage leaf n place ∧ after = middle :=
        (chooseFix_ensures unset leaf n place).withFault Halt.fault
      refine chooses.bind fun chosen last reached => ?_
      rw [reached.1, reached.2]
      have isMerge : (mending samePage leaf n place).balance = .merge := by
        unfold mending
        dsimp only
        split
        · rfl
        · rfl
      have mends : Preserves SameRoot (do
          let fixed ← direct (mending samePage leaf n place)
          pure (myres.or fixed) : Erasing (Slots K D) (Result K)) :=
        .bind (.withFault (preserves_merge isMerge) _) fun _ => .pure
      exact mends middle

end Fixes

end PersistentBTree.Tables.NullSafe
