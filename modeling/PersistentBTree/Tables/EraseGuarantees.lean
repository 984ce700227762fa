import PersistentBTree.Tables.EraseFixProperties
import PersistentBTree.Tables.Tree

/-! Which helper calls an erasure makes. The tests that decide about them count slots in
a field that is never set, and compare handles without looking at their pages. -/

set_option autoImplicit false

namespace PersistentBTree.Tables.NullSafe

open Imperative Pages
open Memory (Tree WellFormed)

variable {K D : Type}

/-! ## The property -/

/-- What the node has to be like for the helper: a merged node has room for everything,
with the separator of two inner nodes, and a shift is from the fuller node. -/
def Balance.Sensible (leaf : Bool) (nodeslotmax leftUse rightUse : Nat) : Balance → Prop
  | .merge => leftUse + rightUse + (if leaf then 0 else 1) ≤ nodeslotmax
  | .shiftLeft => leftUse < rightUse
  | .shiftRight => rightUse < leftUse

instance (leaf : Bool) (nodeslotmax leftUse rightUse : Nat) :
    (balance : Balance) → Decidable (balance.Sensible leaf nodeslotmax leftUse rightUse)
  | .merge => inferInstanceAs (Decidable (_ ≤ _))
  | .shiftLeft => inferInstanceAs (Decidable (_ < _))
  | .shiftRight => inferInstanceAs (Decidable (_ < _))

/-- The pages are adjacent children of the parent; the position of the left one is
passed. -/
def Adjacent (table : Table (Slots K D)) (left right parent : PageId) (parentslot : Option Nat) :
    Prop :=
  ∃ slot < (table.nodeAt parent).slotuse, (table.childs parent)[slot]? = some left ∧
    (table.childs parent)[slot + 1]? = some right ∧ ∀ passed ∈ parentslot, passed = slot

instance (table : Table (Slots K D)) (left right parent : PageId) (parentslot : Option Nat) :
    Decidable (Adjacent table left right parent parentslot) :=
  inferInstanceAs (Decidable (∃ slot < _, _))

/-- The call is for a node with few slots in use and one of its siblings, and balances the
two. -/
def HelperCall.Legit (table : Table (Slots K D)) (call : HelperCall) : Prop :=
  match call.left, call.right, call.parent with
  | some left, some right, some parent =>
      (table.nodeAt call.curr).slotuse < table.minnodeslots ∧
        (call.curr = left ∨ call.curr = right) ∧
        Adjacent table left right parent call.parentslot ∧
        call.balance.Sensible call.leaf table.nodeslotmax (table.nodeAt left).slotuse
          (table.nodeAt right).slotuse
  | _, _, _ => False

instance (table : Table (Slots K D)) (call : HelperCall) : Decidable (call.Legit table) := by
  unfold HelperCall.Legit
  split
  · exact inferInstance
  · exact inferInstance

/-- The pair to erase. -/
inductive Target (K : Type) where
  | key (key : K)
  | iter (iter : Iterator)

section Property

variable [LinearOrder K]

/-- A call that is refused if it is not legit. -/
def checked (call : HelperCall) : Erasing (Slots K D) (Result K) := do
  let table ← get
  if call.Legit table then lift (call.perform (arrays K D)) else throw .refused

/-- `erase_one` or `erase(iterator)`, as the code compares handles. -/
def Target.erase (call : HelperCall → Erasing (Slots K D) (Result K)) :
    Target K → Erasing (Slots K D) Unit
  | .key sought => do
      let _ ← eraseOne (arrays K D) MemoryNode.equal call sought
      pure ()
  | .iter place => eraseIter (arrays K D) MemoryNode.equal call place

/-- No call that the erasure makes has to be refused, and two handles of the tree are
equal when they denote the same page. -/
structure RebalancesSiblings (table : Table (Slots K D)) (pages : Multiset PageId)
    (target : Target K) : Prop where
  calls : FaultsOnly (· ≠ .refused) (target.erase checked) table
  compares : ∀ a b : MemoryNode, (∀ n ∈ a, n ∈ pages) → (∀ n ∈ b, n ∈ pages) →
    (a.equal b = true ↔ a = b)

/-- The ids of the nodes of a tree. -/
def treePages (sub : Tree K D) : Multiset PageId :=
  sub.foot.map fun ptr : Memory.Ptr => (ptr : PageId)

/-- The pages of a table without a root, or of one that stores a tree. -/
def HasPages (table : Table (Slots K D)) (pages : Multiset PageId) : Prop :=
  table.mRootId = -1 ∧ pages = 0 ∨
    ∃ bounds least height sub, Stores table bounds least height sub ∧ pages = treePages sub

end Property

/-! ## Comparing handles -/

/-- Handles are compared right when there is at most one page. -/
theorem compares_iff_card {pages : Multiset PageId} (nodup : pages.Nodup) :
    (∀ a b : MemoryNode, (∀ n ∈ a, n ∈ pages) → (∀ n ∈ b, n ∈ pages) →
      (a.equal b = true ↔ a = b)) ↔ Multiset.card pages ≤ 1 := by
  have card : Multiset.card pages ≤ 1 ↔ ∀ n ∈ pages, ∀ m ∈ pages, n = m :=
    @Finset.card_le_one _ ⟨pages, nodup⟩
  rw [card]
  constructor
  · intro compares n inside m inside'
    have equal := (compares (some n) (some m) (by simpa using inside) (by simpa using inside')).mp rfl
    exact Option.some.inj equal
  · intro single a b aInside bInside
    cases a with
    | none => cases b <;> simp [MemoryNode.equal, MemoryNode.toBool]
    | some n =>
        cases b with
        | none => simp [MemoryNode.equal, MemoryNode.toBool]
        | some m =>
            have same := single n (aInside n rfl) m (bInside m rfl)
            simp [MemoryNode.equal, same]

/-! ## A tree of one page -/

section Single

variable [LinearOrder K] {table : Table (Slots K D)}

omit [LinearOrder K] in
theorem lift_faultsOnly {α : Type} (program : M (Slots K D) α) (table : Table (Slots K D)) :
    FaultsOnly (· ≠ .refused) (lift program) table := by
  intro halt stopped
  change (program.run table).mapError Halt.fault = _ at stopped
  cases ran : program.run table with
  | error fault =>
      rw [ran] at stopped
      cases stopped
      nofun
  | ok outcome =>
      rw [ran] at stopped
      cases stopped

omit [LinearOrder K] in
theorem countErased_faultsOnly (result : Result K) (table : Table (Slots K D)) :
    FaultsOnly (· ≠ .refused) (countErased result) table :=
  .of_runs ((runs_bind ..).mpr ((runs_modify ..).mpr ((runs_pure _ _ fun _ _ => True).mpr trivial)))

theorem eraseInLeaf_faultsOnly (same : MemoryNode → MemoryNode → Bool)
    (call : HelperCall → Erasing (Slots K D) (Result K)) (leaf : PageId) (slot : Nat) :
    FaultsOnly (· ≠ .refused) (eraseInLeaf (arrays K D) same call leaf slot .root) table := by
  refine FaultsOnly.bind (lift_faultsOnly _ _) fun myres table₁ => ?_
  refine FaultsOnly.bind (lift_faultsOnly _ _) fun fixes table₂ => ?_
  split
  · exact lift_faultsOnly _ _
  · exact .pure

theorem descendByKey_faultsOnly (same : MemoryNode → MemoryNode → Bool)
    (call : HelperCall → Erasing (Slots K D) (Result K)) (isRoot : Place → Bool) {leaf : PageId}
    (inUse : table.store.Allocated leaf) (isLeaf : (table.nodeAt leaf).level = 0) (key : K) :
    FaultsOnly (· ≠ .refused) (descendByKey (arrays K D) same call isRoot 1 key leaf .root)
      table := by
  have leafNode : (table.nodeAt leaf).isLeafNode = true := beq_iff_eq.mpr isLeaf
  refine FaultsOnly.after ((runs_withFault ..).mpr ((runs_isLeaf ..).mpr ⟨inUse, ?_⟩))
  refine FaultsOnly.bind (lift_faultsOnly _ _) fun slot table₁ => ?_
  rw [if_pos leafNode]
  refine FaultsOnly.bind (lift_faultsOnly _ _) fun found table₂ => ?_
  split
  · exact eraseInLeaf_faultsOnly same call leaf slot
  · exact .pure

theorem eraseIterDescend_faultsOnly (same : MemoryNode → MemoryNode → Bool)
    (call : HelperCall → Erasing (Slots K D) (Result K)) {leaf : PageId}
    (inUse : table.store.Allocated leaf) (isLeaf : (table.nodeAt leaf).level = 0)
    (iter : Iterator) :
    FaultsOnly (· ≠ .refused) (eraseIterDescend (arrays K D) same call 1 iter leaf .root)
      table := by
  have leafNode : (table.nodeAt leaf).isLeafNode = true := beq_iff_eq.mpr isLeaf
  refine FaultsOnly.after ((runs_withFault ..).mpr ((runs_isLeaf ..).mpr ⟨inUse, ?_⟩))
  refine FaultsOnly.bind (lift_faultsOnly _ _) fun used table₁ => ?_
  rw [if_pos leafNode]
  split
  · exact .pure
  · split
    · exact .pure
    · exact eraseInLeaf_faultsOnly same call leaf iter.currslot

/-- The table has no root, or a leaf for a root. -/
def AtMostLeaf (table : Table (Slots K D)) : Prop :=
  table.mRootId = -1 ∨
    table.store.Allocated table.mRootId ∧ (table.nodeAt table.mRootId).level = 0

omit [LinearOrder K] in
private theorem fromRoot_faultsOnly {α : Type} {value : α}
    {next : Table (Slots K D) → Node (Slots K D) → Erasing (Slots K D) α} (small : AtMostLeaf table)
    (rest : table.store.Allocated table.mRootId → (table.nodeAt table.mRootId).level = 0 →
      FaultsOnly (· ≠ .refused) (next table (table.nodeAt table.mRootId)) table) :
    FaultsOnly (· ≠ .refused) (do
      let table ← get
      if table.mRootId = -1 then pure value
      else
        let root ← lift (getNode table.mRootId)
        next table root : Erasing (Slots K D) α) table := by
  refine FaultsOnly.get_bind ?_
  cases small with
  | inl none_ =>
      rw [if_pos none_]
      exact .pure
  | inr root =>
      split
      · exact .pure
      · refine FaultsOnly.after ((runs_withFault ..).mpr ((runs_getNode ..).mpr ⟨root.1, ?_⟩))
        exact rest root.1 root.2

theorem erase_faultsOnly (call : HelperCall → Erasing (Slots K D) (Result K))
    (small : AtMostLeaf table) (target : Target K) :
    FaultsOnly (· ≠ .refused) (target.erase call) table := by
  cases target with
  | key key =>
      refine FaultsOnly.bind (fromRoot_faultsOnly small fun inUse isLeaf => ?_) fun _ _ => .pure
      rw [isLeaf]
      refine FaultsOnly.bind (descendByKey_faultsOnly _ call hasBoth inUse isLeaf key) ?_
      exact fun result final => countErased_faultsOnly result final
  | iter iter =>
      refine fromRoot_faultsOnly small fun inUse isLeaf => ?_
      rw [isLeaf]
      refine FaultsOnly.bind (eraseIterDescend_faultsOnly _ call inUse isLeaf iter) ?_
      intro result final
      exact FaultsOnly.bind (countErased_faultsOnly result final) fun _ _ => .pure

/-! ## The pages of a table -/

omit [LinearOrder K] in
theorem height_eq_zero_of_card {bounds : Memory.Bounds} {least height : Nat} {sub : Tree K D}
    (formed : WellFormed bounds least height sub) (small : Multiset.card sub.foot ≤ 1) :
    height = 0 := by
  cases height with
  | zero => rfl
  | succ height =>
      obtain ⟨ptr, keys, kids, rfl⟩ := formed.exists_inner
      obtain ⟨-, -, count, -, below⟩ := formed
      cases kids with
      | nil => cases count
      | cons kid kids =>
          have here := Multiset.card_pos_iff_exists_mem.mpr ⟨_, kid.ptr_mem_foot⟩
          rw [Tree.foot_inner, Memory.Forest.foot_cons, Multiset.card_cons, Multiset.card_add]
            at small
          exact absurd small (Nat.not_le_of_gt (Nat.succ_lt_succ (Nat.add_pos_left here _)))

namespace HasPages

variable {pages : Multiset PageId}

theorem nodup (has : HasPages table pages) : pages.Nodup := by
  cases has with
  | inl none_ =>
      rw [none_.2]
      exact Multiset.nodup_zero
  | inr stored =>
      obtain ⟨bounds, least, height, sub, stores, rfl⟩ := stored
      exact stores.nodup.map fun a b same => Int.ofNat.inj same

theorem atMostLeaf (has : HasPages table pages) (small : Multiset.card pages ≤ 1) :
    AtMostLeaf table := by
  cases has with
  | inl none_ => exact .inl none_.1
  | inr stored =>
      obtain ⟨bounds, least, height, sub, stores, rfl⟩ := stored
      rw [treePages, Multiset.card_map] at small
      have flat := height_eq_zero_of_card stores.formed small
      have represents := stores.represents
      have level := represents.level_eq
      rw [flat] at level
      refine .inr ?_
      rw [stores.root]
      exact ⟨represents.allocated, level⟩

end HasPages

end Single

variable [LinearOrder K] {table : Table (Slots K D)} {pages : Multiset PageId}

/-! ## Calls -/

theorem checked_faultsOnly_iff {call : HelperCall} :
    FaultsOnly (· ≠ .refused) (checked call) table ↔ call.Legit table := by
  constructor
  · intro allowed
    by_contra notLegit
    have refuses : (checked call).run table = .error .refused := by
      change (if call.Legit table then lift (call.perform (arrays K D)) else throw .refused :
        Erasing (Slots K D) (Result K)).run table = _
      rw [if_neg notLegit]
      rfl
    exact allowed .refused refuses rfl
  · intro legit
    refine FaultsOnly.get_bind ?_
    rw [if_pos legit]
    exact lift_faultsOnly _ _

/-- A node below the root is always mended, if any slots have to be in use, and always merged:
with its left neighbour, if that has a parent, and otherwise with its right one. Whether this is
a call that may be made does not matter to the code. -/
theorem fixNode_faultsOnly_iff (unset : Unset table) {n : PageId} {place : Place}
    (inUse : table.store.Allocated n) (left : ∀ n ∈ place.left, table.store.Allocated n)
    (right : ∀ n ∈ place.right, table.store.Allocated n) (isRoot : Place → Bool)
    (replaceRoot : M (Slots K D) (Result K)) (leaf : Bool) (myres : Result K) :
    FaultsOnly (· ≠ .refused)
        (fixNode MemoryNode.equal checked isRoot replaceRoot leaf n myres place) table ↔
      (Fixes table n → isRoot place = false →
        (mending MemoryNode.equal leaf n place).Legit table) := by
  unfold FaultsOnly
  by_cases fixes : Fixes table n
  · cases root : isRoot place with
    | true =>
        rw [fixNode_replaces unset inUse fixes root]
        exact iff_of_true (lift_faultsOnly replaceRoot table) fun _ below => by cases below
    | false =>
        rw [fixNode_mends unset inUse fixes root left right]
        refine Iff.trans ?_ (checked_faultsOnly_iff.trans ⟨fun legit _ _ => legit, fun legit =>
          legit fixes rfl⟩)
        constructor
        · intro allowed halt stopped
          exact allowed halt (run_bind_error stopped)
        · exact fun allowed => FaultsOnly.bind allowed fun _ _ => .pure
  · rw [fixNode_idle unset inUse fixes]
    exact iff_of_true (fun _ stopped => by cases stopped) fun mended => absurd mended fixes

/-! ## Whole erasures -/

/-- Only a tree of at most one page is rebalanced right. -/
theorem rebalancesSiblings_iff (has : HasPages table pages) (target : Target K) :
    RebalancesSiblings table pages target ↔ Multiset.card pages ≤ 1 := by
  constructor
  · intro rebalances
    exact (compares_iff_card has.nodup).mp rebalances.compares
  · intro small
    exact ⟨erase_faultsOnly checked (has.atMostLeaf small) target,
      (compares_iff_card has.nodup).mpr small⟩

theorem rebalancesSiblings_iff_twoLeaves :
    RebalancesSiblings twoLeaves (treePages twoLeavesTree) (.key 2) ↔
      Multiset.card (treePages twoLeavesTree) ≤ 1 :=
  rebalancesSiblings_iff (.inr ⟨_, _, _, _, twoLeaves_stores, rfl⟩) (.key 2)

/-- Why a run stopped. -/
def haltOf {α : Type} : Except Halt α → Option Halt
  | .ok _ => none
  | .error halt => some halt

/-- The left leaf keeps two of its three pairs, as many as it needs, and is merged with
the right one. -/
theorem not_rebalancesSiblings_twoLeaves :
    Stores twoLeaves ⟨2, 4, 1, 4⟩ 1 1 twoLeavesTree ∧ twoLeaves.minnodeslots = 2 ∧
      ¬ RebalancesSiblings twoLeaves (treePages twoLeavesTree) (.key 2) := by
  refine ⟨twoLeaves_stores, by decide +kernel, ?_⟩
  intro rebalances
  have stops : haltOf (((Target.key 2).erase checked).run twoLeaves) = some .refused := by
    decide +kernel
  cases ran : ((Target.key 2).erase checked).run twoLeaves with
  | ok outcome =>
      rw [ran] at stops
      cases stops
  | error halt =>
      rw [ran] at stops
      exact rebalances.calls halt ran (Option.some.inj stops)

end PersistentBTree.Tables.NullSafe
