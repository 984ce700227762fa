import PersistentBTree.Tables.EraseFixProperties
import PersistentBTree.Tables.RebalanceProperties

/-! What one step of an erasure does to the nodes above and beside it. A step at some level
leaves the numbers of slots and the children of all higher nodes, and frees no page of its
own level or a higher one. -/

set_option autoImplicit false

namespace PersistentBTree.Tables.NullSafe

open Imperative Pages

variable {K D : Type} {table before middle after : Table (Slots K D)} {height : Nat}
  {n : PageId} {result : Result K} {place : Place}

/-! ## Frames -/

structure Frame (height : Nat) (before after : Table (Slots K D)) : Prop
    extends SameRoot before after where
  allocated : ∀ n, height ≤ (before.nodeAt n).level →
    (after.store.Allocated n ↔ before.store.Allocated n)
  slotuse : ∀ n, height < (before.nodeAt n).level →
    (after.nodeAt n).slotuse = (before.nodeAt n).slotuse
  childs : ∀ n, height < (before.nodeAt n).level →
    after.cells (childColumn K D) n = before.cells (childColumn K D) n

namespace Frame

theorem refl (height : Nat) (table : Table (Slots K D)) : Frame height table table :=
  ⟨.refl table, fun _ _ => Iff.rfl, fun _ _ => rfl, fun _ _ => rfl⟩

theorem trans (first : Frame height before middle) (second : Frame height middle after) :
    Frame height before after where
  toSameRoot := first.toSameRoot.trans second.toSameRoot
  allocated n high :=
    (second.allocated n (first.level n ▸ high)).trans (first.allocated n high)
  slotuse n high := (second.slotuse n (first.level n ▸ high)).trans (first.slotuse n high)
  childs n high := (second.childs n (first.level n ▸ high)).trans (first.childs n high)

theorem mono {higher : Nat} (frame : Frame height before after) (below : height ≤ higher) :
    Frame higher before after where
  toSameRoot := frame.toSameRoot
  allocated n high := frame.allocated n (below.trans high)
  slotuse n high := frame.slotuse n (below.trans_lt high)
  childs n high := frame.childs n (below.trans_lt high)

/-- A change of some nodes of the level or below it. -/
theorem of_touches {touched : List PageId} (same : SameRoot before after)
    (touches : before.Touches touched after)
    (low : ∀ n ∈ touched, (before.nodeAt n).level ≤ height) : Frame height before after := by
  have outside (n : PageId) (high : height < (before.nodeAt n).level) : n ∉ touched :=
    fun member => absurd (low n member) (Nat.not_le_of_gt high)
  refine ⟨same, fun n _ => touches.allocated n, fun n high => ?_, fun n high => ?_⟩
  · rw [touches.nodes n (outside n high)]
  · unfold Table.cells
    rw [touches.nodes n (outside n high)]

theorem setKeys (n : PageId) (keys : Int → K) :
    Frame height table (table.setCells (keyColumn K D) n keys) :=
  ⟨.setNode rfl rfl, fun _ _ => Iff.rfl, fun _ _ => Table.slotuse_setCells keys,
    fun _ _ => Table.childs_setKeys keys⟩

theorem fills (changes : Table.Fills n before after) (low : (before.nodeAt n).level ≤ height) :
    Frame height before after := by
  obtain ⟨slots, slotuse, rfl⟩ := changes
  have touches : before.Touches [n] (before.setNode n { before.nodeAt n with slots, slotuse }) :=
    .setNode (.refl _ _) List.mem_cons_self _
  refine of_touches (.setNode rfl rfl) touches ?_
  intro other member
  cases List.mem_singleton.mp member
  exact low

theorem freed (low : 0 ≤ n) (below : (table.nodeAt n).level < height) :
    Frame height table (freed table n) := by
  refine ⟨sameRoot_freed table n, fun other high => ?_, fun _ _ => by rw [nodeAt_freed],
    fun _ _ => by unfold Table.cells; rw [nodeAt_freed]⟩
  have apart : other ≠ n := fun same => absurd (same ▸ below) (Nat.not_lt_of_ge high)
  exact (Store.allocated_free low).trans (and_iff_left apart)

end Frame

/-! ## Keys that are passed up -/

/-- A result that tells the parent nothing but, maybe, the last key. -/
structure Plain (result : Result K) : Prop where
  notFound : result.notFound = false
  fixmerge : result.fixmerge = false
  lastkey : result.updateLastkey = true → result.lastkey ≠ none

theorem plain_ok : Plain (.ok : Result K) := ⟨rfl, rfl, fun updates => by cases updates⟩

/-- Only keys of one node are written. -/
def Rekeys (before after : Table (Slots K D)) : Prop :=
  ∃ n keys, after = before.setCells (keyColumn K D) n keys

theorem Rekeys.refl (table : Table (Slots K D)) : Rekeys table table :=
  ⟨0, _, Table.setCells_cells.symm⟩

namespace Rekeys

variable (rekeys : Rekeys before after)

include rekeys

theorem frame (height : Nat) : Frame height before after := by
  obtain ⟨n, keys, rfl⟩ := rekeys
  exact .setKeys n keys

theorem allocated : after.store.Allocated n ↔ before.store.Allocated n := by
  obtain ⟨m, keys, rfl⟩ := rekeys
  exact Iff.rfl

theorem slotuse : (after.nodeAt n).slotuse = (before.nodeAt n).slotuse := by
  obtain ⟨m, keys, rfl⟩ := rekeys
  exact Table.slotuse_setCells keys

theorem nextleaf : (after.nodeAt n).nextleaf = (before.nodeAt n).nextleaf := by
  obtain ⟨m, keys, rfl⟩ := rekeys
  exact Table.field_setNode Node.nextleaf rfl

theorem childs : after.cells (childColumn K D) n = before.cells (childColumn K D) n := by
  obtain ⟨m, keys, rfl⟩ := rekeys
  exact Table.childs_setKeys keys

end Rekeys

section Parents

variable [LinearOrder K]

omit [LinearOrder K] in
theorem parentHasSlot_runs (inUse : ∀ n ∈ place.parent, table.store.Allocated n) :
    Runs (parentHasSlot place) table fun has after => after = table ∧
      (has = true → ∃ parent, place.parent = some parent ∧ table.store.Allocated parent) := by
  unfold parentHasSlot
  cases isParent : place.parent with
  | none => exact (runs_pure ..).mpr ⟨rfl, fun has => by cases has⟩
  | some parent =>
      have allocated := inUse parent (by simp [isParent])
      simp only [runs_bind, runs_slotuse, runs_pure]
      exact ⟨allocated, trivial, fun _ => ⟨parent, rfl, allocated⟩⟩

theorem setParentKey_runs {parent : PageId} (isParent : place.parent = some parent)
    (inUse : table.store.Allocated parent) (key : K) :
    Runs (setParentKey (arrays K D) place key) table fun _ after => Rekeys table after := by
  simp only [setParentKey, isParent, nonNull, runs_bind, runs_orFault, Option.some.injEq,
    exists_eq_left', runs_setKey]
  exact ⟨inUse, _, _, rfl⟩

omit [LinearOrder K] in
theorem readLastkey_runs [LinearOrder K] {lastkey : Option (KeyType K)} (some_ : lastkey ≠ none) :
    Runs (readLastkey (arrays K D) lastkey) table fun _ after => after = table := by
  unfold readLastkey
  split
  · exact absurd rfl some_
  · exact (runs_pure ..).mpr rfl
  · simp [arrays]

theorem passLastkey_runs (plain : result.updateLastkey = true → result.lastkey ≠ none)
    (inUse : ∀ n ∈ place.parent, table.store.Allocated n) :
    Runs (passLastkey (arrays K D) result place) table fun myres after =>
      Plain myres ∧ Rekeys table after := by
  unfold passLastkey
  by_cases updates : result.updateLastkey = true
  · rw [if_pos updates]
    refine (runs_bind ..).mpr ((parentHasSlot_runs inUse).mono fun has middle reached => ?_)
    obtain ⟨same, isParent⟩ := reached
    subst same
    cases has with
    | true =>
        obtain ⟨parent, found, allocated⟩ := isParent rfl
        refine (runs_bind ..).mpr ((readLastkey_runs (plain updates)).mono fun key last same => ?_)
        subst same
        refine (runs_bind ..).mpr ((setParentKey_runs found allocated key).mono ?_)
        exact fun _ _ rekeys => (runs_pure ..).mpr ⟨plain_ok, rekeys⟩
    | false => exact (runs_pure ..).mpr ⟨⟨rfl, rfl, fun _ => plain updates⟩, .refl middle⟩
  · rw [if_neg updates]
    exact (runs_pure ..).mpr ⟨plain_ok, .refl table⟩

theorem lastKeyChanged_runs {leaf : PageId} (here : table.store.Allocated leaf)
    (inUse : ∀ n ∈ place.parent, table.store.Allocated n) :
    Runs (lastKeyChanged (arrays K D) leaf place) table fun myres after =>
      Plain myres ∧ Rekeys table after := by
  unfold lastKeyChanged
  refine (runs_bind ..).mpr ((runs_slotuse ..).mpr ⟨here, ?_⟩)
  refine (runs_bind ..).mpr ((parentHasSlot_runs inUse).mono fun has middle reached => ?_)
  obtain ⟨same, isParent⟩ := reached
  subst same
  cases has with
  | true =>
      obtain ⟨parent, found, allocated⟩ := isParent rfl
      refine (runs_bind ..).mpr ((runs_getKey ..).mpr ⟨here, ?_⟩)
      refine (runs_bind ..).mpr ((setParentKey_runs found allocated _).mono ?_)
      exact fun _ _ rekeys => (runs_pure ..).mpr ⟨plain_ok, rekeys⟩
  | false =>
      rw [if_neg (by decide), runs_ite]
      split
      · exact (runs_pure ..).mpr ⟨⟨rfl, rfl, fun _ => Option.some_ne_none _⟩, .refl middle⟩
      · exact (runs_pure ..).mpr ⟨plain_ok, .refl middle⟩

/-- The pair is taken out, and nothing else happens to the leaves. -/
theorem removePair_runs {leaf : PageId} {slot : Nat} (here : table.store.Allocated leaf)
    (inUse : ∀ n ∈ place.parent, table.store.Allocated n) :
    Runs (removePair (arrays K D) leaf slot place) table fun myres after => Plain myres ∧
      ∃ middle, Table.Fills leaf table middle ∧ Rekeys middle after ∧
        (middle.nodeAt leaf).slotuse = (table.nodeAt leaf).slotuse - 1 := by
  have ends (middle : Table (Slots K D)) (fills : Table.Fills leaf table middle)
      (used : (middle.nodeAt leaf).slotuse = (table.nodeAt leaf).slotuse - 1) :
      Runs (if slot = (table.nodeAt leaf).slotuse - 1 then
          lastKeyChanged (arrays K D) leaf place else pure .ok) middle fun myres after =>
        Plain myres ∧ ∃ middle, Table.Fills leaf table middle ∧ Rekeys middle after ∧
          (middle.nodeAt leaf).slotuse = (table.nodeAt leaf).slotuse - 1 := by
    rw [runs_ite]
    split
    · refine (lastKeyChanged_runs (fills.allocated.mpr here)
        fun n member => fills.allocated.mpr (inUse n member)).mono fun myres after reached => ?_
      exact ⟨reached.1, middle, fills, reached.2, used⟩
    · exact (runs_pure ..).mpr ⟨plain_ok, middle, fills, .refl middle, used⟩
  unfold removePair copyLeafKeys copyLeafData
  simp only [runs_bind, runs_slotuse]
  refine ⟨here, ?_⟩
  refine copyLoop_runs (moves_moveKey leaf leaf) here here (.inr (.inl (by omega))) ?_
  refine copyLoop_runs (moves_moveData leaf leaf) here here (.inr (.inl (by omega))) ?_
  refine (runs_setSlotuse ..).mpr ⟨here, ?_⟩
  exact ends _ ((((Table.Fills.refl leaf table).setCells _ _).setCells _ _).setUsed _)
    Table.slotuse_setUsed_self

end Parents

/-! ## Children that are taken out -/

/-- The child in a slot. -/
abbrev childAt (table : Table (Slots K D)) (n : PageId) (slot : Int) : PageId :=
  table.cells (childColumn K D) n slot

/-- An inner node and its children, which are different pages. -/
structure Branch (table : Table (Slots K D)) (height : Nat) (inner : PageId) : Prop where
  inUse : table.store.Allocated inner
  level : (table.nodeAt inner).level = height + 1
  child : ∀ i : Nat, i ≤ (table.nodeAt inner).slotuse →
    table.store.Allocated (childAt table inner i) ∧
      (table.nodeAt (childAt table inner i)).level = height
  apart : ∀ i j : Nat, i < j → j ≤ (table.nodeAt inner).slotuse →
    childAt table inner i ≠ childAt table inner j

theorem Branch.frame {inner : PageId} (branch : Branch before height inner)
    (frame : Frame height before after) : Branch after height inner := by
  have above : height < (before.nodeAt inner).level := branch.level ▸ Nat.lt_succ_self height
  have childs : childAt after inner = childAt before inner := frame.childs inner above
  have used := frame.slotuse inner above
  constructor
  · exact (frame.allocated inner above.le).mpr branch.inUse
  · exact (frame.level inner).trans branch.level
  · intro i inside
    obtain ⟨inUse, level⟩ := branch.child i (used ▸ inside)
    rw [childs]
    exact ⟨(frame.allocated _ level.ge).mpr inUse, (frame.level _).trans level⟩
  · intro i j below inside
    rw [childs]
    exact branch.apart i j below (used ▸ inside)

theorem freeNode_runs (inUse : table.store.Allocated n) :
    Runs (freeNode n) table fun _ after => after = freed table n := by
  simp only [freeNode, runs_bind, runs_get, runs_ite, runs_getNode, runs_modify, runs_pure]
  rw [if_pos inUse.2]
  exact ⟨inUse, rfl⟩

section Children

variable [LinearOrder K] {inner : PageId} {slot : Nat}

theorem removeChild_runs (branch : Branch table height inner) (some_ : 1 ≤ slot)
    (inside : slot ≤ (table.nodeAt inner).slotuse) :
    Runs (removeChild (arrays K D) inner slot) table fun _ after =>
      Frame (height + 1) table after ∧
        (after.nodeAt inner).slotuse = (table.nodeAt inner).slotuse - 1 ∧
        childAt after inner 0 = childAt table inner 0 := by
  obtain ⟨inUse, level⟩ := branch.child slot inside
  have apart : inner ≠ childAt table inner slot := by
    intro same
    have levels := branch.level
    rw [same, level] at levels
    exact absurd levels.symm (Nat.succ_ne_self height)
  have stays : (freed table (childAt table inner slot)).store.Allocated inner :=
    (Store.allocated_free inUse.1).mpr ⟨branch.inUse, apart⟩
  have ends (last : Table (Slots K D))
      (fills : Table.Fills inner (freed table (childAt table inner slot)) last)
      (used : (last.nodeAt inner).slotuse = (table.nodeAt inner).slotuse - 1)
      (lower : ∀ i : Int, i < slot → childAt last inner i = childAt table inner i) :
      Runs (do
        let node ← getNode inner
        if node.level = 1 then
          let child ← getChild (arrays K D) inner (slot - 1)
          let childUse ← slotuse child
          let last ← getKey (arrays K D) child ((childUse : Int) - 1)
          setKey (arrays K D) inner (slot - 1) last
        else pure ()) last fun _ after => Frame (height + 1) table after ∧
          (after.nodeAt inner).slotuse = (table.nodeAt inner).slotuse - 1 ∧
          childAt after inner 0 = childAt table inner 0 := by
    have frame : Frame (height + 1) table last :=
      (Frame.freed inUse.1 (level ▸ Nat.lt_succ_self height)).trans
        (.fills fills ((congrArg Node.level nodeAt_freed).trans branch.level).le)
    have here : last.store.Allocated inner := fills.allocated.mpr stays
    have first : childAt last inner 0 = childAt table inner 0 := lower 0 (by omega)
    refine (runs_bind ..).mpr ((runs_getNode _).mpr ⟨here, ?_⟩)
    rw [runs_ite]
    split
    · have before : childAt last inner ((slot : Int) - 1) = childAt table inner (slot - 1 : Nat) := by
        rw [lower _ (by omega), Nat.cast_sub some_]
        rfl
      have childIn : last.store.Allocated (childAt last inner ((slot : Int) - 1)) := by
        rw [before]
        refine fills.allocated.mpr ((Store.allocated_free inUse.1).mpr ⟨?_, ?_⟩)
        · exact (branch.child _ (Nat.sub_le_of_le_add (by omega))).1
        · exact branch.apart _ _ (by omega) inside
      simp only [runs_bind, runs_getChild, runs_slotuse, runs_getKey, runs_setKey]
      refine ⟨here, childIn, childIn, here, frame.trans (.setKeys _ _), ?_, ?_⟩
      · rw [Table.slotuse_setCells, used]
      · rw [childAt, Table.childs_setKeys]
        exact first
    · exact (runs_pure ..).mpr ⟨frame, used, first⟩
  unfold removeChild copyInnerKeys copyInnerChilds
  refine (runs_bind ..).mpr ((runs_getChild ..).mpr ⟨branch.inUse, ?_⟩)
  refine (runs_bind ..).mpr ((freeNode_runs inUse).mono fun _ middle same => ?_)
  subst same
  refine (runs_bind ..).mpr ((runs_slotuse ..).mpr ⟨stays, (runs_bind ..).mpr ?_⟩)
  refine copyLoop_runs (moves_moveKey inner inner) stays stays (.inr (.inl (by omega)))
    ((runs_bind ..).mpr ?_)
  refine copyLoop_runs (moves_moveChild inner inner) stays stays (.inr (.inl (by omega)))
    ((runs_bind ..).mpr ?_)
  refine (runs_setSlotuse ..).mpr ⟨stays, ends _ ?_ ?_ ?_⟩
  · exact (((Table.Fills.refl _ _).setCells _ _).setCells _ _).setUsed _
  · rw [Table.slotuse_setUsed_self, nodeAt_freed]
  · intro i below
    rw [childAt, Table.cells_setUsed, Table.cells_setCells_self, splice_below below,
      Table.childs_setKeys, Table.cells, nodeAt_freed]
    rfl

/-- The child that a merge has emptied is taken out. -/
theorem fixMerge_runs (branch : Branch table height inner)
    (inside : slot ≤ (table.nodeAt inner).slotuse) (some_ : 1 ≤ (table.nodeAt inner).slotuse)
    (emptied : result.fixmerge = true →
      ((table.nodeAt (childAt table inner slot)).slotuse = 0 ↔ slot ≠ 0)) :
    Runs (fixMerge (arrays K D) inner slot result) table fun _ after =>
      Frame (height + 1) table after ∧ (after.nodeAt inner).slotuse =
        (table.nodeAt inner).slotuse - (if result.fixmerge then 1 else 0) ∧
        childAt after inner 0 = childAt table inner 0 := by
  unfold fixMerge
  cases merged : result.fixmerge with
  | false => exact (runs_pure ..).mpr ⟨.refl _ _, by simp, rfl⟩
  | true =>
      rw [if_pos rfl]
      obtain ⟨childIn, -⟩ := branch.child slot inside
      refine (runs_bind ..).mpr ((runs_getChild ..).mpr ⟨branch.inUse, ?_⟩)
      refine (runs_bind ..).mpr ((runs_slotuse ..).mpr ⟨childIn, ?_⟩)
      rw [runs_ite]
      split
      next filled =>
        have first : slot = 0 := by
          by_contra later
          exact filled ((emptied merged).mpr later)
        subst first
        exact removeChild_runs branch (le_refl 1) some_
      next empty =>
        have later : slot ≠ 0 := (emptied merged).mp (not_not.mp empty)
        exact removeChild_runs branch (Nat.one_le_iff_ne_zero.mpr later) inside

end Children

end PersistentBTree.Tables.NullSafe
