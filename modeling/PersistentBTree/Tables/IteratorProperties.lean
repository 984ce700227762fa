import Mathlib.Data.List.Range
import Mathlib.Data.List.TakeWhile
import PersistentBTree.Imperative.Linked
import PersistentBTree.Tables.Iterator
import PersistentBTree.Tables.NodeProperties

/-! Iterating over the leaves of a table. `++` and `--` go over every pair, but two
iterators are compared by their slots alone, so that a loop stops at the first leaf
that has more pairs than the last one. -/

set_option autoImplicit false

namespace PersistentBTree.Tables

open Imperative Pages
open Memory (usub)

variable {S : Type} {table : Table S} {leaves rest : List PageId} {leaf next : PageId}

/-! ## The chain of leaves -/

/-- A page id, unless it stands for no page. -/
def pageOf (id : PageId) : Option PageId := if id = -1 then none else some id

/-- The links of a leaf, the previous one first. -/
def linksOf (table : Table S) (leaf : PageId) : Option (Option PageId × Option PageId) :=
  some (pageOf (table.nodeAt leaf).prevleaf, pageOf (table.nodeAt leaf).nextleaf)

/-- Nonempty leaves in pages of their own, linked in this order from the head leaf to the
tail leaf. -/
structure LeafChain (table : Table S) (leaves : List PageId) : Prop where
  nodup : leaves.Nodup
  allocated : ∀ leaf ∈ leaves, table.store.Allocated leaf
  isLeaf : ∀ leaf ∈ leaves, (table.nodeAt leaf).isLeafNode
  filled : ∀ leaf ∈ leaves, 0 < (table.nodeAt leaf).slotuse
  linked : Linked (linksOf table) none leaves none
  head : leaves.head? = some table.mHeadleafId
  tail : leaves.getLast? = some table.mTailleafId

/-- The iterators at the pairs of a leaf. -/
def slotsOf (table : Table S) (leaf : PageId) : List Iterator :=
  (List.range (table.nodeAt leaf).slotuse).map (Iterator.mk leaf)

/-- The iterators at the pairs of some leaves. -/
def positions (table : Table S) (leaves : List PageId) : List Iterator :=
  leaves.flatMap (slotsOf table)

/-- Where the last leaf ends. -/
def ending (table : Table S) (leaf : PageId) : Iterator := ⟨leaf, (table.nodeAt leaf).slotuse⟩

theorem mem_slotsOf {iter : Iterator} :
    iter ∈ slotsOf table leaf ↔
      iter.currnode = leaf ∧ iter.currslot < (table.nodeAt leaf).slotuse := by
  obtain ⟨currnode, currslot⟩ := iter
  constructor
  · intro member
    obtain ⟨slot, inside, same⟩ := List.mem_map.mp member
    cases same
    exact ⟨rfl, List.mem_range.mp inside⟩
  · intro ⟨same, inside⟩
    cases same
    exact List.mem_map.mpr ⟨currslot, List.mem_range.mpr inside, rfl⟩

theorem mem_positions {iter : Iterator} :
    iter ∈ positions table leaves ↔
      iter.currnode ∈ leaves ∧ iter.currslot < (table.nodeAt iter.currnode).slotuse := by
  constructor
  · intro member
    obtain ⟨leaf, among, inside⟩ := List.mem_flatMap.mp member
    obtain ⟨rfl, below⟩ := mem_slotsOf.mp inside
    exact ⟨among, below⟩
  · intro ⟨among, below⟩
    exact List.mem_flatMap.mpr ⟨iter.currnode, among, mem_slotsOf.mpr ⟨rfl, below⟩⟩

theorem positions_nodup (distinct : leaves.Nodup) : (positions table leaves).Nodup := by
  apply List.nodup_flatMap.mpr
  constructor
  · intro leaf _
    apply List.nodup_range.map
    intro slot other same
    cases same
    rfl
  · apply distinct.imp
    intro leaf other apart iter inLeaf inOther
    exact apart ((mem_slotsOf.mp inLeaf).1.symm.trans (mem_slotsOf.mp inOther).1)

/-! ## Single steps -/

/-- `++` goes from the one iterator to the other, and `--` back. -/
def Steps (table : Table S) (iter next : Iterator) : Prop :=
  (Runs iter.increment table fun result final => result = next ∧ final = table) ∧
    Runs next.decrement table fun result final => result = iter ∧ final = table

theorem ne_of_allocated {n : PageId} (allocated : table.store.Allocated n) : n ≠ -1 := by
  rintro rfl
  exact absurd allocated.1 (by decide)

theorem eq_of_pageOf {id : PageId} (linked : pageOf id = some next) : id = next := by
  unfold pageOf at linked
  split at linked
  · cases linked
  · exact Option.some.inj linked

theorem eq_of_pageOf_none {id : PageId} (linked : pageOf id = none) : id = -1 := by
  unfold pageOf at linked
  split at linked
  · assumption
  · cases linked

theorem steps_slot (allocated : table.store.Allocated leaf) {slot : Nat}
    (inside : slot + 1 < (table.nodeAt leaf).slotuse) :
    Steps table ⟨leaf, slot⟩ ⟨leaf, slot + 1⟩ := by
  constructor
  · simp [Iterator.increment, allocated, inside]
  · simp [Iterator.decrement, allocated]

/-- From the last pair of a leaf to the first one of the next leaf. -/
theorem steps_leaf (allocated : table.store.Allocated leaf)
    (nextAllocated : table.store.Allocated next)
    (forward : (table.nodeAt leaf).nextleaf = next)
    (backward : (table.nodeAt next).prevleaf = leaf) {slot : Nat}
    (last : slot + 1 = (table.nodeAt leaf).slotuse) :
    Steps table ⟨leaf, slot⟩ ⟨next, 0⟩ := by
  have present := ne_of_allocated allocated
  have nextPresent := ne_of_allocated nextAllocated
  constructor
  · simp [Iterator.increment, allocated, last, forward, nextPresent, nextAllocated]
  · simp [Iterator.decrement, allocated, backward, present, nextAllocated, ← last, usub]

theorem steps_ending (allocated : table.store.Allocated leaf)
    (forward : (table.nodeAt leaf).nextleaf = -1) {slot : Nat}
    (last : slot + 1 = (table.nodeAt leaf).slotuse) :
    Steps table ⟨leaf, slot⟩ (ending table leaf) := by
  constructor
  · simp [Iterator.increment, ending, allocated, last, forward]
  · simp [Iterator.decrement, ending, allocated, ← last]

theorem isChain_slotsOf (allocated : table.store.Allocated leaf) :
    List.IsChain (Steps table) (slotsOf table leaf) := by
  apply (List.isChain_map _).mpr
  apply (List.isChain_range ..).mpr
  intro slot inside
  exact steps_slot allocated (by omega)

theorem last_slotsOf {iter : Iterator} (last : iter ∈ (slotsOf table leaf).getLast?) :
    ∃ slot, iter = ⟨leaf, slot⟩ ∧ slot + 1 = (table.nodeAt leaf).slotuse := by
  cases used : (table.nodeAt leaf).slotuse with
  | zero =>
      rw [slotsOf, used] at last
      cases last
  | succ slot =>
      rw [slotsOf, used, List.range_succ, List.map_append, List.map_singleton,
        List.getLast?_concat] at last
      cases last
      exact ⟨slot, rfl, rfl⟩

theorem head_positions (filled : 0 < (table.nodeAt leaf).slotuse) (rest : List PageId) :
    ∃ more, positions table (leaf :: rest) = ⟨leaf, 0⟩ :: more := by
  obtain ⟨count, used⟩ := Nat.exists_eq_add_one.mpr filled
  rw [positions, List.flatMap_cons, slotsOf, used, List.range_succ_eq_map, List.map_cons,
    List.cons_append]
  exact ⟨_, rfl⟩

/-- `++` and `--` go over all pairs of a chain and to its end. -/
theorem isChain_positions {before : Option PageId} (some_ : leaves ≠ [])
    (allocated : ∀ leaf ∈ leaves, table.store.Allocated leaf)
    (filled : ∀ leaf ∈ leaves, 0 < (table.nodeAt leaf).slotuse)
    (linked : Linked (linksOf table) before leaves none) :
    List.IsChain (Steps table)
      (positions table leaves ++ [ending table (leaves.getLast some_)]) := by
  induction leaves generalizing before with
  | nil => exact absurd rfl some_
  | cons leaf rest ih =>
      obtain ⟨links, others⟩ := linked
      have here := allocated leaf List.mem_cons_self
      have forward : pageOf (table.nodeAt leaf).nextleaf = rest.head?.or none :=
        congrArg Prod.snd (Option.some.inj links)
      cases rest with
      | nil =>
          rw [positions, List.flatMap_singleton]
          apply (isChain_slotsOf here).append (List.IsChain.singleton _)
          intro iter last other isEnding
          obtain ⟨slot, rfl, isLast⟩ := last_slotsOf last
          cases isEnding
          exact steps_ending here (eq_of_pageOf_none forward) isLast
      | cons next rest =>
          have there := allocated next (by simp)
          have backward : pageOf (table.nodeAt next).prevleaf = some leaf :=
            congrArg Prod.fst (Option.some.inj others.1)
          have remaining := ih (List.cons_ne_nil next rest)
            (fun other among => allocated other (List.mem_cons_of_mem leaf among))
            (fun other among => filled other (List.mem_cons_of_mem leaf among)) others
          rw [positions, List.flatMap_cons, List.append_assoc, List.getLast_cons_cons]
          apply (isChain_slotsOf here).append remaining
          intro iter last other first
          obtain ⟨slot, rfl, isLast⟩ := last_slotsOf last
          obtain ⟨more, starts⟩ := head_positions (filled next (by simp)) rest
          rw [starts] at first
          cases first
          exact steps_leaf here there (eq_of_pageOf forward) (eq_of_pageOf backward) isLast

/-! ## The loop -/

theorem MemoryNode.equal_some (a b : PageId) : MemoryNode.equal (some a) (some b) = true := rfl

theorem Iterator.equal_iff (iter x : Iterator) :
    iter.equal x = true ↔ iter.currslot = x.currslot := by
  rw [Iterator.equal, Iterator.handle, Iterator.handle, MemoryNode.equal_some, Bool.true_and,
    beq_iff_eq]
  exact eq_comm

theorem Iterator.notEqual_eq (iter x : Iterator) :
    iter.notEqual x = decide (iter.currslot ≠ x.currslot) := by
  simp [Iterator.notEqual, Iterator.handle, MemoryNode.notEqual, MemoryNode.toBool, eq_comm,
    bne, Bool.beq_eq_decide_eq]

theorem endIter_runs (allocated : table.store.Allocated table.mTailleafId) :
    Runs endIter table fun result final =>
      result = ending table table.mTailleafId ∧ final = table := by
  simp [endIter, allocated, ne_of_allocated allocated, ending]

theorem beginIter_runs (allocated : table.store.Allocated table.mHeadleafId) :
    Runs beginIter table fun result final =>
      result = ⟨table.mHeadleafId, 0⟩ ∧ final = table := by
  simp [beginIter, allocated]

/-- The loop goes on at slots that the last leaf does not end at. -/
def goesOn (table : Table S) (iter : Iterator) : Bool :=
  decide (iter.currslot ≠ (table.nodeAt table.mTailleafId).slotuse)

/-- What the loop does when it is given fuel for `count` iterators. -/
def Passes (table : Table S) (count fuel : Nat) (iter : Iterator) (visited : List Iterator) :
    Prop :=
  RunsIf (count < fuel) (iterate fuel iter) table fun result final =>
    result = visited ∧ final = table

theorem iterate_stop (allocated : table.store.Allocated table.mTailleafId) {iter : Iterator}
    (stop : goesOn table iter = false) (fuel : Nat) : Passes table 0 fuel iter [] := by
  cases fuel with
  | zero => exact .inr ⟨Nat.lt_irrefl 0, faults_throw ..⟩
  | succ fuel =>
      apply RunsIf.of_runs _ (Nat.succ_pos fuel)
      rw [iterate, runs_bind]
      apply (endIter_runs allocated).mono
      intro last final ⟨isEnding, same⟩
      have equal : iter.notEqual last = false := by
        rw [isEnding, Iterator.notEqual_eq]
        exact stop
      simp [equal, same]

theorem iterate_next (allocated : table.store.Allocated table.mTailleafId)
    {iter next : Iterator} {count : Nat} {visited : List Iterator}
    (goes : goesOn table iter = true) (steps : Steps table iter next)
    (later : ∀ fuel, Passes table count fuel next visited) (fuel : Nat) :
    Passes table (count + 1) fuel iter (iter :: visited) := by
  cases fuel with
  | zero => exact .inr ⟨Nat.not_lt_zero _, faults_throw ..⟩
  | succ fuel =>
      apply RunsIf.after
      apply (endIter_runs allocated).mono
      intro last final ⟨isEnding, same⟩
      have differs : iter.notEqual last = true := by
        rw [isEnding, Iterator.notEqual_eq]
        exact goes
      rw [if_pos differs, same]
      apply RunsIf.after
      apply steps.1.mono
      intro result final ⟨isNext, same⟩
      rw [isNext, same]
      apply ((later fuel).congr Nat.succ_lt_succ_iff.symm).before
      intro passed final ⟨isVisited, same⟩
      simp [isVisited, same]

/-- The loop passes the iterators up to the first one that is equal to `End`. -/
theorem iterate_passes (allocated : table.store.Allocated table.mTailleafId) {iter : Iterator}
    {later : List Iterator} (chain : List.IsChain (Steps table) (iter :: later))
    (stops : ∃ last ∈ iter :: later, goesOn table last = false) (fuel : Nat) :
    Passes table ((iter :: later).takeWhile (goesOn table)).length fuel iter
      ((iter :: later).takeWhile (goesOn table)) := by
  induction later generalizing iter fuel with
  | nil =>
      obtain ⟨last, among, stop⟩ := stops
      rw [List.mem_singleton] at among
      subst among
      rw [List.takeWhile_cons_of_neg (by simp [stop])]
      exact iterate_stop allocated stop fuel
  | cons next later ih =>
      obtain ⟨steps, remaining⟩ := List.isChain_cons_cons.mp chain
      cases goes : goesOn table iter with
      | false =>
          rw [List.takeWhile_cons_of_neg (by simp [goes])]
          exact iterate_stop allocated goes fuel
      | true =>
          have stopsLater : ∃ last ∈ next :: later, goesOn table last = false := by
            obtain ⟨last, among, stop⟩ := stops
            rcases List.mem_cons.mp among with rfl | among
            · rw [goes] at stop
              cases stop
            · exact ⟨last, among, stop⟩
          rw [List.takeWhile_cons_of_pos goes, List.length_cons]
          exact iterate_next allocated goes steps (ih remaining stopsLater) fuel

/-! ## A whole iteration -/

/-- Iterating from `Begin` to `End` visits every pair of the chain, in its order. -/
def VisitsAll (table : Table S) (leaves : List PageId) : Prop :=
  ∃ fuel, Runs (visit fuel) table fun visited final =>
    visited = positions table leaves ∧ final = table

namespace LeafChain

theorem getLast_eq (chain : LeafChain table leaves) (some_ : leaves ≠ []) :
    leaves.getLast some_ = table.mTailleafId :=
  Option.some.inj ((List.getLast?_eq_some_getLast some_).symm.trans chain.tail)

theorem ne_nil (chain : LeafChain table leaves) : leaves ≠ [] := by
  rintro rfl
  cases chain.head

theorem tail_mem (chain : LeafChain table leaves) : table.mTailleafId ∈ leaves :=
  List.mem_of_getLast? chain.tail

theorem nextleaf_tail (chain : LeafChain table leaves) :
    (table.nodeAt table.mTailleafId).nextleaf = -1 := by
  obtain ⟨front, split⟩ := List.getLast?_eq_some_iff.mp chain.tail
  have linked := chain.linked
  rw [split] at linked
  have links := linked.at_middle
  exact eq_of_pageOf_none (congrArg Prod.snd (Option.some.inj links))

/-- From `Begin` on the loop passes the pairs up to the first one whose slot is the number
of pairs in the last leaf. -/
theorem visit_runsIf (chain : LeafChain table leaves) (fuel : Nat) :
    RunsIf (((positions table leaves).takeWhile (goesOn table)).length < fuel) (visit fuel) table
      fun visited final =>
        visited = (positions table leaves).takeWhile (goesOn table) ∧ final = table := by
  obtain ⟨first, rest, rfl⟩ := List.exists_cons_of_ne_nil chain.ne_nil
  have isFirst : first = table.mHeadleafId := Option.some.inj chain.head
  obtain ⟨more, starts⟩ := head_positions (chain.filled first List.mem_cons_self) rest
  have tailAllocated := chain.allocated _ chain.tail_mem
  have all := isChain_positions chain.ne_nil chain.allocated chain.filled chain.linked
  have atEnd : goesOn table (ending table table.mTailleafId) = false := by
    simp [goesOn, ending]
  rw [chain.getLast_eq] at all
  have same : ((positions table (first :: rest)) ++ [ending table table.mTailleafId]).takeWhile
      (goesOn table) = (positions table (first :: rest)).takeWhile (goesOn table) := by
    rw [List.takeWhile_append]
    split
    · rw [List.takeWhile_cons_of_neg (by simp [atEnd]), List.append_nil,
        (List.takeWhile_prefix _).eq_of_length (by assumption)]
    · rfl
  rw [← same, starts, List.cons_append]
  rw [starts, List.cons_append] at all
  apply RunsIf.after
  apply (beginIter_runs (chain.allocated _ (isFirst ▸ List.mem_cons_self))).mono
  intro iter final ⟨isBegin, unchanged⟩
  rw [isBegin, unchanged, ← isFirst]
  apply iterate_passes tailAllocated all ⟨ending table table.mTailleafId, by simp, atEnd⟩

/-- An iteration visits everything exactly when no leaf has more pairs than the last. -/
theorem visitsAll_iff (chain : LeafChain table leaves) :
    VisitsAll table leaves ↔ ∀ leaf ∈ leaves,
      (table.nodeAt leaf).slotuse ≤ (table.nodeAt table.mTailleafId).slotuse := by
  have whole : VisitsAll table leaves ↔
      (positions table leaves).takeWhile (goesOn table) = positions table leaves := by
    constructor
    · intro ⟨fuel, runs⟩
      obtain ⟨visited, final, returned, isAll, -⟩ := runs
      exact ((chain.visit_runsIf fuel).holds returned).1.symm.trans isAll
    · intro all
      refine ⟨_, ((chain.visit_runsIf _).runs (Nat.lt_succ_self _)).mono ?_⟩
      intro visited final ⟨passed, same⟩
      exact ⟨passed.trans all, same⟩
  rw [whole, List.takeWhile_eq_self_iff]
  constructor
  · intro all leaf among
    by_contra more
    have goes := all ⟨leaf, (table.nodeAt table.mTailleafId).slotuse⟩
      (mem_positions.mpr ⟨among, Nat.lt_of_not_le more⟩)
    simp [goesOn] at goes
  · intro none iter among
    obtain ⟨inLeaf, below⟩ := mem_positions.mp among
    exact decide_eq_true (Nat.ne_of_lt (Nat.lt_of_lt_of_le below (none _ inLeaf)))

end LeafChain

end PersistentBTree.Tables
