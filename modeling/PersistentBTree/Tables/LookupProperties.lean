import PersistentBTree.Imperative.Scan
import PersistentBTree.Tables.Lookup
import PersistentBTree.Tables.Tree

/-! Searching in the nodes of a table whose slots work, and what a descent and the loop
of `count` do from there. -/

set_option autoImplicit false

namespace PersistentBTree.Tables

open Imperative Pages Multimap
open Memory (Tree Forest Bounds WellFormed)

variable {K D : Type} [LinearOrder K] {table : Table (Slots K D)} {n leaf : PageId} {key : K}

/-! ## Searching in a node -/

/-- The number of keys in the node that are smaller. -/
def Table.lowerSlot (table : Table (Slots K D)) (n : PageId) (key : K) : Nat :=
  (table.keys n).countP fun stored => decide (stored < key)

/-- The number of keys in the node that are not larger. -/
def Table.upperSlot (table : Table (Slots K D)) (n : PageId) (key : K) : Nat :=
  (table.keys n).countP fun stored => decide (stored ≤ key)

/-- The keys of the node do not decrease. -/
def Table.Ordered (table : Table (Slots K D)) (n : PageId) : Prop :=
  (table.keys n).Pairwise (· ≤ ·)

/-- The key in a slot. -/
abbrev Table.keyAt (table : Table (Slots K D)) (n : PageId) (slot : Int) : K :=
  table.cells (keyColumn K D) n slot

omit [LinearOrder K] in
theorem length_keys : (table.keys n).length = (table.nodeAt n).slotuse := by
  simp [Table.keys]

omit [LinearOrder K] in
theorem getElem_keys {i : Nat} (inside : i < (table.keys n).length) :
    (table.keys n)[i] = table.keyAt n i := by
  simp [Table.keys, firstCells]

theorem Table.Ordered.keyAt_lt_iff (ordered : table.Ordered n) {i : Nat}
    (inside : i < (table.nodeAt n).slotuse) :
    table.keyAt n i < key ↔ i < table.lowerSlot n key := by
  have closed : (table.keys n).Pairwise fun first second =>
      decide (second < key) = true → decide (first < key) = true :=
    ordered.imp fun order => by simpa using order.trans_lt
  have test := test_getElem_iff closed (length_keys.symm ▸ inside)
  rwa [decide_eq_true_iff, getElem_keys] at test

theorem Table.Ordered.keyAt_le_iff (ordered : table.Ordered n) {i : Nat}
    (inside : i < (table.nodeAt n).slotuse) :
    table.keyAt n i ≤ key ↔ i < table.upperSlot n key := by
  have closed : (table.keys n).Pairwise fun first second =>
      decide (second ≤ key) = true → decide (first ≤ key) = true :=
    ordered.imp fun order => by simpa using order.trans
  have test := test_getElem_iff closed (length_keys.symm ▸ inside)
  rwa [decide_eq_true_iff, getElem_keys] at test

theorem lowerSlot_le_upperSlot : table.lowerSlot n key ≤ table.upperSlot n key :=
  List.countP_mono_left fun _ _ less => by simpa using le_of_lt (by simpa using less)

theorem upperSlot_le : table.upperSlot n key ≤ (table.nodeAt n).slotuse :=
  length_keys ▸ List.countP_le_length

/-- The slots with the key are those between the two. -/
theorem Table.Ordered.keyAt_eq_iff (ordered : table.Ordered n) {i : Nat}
    (inside : i < (table.nodeAt n).slotuse) :
    table.keyAt n i = key ↔ table.lowerSlot n key ≤ i ∧ i < table.upperSlot n key := by
  rw [← ordered.keyAt_le_iff inside, ← Nat.not_lt, ← ordered.keyAt_lt_iff inside]
  constructor
  · rintro rfl
    exact ⟨lt_irrefl _, le_refl _⟩
  · intro ⟨notLess, atMost⟩
    exact le_antisymm atMost (not_lt.mp notLess)

/-- The loop ends at the slot from which on the test holds. -/
theorem searchLoop_finds (inUse : table.store.Allocated n) {isBelow : K → Bool} {slot : Nat}
    (places : ∀ i < (table.nodeAt n).slotuse, isBelow (table.keyAt n i) = true ↔ ¬ i < slot)
    {fuel lo hi : Nat} (left : lo ≤ slot) (right : slot ≤ hi)
    (inside : hi ≤ (table.nodeAt n).slotuse) (enough : hi ≤ lo + fuel) :
    Runs (searchLoop (arrays K D) isBelow n fuel lo hi) table fun found final =>
      found = slot ∧ final = table := by
  induction fuel generalizing lo hi with
  | zero =>
      rw [searchLoop, if_neg (by omega), runs_pure]
      exact ⟨by omega, rfl⟩
  | succ fuel ih =>
      rw [searchLoop]
      split
      next apart =>
        simp only [runs_bind, runs_getKey, runs_ite]
        refine ⟨inUse, ?_⟩
        have test := places ((lo + hi) / 2) (by omega)
        split
        next isLower => exact ih left (by have := test.mp isLower; omega) (by omega) (by omega)
        next isUpper =>
          have below : (lo + hi) / 2 < slot := by
            by_contra notBelow
            exact isUpper (test.mpr notBelow)
          exact ih (by omega) right inside (by omega)
      next met =>
        rw [runs_pure]
        exact ⟨by omega, rfl⟩

theorem findLower_finds (inUse : table.store.Allocated n) (ordered : table.Ordered n) :
    Runs (findLower (arrays K D) n key) table fun slot final =>
      slot = table.lowerSlot n key ∧ final = table := by
  have atMost := (@lowerSlot_le_upperSlot _ _ _ table n key).trans upperSlot_le
  simp only [findLower, runs_bind, runs_slotuse, runs_ite, runs_pure]
  refine ⟨inUse, ?_⟩
  split
  · exact ⟨by omega, trivial⟩
  · apply searchLoop_finds inUse _ (Nat.zero_le _) atMost (le_refl _) (by omega)
    intro i inside
    rw [← ordered.keyAt_lt_iff inside, not_lt]
    exact decide_eq_true_iff

theorem findUpper_finds (inUse : table.store.Allocated n) (ordered : table.Ordered n) :
    Runs (findUpper (arrays K D) n key) table fun slot final =>
      slot = table.upperSlot n key ∧ final = table := by
  have atMost := @upperSlot_le _ _ _ table n key
  simp only [findUpper, runs_bind, runs_slotuse, runs_ite, runs_pure]
  refine ⟨inUse, ?_⟩
  split
  · exact ⟨by omega, trivial⟩
  · apply searchLoop_finds inUse _ (Nat.zero_le _) atMost (le_refl _) (by omega)
    intro i inside
    rw [← ordered.keyAt_le_iff inside, not_le]
    exact decide_eq_true_iff

/-! ## The pairs with a key -/

theorem hasKeyAt_runs (inUse : table.store.Allocated n) (ordered : table.Ordered n) {slot : Nat}
    (notBelow : table.lowerSlot n key ≤ slot) :
    Runs (hasKeyAt (arrays K D) n slot key) table fun present final =>
      present = decide (slot < table.upperSlot n key) ∧ final = table := by
  have equal : ∀ stored, (arrays K D).keyEqual key stored = decide (stored = key) := by
    intro stored
    apply Bool.eq_iff_iff.mpr
    simp only [Records.keyEqual, arrays, Bool.and_eq_true, Bool.not_eq_true',
      decide_eq_false_iff_not, decide_eq_true_iff, not_lt]
    exact ⟨fun both => le_antisymm both.1 both.2, fun same => ⟨same.le, same.ge⟩⟩
  simp only [hasKeyAt, runs_bind, runs_slotuse, runs_ite, runs_getKey, runs_pure, equal]
  refine ⟨inUse, ?_⟩
  split
  next inside =>
    refine ⟨inUse, ?_, trivial⟩
    rw [decide_eq_decide]
    exact (ordered.keyAt_eq_iff inside).trans (and_iff_right notBelow)
  next outside =>
    have beyond : ¬ slot < table.upperSlot n key := by
      have := @upperSlot_le _ _ _ table n key
      omega
    simp [beyond]

/-- The loop counts the pairs that are left in the leaf, when it does not come to its end. -/
theorem countLoop_runs (inUse : table.store.Allocated n) (ordered : table.Ordered n)
    {fuel slot num : Nat} (notBelow : table.lowerSlot n key ≤ slot)
    (atMost : slot ≤ table.upperSlot n key)
    (stays : table.upperSlot n key < (table.nodeAt n).slotuse ∨ slot = table.upperSlot n key)
    (enough : table.upperSlot n key - slot < fuel) :
    Runs (countLoop (arrays K D) key fuel n slot num) table fun count final =>
      count = num + (table.upperSlot n key - slot) ∧ final = table := by
  induction fuel generalizing slot num with
  | zero => omega
  | succ fuel ih =>
      rw [countLoop, (hasKeyAt_runs inUse ordered notBelow).bind_iff, runs_ite]
      split
      next present =>
        have below : slot < table.upperSlot n key := of_decide_eq_true present
        have within : ¬ (table.nodeAt n).slotuse ≤ slot + 1 := by omega
        simp only [runs_bind, runs_getNode, runs_ite, if_neg within]
        refine ⟨inUse, (ih (by omega) (by omega) (by omega) (by omega)).mono ?_⟩
        intro count final reached
        obtain ⟨counted, same⟩ := reached
        exact ⟨by omega, same⟩
      next absent =>
        have met : slot = table.upperSlot n key := by
          have notLess : ¬ slot < table.upperSlot n key := fun less => absent (decide_eq_true less)
          omega
        rw [runs_pure]
        exact ⟨by omega, rfl⟩

/-- At the end of the last leaf the loop gets a page that does not exist. -/
theorem countLoop_faults (inUse : table.store.Allocated n) (ordered : table.Ordered n)
    (last : ¬ table.store.Allocated (table.nodeAt n).nextleaf) {fuel slot num : Nat}
    (notBelow : table.lowerSlot n key ≤ slot) (below : slot < table.upperSlot n key)
    (reachesEnd : table.upperSlot n key = (table.nodeAt n).slotuse) :
    Faults (countLoop (arrays K D) key fuel n slot num) table := by
  induction fuel generalizing slot num with
  | zero => exact faults_throw ..
  | succ fuel ih =>
      rw [countLoop]
      apply Runs.faults_bind
      apply (hasKeyAt_runs inUse ordered notBelow).mono
      intro present final ⟨isPresent, same⟩
      rw [isPresent, decide_eq_true below, same, if_pos rfl]
      apply Runs.faults_bind
      rw [runs_getNode]
      refine ⟨inUse, ?_⟩
      split
      · exact (faults_getNode last).bind
      · exact ih (by omega) (by omega)

/-! ## Turns -/

/-- The turn goes to the page whose id is stored in the slot. -/
def Table.Selected (table : Table (Slots K D)) (turn : Turn) : Prop :=
  (table.childs turn.inner)[turn.slot]? = some turn.next

omit [LinearOrder K] in
theorem getElem?_childs {slot : Nat} (inside : slot ≤ (table.nodeAt n).slotuse) :
    (table.childs n)[slot]? = some (table.cells (childColumn K D) n slot) := by
  simp [Table.childs, firstCells, Nat.lt_succ_of_le inside]

theorem turnById_runs (inUse : table.store.Allocated n) {slot : Nat} {child : PageId}
    (stored : (table.childs n)[slot]? = some child) (inside : slot ≤ (table.nodeAt n).slotuse)
    (childInUse : table.store.Allocated child) :
    Runs (turnById (arrays K D) n slot) table fun next final => next = child ∧ final = table := by
  rw [getElem?_childs inside] at stored
  cases stored
  simp [turnById, inUse, childInUse]

theorem turnByNode_runs (inUse : table.store.Allocated n) {slot : Nat} {child : PageId}
    (stored : (table.childs n)[slot]? = some child) (inside : slot ≤ (table.nodeAt n).slotuse)
    (childInUse : table.store.Allocated child) (firstInUse : table.store.Allocated 1) :
    Runs (turnByNode (arrays K D) n slot) table fun next final => next = 1 ∧ final = table := by
  rw [getElem?_childs inside] at stored
  cases stored
  simp [turnByNode, inUse, childInUse, firstInUse, MemoryNode.toBool]

theorem turnByNode_ensures (slot : Nat) :
    Ensures (turnByNode (arrays K D) n slot) table fun next _ => next = 1 :=
  .after fun _ _ => .after fun _ _ => .after fun _ _ => .pure rfl

/-! ## Descents -/

section Descents

variable {search : PageId → M (Slots K D) Nat} {turn : PageId → Nat → M (Slots K D) PageId}

omit [LinearOrder K] in
theorem descend_leaf (inUse : table.store.Allocated n) (isLeaf : (table.nodeAt n).level = 0)
    (fuel : Nat) :
    Runs (descend search turn (fuel + 1) n) table fun found final =>
      found = (n, []) ∧ final = table := by
  simp [descend, inUse, Node.isLeafNode, isLeaf]

omit [LinearOrder K] in
/-- From an inner node the descent goes on at the node that it turned to. -/
theorem descend_inner (inUse : table.store.Allocated n) (isInner : (table.nodeAt n).level ≠ 0)
    {slot : Nat} {next : PageId} {fuel : Nat} {below : PageId × List Turn}
    (searches : Runs (search n) table fun found final => found = slot ∧ final = table)
    (turns : Runs (turn n slot) table fun found final => found = next ∧ final = table)
    (goesOn : Runs (descend search turn fuel next) table fun found final =>
      found = below ∧ final = table) :
    Runs (descend search turn (fuel + 1) n) table fun found final =>
      found = (below.1, ⟨n, slot, next⟩ :: below.2) ∧ final = table := by
  have notLeaf : (table.nodeAt n).isLeafNode = false := by simp [Node.isLeafNode, isInner]
  simp only [descend, runs_bind, runs_isLeaf, notLeaf]
  refine ⟨inUse, ?_⟩
  rw [if_neg (by decide), searches.bind_iff, turns.bind_iff, goesOn.bind_iff, runs_pure]
  exact ⟨rfl, rfl⟩

omit [LinearOrder K] in
theorem lookUp_runs {slot fuel : Nat} {place : PageId × List Turn}
    (root : table.store.Allocated table.mRootId)
    (descends : Runs (descend search turn fuel table.mRootId) table fun found final =>
      found = place ∧ final = table)
    (searches : Runs (search place.1) table fun found final => found = slot ∧ final = table) :
    Runs (lookUp search turn fuel) table fun found final =>
      found = (place.1, slot, place.2) ∧ final = table := by
  obtain ⟨leaf, turns⟩ := place
  rw [lookUp, runs_bind, runs_get, runs_bind, runs_getNode]
  refine ⟨root, ?_⟩
  rw [descends.bind_iff]
  dsimp only at searches ⊢
  rw [searches.bind_iff, runs_pure]
  exact ⟨rfl, rfl⟩

/-! A descent that has returned, and the one that it went on with. -/

omit [LinearOrder K] in
theorem descend_leaf_returned (inUse : table.store.Allocated n)
    (isLeaf : (table.nodeAt n).level = 0) {fuel : Nat} {found : PageId × List Turn}
    {final : Table (Slots K D)}
    (returned : (descend search turn fuel n).run table = .ok (found, final)) :
    found = (n, []) := by
  cases fuel with
  | zero => cases returned
  | succ fuel => exact ((descend_leaf inUse isLeaf fuel).holds returned).1

omit [LinearOrder K] in
theorem descend_inner_returned (isInner : (table.nodeAt n).level ≠ 0) {slot fuel : Nat}
    (searches : Runs (search n) table fun found final => found = slot ∧ final = table)
    (turns : ReadsOnly (turn n slot)) {found : PageId × List Turn} {final : Table (Slots K D)}
    (returned : (descend search turn fuel n).run table = .ok (found, final)) :
    ∃ fuel' next below, (turn n slot).run table = .ok (next, table) ∧
      (descend search turn fuel' next).run table = .ok (below, final) ∧
      found = (below.1, ⟨n, slot, next⟩ :: below.2) := by
  cases fuel with
  | zero => cases returned
  | succ fuel =>
      have runs : Runs (descend search turn (fuel + 1) n) table fun result after =>
        result = found ∧ after = final := ⟨found, final, returned, rfl, rfl⟩
      have notLeaf : (table.nodeAt n).isLeafNode = false := by simp [Node.isLeafNode, isInner]
      simp only [descend, runs_bind, runs_isLeaf, notLeaf] at runs
      rw [if_neg (by decide), searches.bind_iff] at runs
      obtain ⟨next, turned, rest⟩ := turns.exists_of_bind runs.2
      obtain ⟨below, after, descended, ended⟩ := (runs_bind ..).mp rest
      rw [runs_pure] at ended
      obtain ⟨rfl, rfl⟩ := ended
      exact ⟨fuel, next, below, turned, descended, rfl⟩

end Descents

/-! ## Lookups leave the table as it is -/

section ReadsOnly

variable {S : Type} {records : Records K D S} {search : PageId → M S Nat}
  {turn : PageId → Nat → M S PageId}

omit [LinearOrder K]

theorem readsOnly_getNode (n : PageId) : ReadsOnly (getNode n : M S (Node S)) :=
  ReadsOnly.get.bind fun _ => .ite .pure (.throw _)

theorem readsOnly_slotuse (n : PageId) : ReadsOnly (slotuse n : M S Nat) :=
  (readsOnly_getNode n).bind fun _ => .pure

theorem readsOnly_isLeaf (n : PageId) : ReadsOnly (isLeaf n : M S Bool) :=
  (readsOnly_getNode n).bind fun _ => .pure

theorem readsOnly_getKey (n : PageId) (slot : Int) : ReadsOnly (getKey records n slot) :=
  (readsOnly_getNode n).bind fun _ => .orFault _ _

theorem readsOnly_getChild (n : PageId) (slot : Int) : ReadsOnly (getChild records n slot) :=
  (readsOnly_getNode n).bind fun _ => .orFault _ _

theorem readsOnly_searchLoop (isBelow : K → Bool) (n : PageId) (fuel lo hi : Nat) :
    ReadsOnly (searchLoop records isBelow n fuel lo hi) := by
  induction fuel generalizing lo hi with
  | zero => exact .ite (.throw _) .pure
  | succ fuel ih =>
      exact .ite ((readsOnly_getKey n _).bind fun _ => .ite (ih _ _) (ih _ _)) .pure

theorem readsOnly_findLower (n : PageId) (key : K) : ReadsOnly (findLower records n key) :=
  (readsOnly_slotuse n).bind fun _ => .ite .pure (readsOnly_searchLoop _ _ _ _ _)

theorem readsOnly_findUpper (n : PageId) (key : K) : ReadsOnly (findUpper records n key) :=
  (readsOnly_slotuse n).bind fun _ => .ite .pure (readsOnly_searchLoop _ _ _ _ _)

theorem readsOnly_turnByNode (n : PageId) (slot : Nat) : ReadsOnly (turnByNode records n slot) :=
  (readsOnly_getChild n slot).bind fun child =>
    (readsOnly_getNode child).bind fun _ => (readsOnly_getNode _).bind fun _ => .pure

theorem readsOnly_turnById (n : PageId) (slot : Nat) : ReadsOnly (turnById records n slot) :=
  (readsOnly_getChild n slot).bind fun child => (readsOnly_getNode child).bind fun _ => .pure

theorem readsOnly_descend (searches : ∀ n, ReadsOnly (search n))
    (turns : ∀ n slot, ReadsOnly (turn n slot)) (fuel : Nat) (n : PageId) :
    ReadsOnly (descend search turn fuel n) := by
  induction fuel generalizing n with
  | zero => exact .throw _
  | succ fuel ih =>
      exact (readsOnly_isLeaf n).bind fun _ => .ite .pure ((searches n).bind fun slot =>
        (turns n slot).bind fun next => (ih next).bind fun _ => .pure)

theorem readsOnly_lookUp (searches : ∀ n, ReadsOnly (search n))
    (turns : ∀ n slot, ReadsOnly (turn n slot)) (fuel : Nat) :
    ReadsOnly (lookUp search turn fuel) :=
  ReadsOnly.get.bind fun table => (readsOnly_getNode _).bind fun _ =>
    (readsOnly_descend searches turns fuel table.mRootId).bind fun place =>
      (searches place.1).bind fun _ => .pure

theorem readsOnly_hasKeyAt (leaf : PageId) (slot : Nat) (key : K) :
    ReadsOnly (hasKeyAt records leaf slot key) :=
  (readsOnly_slotuse leaf).bind fun _ => .ite ((readsOnly_getKey leaf slot).bind fun _ => .pure) .pure

theorem readsOnly_endIter : ReadsOnly (endIter : M S Iterator) :=
  ReadsOnly.get.bind fun _ => (readsOnly_getNode _).bind fun _ =>
    .ite ((readsOnly_slotuse _).bind fun _ => .pure) (ReadsOnly.pure.bind fun _ => .pure)

theorem readsOnly_countLoop (key : K) (fuel : Nat) (leaf : PageId) (slot num : Nat) :
    ReadsOnly (countLoop records key fuel leaf slot num) := by
  induction fuel generalizing leaf slot num with
  | zero => exact .throw _
  | succ fuel ih =>
      exact (readsOnly_hasKeyAt leaf slot key).bind fun _ => .ite
        ((readsOnly_getNode leaf).bind fun _ => .ite
          ((readsOnly_getNode _).bind fun _ => ih _ _ _) (ih _ _ _)) .pure

theorem readsOnly_existsKey (fuel : Nat) (key : K) : ReadsOnly (existsKey records fuel key) :=
  (readsOnly_lookUp (fun n => readsOnly_findLower n key) readsOnly_turnByNode fuel).bind
    fun place => (readsOnly_hasKeyAt place.1 place.2.1 key).bind fun _ => .pure

theorem readsOnly_find (fuel : Nat) (key : K) : ReadsOnly (find records fuel key) :=
  (readsOnly_lookUp (fun n => readsOnly_findLower n key) readsOnly_turnById fuel).bind
    fun place => (readsOnly_hasKeyAt place.1 place.2.1 key).bind fun _ =>
      .ite .pure (readsOnly_endIter.bind fun _ => .pure)

theorem readsOnly_countKey (fuel : Nat) (key : K) : ReadsOnly (countKey records fuel key) :=
  (readsOnly_lookUp (fun n => readsOnly_findLower n key) readsOnly_turnByNode fuel).bind
    fun place => (readsOnly_countLoop key fuel place.1 place.2.1 0).bind fun _ => .pure

theorem readsOnly_lowerBound (fuel : Nat) (key : K) : ReadsOnly (lowerBound records fuel key) :=
  (readsOnly_lookUp (fun n => readsOnly_findLower n key) readsOnly_turnById fuel).bind
    fun _ => .pure

theorem readsOnly_upperBound (fuel : Nat) (key : K) : ReadsOnly (upperBound records fuel key) :=
  (readsOnly_lookUp (fun n => readsOnly_findUpper n key) readsOnly_turnByNode fuel).bind
    fun _ => .pure

end ReadsOnly

end PersistentBTree.Tables
