import PersistentBTree.Tables.LookupProperties

/-! What the lookups of a key tell about a table. `exists`, `count` and `upper_bound`
turn to page 1 whatever page they selected, and `count` follows the last leaf to a page
that does not exist. -/

set_option autoImplicit false

namespace PersistentBTree.Tables

open Imperative Pages Multimap
open Memory (Tree Forest Bounds WellFormed)

variable {K D : Type} [LinearOrder K] {table : Table (Slots K D)} {leaves : List PageId}
  {n leaf : PageId} {key : K}

/-- How many pairs are before an iterator. -/
def positionOf {S : Type} (table : Table S) (leaves : List PageId) (iter : Iterator) : Nat :=
  ((leaves.takeWhile (· ≠ iter.currnode)).map fun leaf => (table.nodeAt leaf).slotuse).sum +
    iter.currslot

/-- Every turn goes to the page that was selected, and what the lookups of a key return
is the same in different ways. -/
structure Outcome.Agrees (table : Table (Slots K D)) (leaves : List PageId) (outcome : Outcome) :
    Prop where
  turns : ∀ turn ∈ outcome.turns, table.Selected turn
  found : outcome.present = true ↔ outcome.found ≠ outcome.last
  counted : outcome.present = true ↔ 0 < outcome.count
  lower : outcome.present = true →
    positionOf table leaves outcome.lower = positionOf table leaves outcome.found
  upper : positionOf table leaves outcome.upper =
    positionOf table leaves outcome.lower + outcome.count

/-- The lookups of the key return and agree. -/
def LookupsAgree (table : Table (Slots K D)) (leaves : List PageId) (key : K) : Prop :=
  ∃ fuel, Runs (lookUpAll (arrays K D) fuel key) table fun outcome final =>
    outcome.Agrees table leaves ∧ final = table

/-- A table without a root, or one that stores a tree. -/
def IsTree (table : Table (Slots K D)) (leaves : List PageId) : Prop :=
  table.mRootId = -1 ∨
    ∃ bounds least height sub, Stores table bounds least height sub ∧ leaves = leafPages sub

/-- There is a root, no turn is taken but one to page 1, and the key is not the last
one. -/
structure FindsItsWay (table : Table (Slots K D)) (key : K) : Prop where
  root : table.mRootId ≠ -1
  turns : (table.nodeAt table.mRootId).level = 0 ∨
    (table.nodeAt table.mRootId).level = 1 ∧
      (table.childs table.mRootId)[table.lowerSlot table.mRootId key]? = some 1 ∧
      (table.childs table.mRootId)[table.upperSlot table.mRootId key]? = some 1
  notLast : lastKeyOf (table.pairs table.mTailleafId) ≠ some key

/-! ## When all descents lead to one leaf -/

/-- The last key of a leaf is the one that is looked up. -/
theorem lastKeyOf_pairs_iff (ordered : table.Ordered n) (filled : 0 < (table.nodeAt n).slotuse) :
    lastKeyOf (table.pairs n) = some key ↔ table.lowerSlot n key < table.upperSlot n key ∧
      table.upperSlot n key = (table.nodeAt n).slotuse := by
  obtain ⟨last, used⟩ := Nat.exists_eq_add_one.mpr filled
  have atMost := @upperSlot_le _ _ _ table n key
  have isLast : lastKeyOf (table.pairs n) = some (table.keyAt n last) := by
    rw [Table.pairs, used, firstCells, List.range_succ, List.map_append, List.map_singleton,
      lastKeyOf_concat]
    rfl
  rw [isLast, Option.some_inj, ordered.keyAt_eq_iff (by omega)]
  omega

/-- A lookup goes to this slot, over turns to selected pages. -/
def Leads (table : Table (Slots K D)) (search : PageId → M (Slots K D) Nat)
    (turn : PageId → Nat → M (Slots K D) PageId) (leaf : PageId) (slot : Nat) : Prop :=
  ∃ turns, (∀ step ∈ turns, table.Selected step) ∧ ∀ fuel,
    Runs (lookUp search turn (fuel + 2)) table fun found final =>
      found = (leaf, slot, turns) ∧ final = table

/-- All lookups lead to the same leaf. -/
structure AllLead (table : Table (Slots K D)) (key : K) (leaf : PageId) : Prop where
  inUse : table.store.Allocated leaf
  ordered : table.Ordered leaf
  lowerByNode : Leads table (findLower (arrays K D) · key) (turnByNode (arrays K D)) leaf
    (table.lowerSlot leaf key)
  lowerById : Leads table (findLower (arrays K D) · key) (turnById (arrays K D)) leaf
    (table.lowerSlot leaf key)
  upperByNode : Leads table (findUpper (arrays K D) · key) (turnByNode (arrays K D)) leaf
    (table.upperSlot leaf key)

section Leads

variable {turns : List Turn} {fuel : Nat}

/-- What the lookup at hand returns when its descent leads to the slot. -/
theorem existsKey_runs (inUse : table.store.Allocated leaf) (ordered : table.Ordered leaf)
    (leads : Runs (lookUp (findLower (arrays K D) · key) (turnByNode (arrays K D)) fuel) table
      fun found final => found = (leaf, table.lowerSlot leaf key, turns) ∧ final = table) :
    Runs (existsKey (arrays K D) fuel key) table fun result final =>
      result = (decide (table.lowerSlot leaf key < table.upperSlot leaf key), turns) ∧
        final = table := by
  rw [existsKey, leads.bind_iff]
  dsimp only
  rw [(hasKeyAt_runs inUse ordered (le_refl _)).bind_iff, runs_pure]
  exact ⟨rfl, rfl⟩

theorem find_runs (inUse : table.store.Allocated leaf) (ordered : table.Ordered leaf)
    (tailInUse : table.store.Allocated table.mTailleafId)
    (leads : Runs (lookUp (findLower (arrays K D) · key) (turnById (arrays K D)) fuel) table
      fun found final => found = (leaf, table.lowerSlot leaf key, turns) ∧ final = table) :
    Runs (find (arrays K D) fuel key) table fun result final =>
      result = (if table.lowerSlot leaf key < table.upperSlot leaf key then
        ⟨leaf, table.lowerSlot leaf key⟩ else ending table table.mTailleafId, turns) ∧
        final = table := by
  rw [find, leads.bind_iff]
  dsimp only
  rw [(hasKeyAt_runs inUse ordered (le_refl _)).bind_iff, runs_ite]
  split
  next present => simp [of_decide_eq_true present]
  next absent =>
    have none_ : ¬ table.lowerSlot leaf key < table.upperSlot leaf key :=
      fun less => absent (decide_eq_true less)
    rw [(endIter_runs tailInUse).bind_iff, if_neg none_, runs_pure]
    exact ⟨rfl, rfl⟩

theorem countKey_runs {count : Nat}
    (leads : Runs (lookUp (findLower (arrays K D) · key) (turnByNode (arrays K D)) fuel) table
      fun found final => found = (leaf, table.lowerSlot leaf key, turns) ∧ final = table)
    (counts : Runs (countLoop (arrays K D) key fuel leaf (table.lowerSlot leaf key) 0) table
      fun result final => result = count ∧ final = table) :
    Runs (countKey (arrays K D) fuel key) table fun result final =>
      result = (count, turns) ∧ final = table := by
  rw [countKey, leads.bind_iff]
  dsimp only
  rw [counts.bind_iff, runs_pure]
  exact ⟨rfl, rfl⟩

theorem lowerBound_runs
    (leads : Runs (lookUp (findLower (arrays K D) · key) (turnById (arrays K D)) fuel) table
      fun found final => found = (leaf, table.lowerSlot leaf key, turns) ∧ final = table) :
    Runs (lowerBound (arrays K D) fuel key) table fun result final =>
      result = (⟨leaf, table.lowerSlot leaf key⟩, turns) ∧ final = table := by
  rw [lowerBound, leads.bind_iff]
  dsimp only
  rw [runs_pure]
  exact ⟨rfl, rfl⟩

theorem upperBound_runs
    (leads : Runs (lookUp (findUpper (arrays K D) · key) (turnByNode (arrays K D)) fuel) table
      fun found final => found = (leaf, table.upperSlot leaf key, turns) ∧ final = table) :
    Runs (upperBound (arrays K D) fuel key) table fun result final =>
      result = (⟨leaf, table.upperSlot leaf key⟩, turns) ∧ final = table := by
  rw [upperBound, leads.bind_iff]
  dsimp only
  rw [runs_pure]
  exact ⟨rfl, rfl⟩

end Leads

/-- Then they agree, when the loop of `count` does not leave that leaf. -/
theorem AllLead.agree (lead : AllLead table key leaf)
    (tailInUse : table.store.Allocated table.mTailleafId)
    (filled : 0 < (table.nodeAt leaf).slotuse)
    (notLast : lastKeyOf (table.pairs leaf) ≠ some key) : LookupsAgree table leaves key := by
  obtain ⟨byNode, byNodeSelected, byNodeRuns⟩ := lead.lowerByNode
  obtain ⟨byId, byIdSelected, byIdRuns⟩ := lead.lowerById
  obtain ⟨byUpper, byUpperSelected, byUpperRuns⟩ := lead.upperByNode
  have order := @lowerSlot_le_upperSlot _ _ _ table leaf key
  have atMost := @upperSlot_le _ _ _ table leaf key
  have stays : table.upperSlot leaf key < (table.nodeAt leaf).slotuse ∨
      table.lowerSlot leaf key = table.upperSlot leaf key := by
    rw [ne_eq, lastKeyOf_pairs_iff lead.ordered filled] at notLast
    omega
  have counts := @countLoop_runs _ _ _ _ _ _ lead.inUse lead.ordered
    ((table.nodeAt leaf).slotuse + 2) _ 0 (le_refl (table.lowerSlot leaf key)) order stays
    (by omega)
  refine ⟨(table.nodeAt leaf).slotuse + 2, ?_⟩
  rw [lookUpAll, (existsKey_runs lead.inUse lead.ordered (byNodeRuns _)).bind_iff]
  dsimp only
  rw [(find_runs lead.inUse lead.ordered tailInUse (byIdRuns _)).bind_iff]
  dsimp only
  rw [(endIter_runs tailInUse).bind_iff, (countKey_runs (byNodeRuns _) counts).bind_iff]
  dsimp only
  rw [(lowerBound_runs (byIdRuns _)).bind_iff]
  dsimp only
  rw [(upperBound_runs (byUpperRuns _)).bind_iff]
  dsimp only
  rw [runs_pure]
  refine ⟨?_, rfl⟩
  constructor
  case turns =>
    intro turn among
    simp only [List.mem_append] at among
    rcases among with (((inNode | inId) | inNode) | inId) | inUpper
    · exact byNodeSelected turn inNode
    · exact byIdSelected turn inId
    · exact byNodeSelected turn inNode
    · exact byIdSelected turn inId
    · exact byUpperSelected turn inUpper
  case found =>
    rw [decide_eq_true_iff]
    by_cases present : table.lowerSlot leaf key < table.upperSlot leaf key
    · rw [if_pos present]
      refine iff_of_true present ?_
      intro same
      have isTail : leaf = table.mTailleafId := congrArg Iterator.currnode same
      have atEnd : table.lowerSlot leaf key = (table.nodeAt table.mTailleafId).slotuse :=
        congrArg Iterator.currslot same
      rw [← isTail] at atEnd
      omega
    · rw [if_neg present]
      exact iff_of_false present fun differs => differs rfl
  case counted =>
    rw [decide_eq_true_iff, Nat.zero_add, Nat.sub_pos_iff_lt]
  case lower =>
    intro present
    rw [if_pos (of_decide_eq_true present)]
  case upper =>
    simp only [positionOf]
    omega

/-! ## Which descents lead to one leaf -/

section Stored

variable {bounds : Bounds} {least height : Nat} {sub : Tree K D}

/-- The keys of a node in a sorted tree do not decrease. -/
theorem ordered_of_represents (represents : table.Represents height sub)
    (formed : WellFormed bounds least height sub) (sorted : Sorted sub.pairs) :
    table.Ordered sub.ptr := by
  cases height with
  | zero =>
      obtain ⟨ptr, pairs, rfl, -, -, same⟩ := represents.exists_leaf
      have keys : table.keys ptr = pairs.map Prod.fst := by
        rw [← same]
        simp [Table.keys, Table.pairs, firstCells, Table.pairAt, Function.comp_def]
      rw [Tree.pairs_leaf] at sorted
      rw [Table.Ordered, Tree.ptr_leaf, keys]
      exact List.pairwise_map.mpr sorted
  | succ height =>
      obtain ⟨ptr, keys, kids, rfl, -, -, same, -, -⟩ := represents.exists_inner
      rw [Tree.pairs_inner] at sorted
      rw [Table.Ordered, Tree.ptr_inner, same]
      exact Memory.separators_sorted formed.2.2.2.1 sorted

omit [LinearOrder K] in
/-- In a tree that is a single leaf there are no turns. -/
theorem leads_of_leaf (inUse : table.store.Allocated table.mRootId)
    (isLeaf : (table.nodeAt table.mRootId).level = 0)
    {search : PageId → M (Slots K D) Nat} {turn : PageId → Nat → M (Slots K D) PageId} {slot : Nat}
    (searches : Runs (search table.mRootId) table fun found final => found = slot ∧ final = table) :
    Leads table search turn table.mRootId slot := by
  refine ⟨[], by simp, ?_⟩
  intro fuel
  exact lookUp_runs inUse (descend_leaf inUse isLeaf (fuel + 1)) searches

omit [LinearOrder K] in
theorem leads_of_inner (inUse : table.store.Allocated table.mRootId)
    (isInner : (table.nodeAt table.mRootId).level ≠ 0) (leafInUse : table.store.Allocated 1)
    (isLeaf : (table.nodeAt 1).level = 0) {search : PageId → M (Slots K D) Nat}
    {turn : PageId → Nat → M (Slots K D) PageId} {rootSlot slot : Nat}
    (searchesRoot : Runs (search table.mRootId) table fun found final =>
      found = rootSlot ∧ final = table)
    (turns : Runs (turn table.mRootId rootSlot) table fun found final =>
      found = 1 ∧ final = table)
    (selected : (table.childs table.mRootId)[rootSlot]? = some 1)
    (searches : Runs (search 1) table fun found final => found = slot ∧ final = table) :
    Leads table search turn 1 slot := by
  refine ⟨[⟨table.mRootId, rootSlot, 1⟩], by simpa [Table.Selected] using selected, ?_⟩
  intro fuel
  exact lookUp_runs inUse
    (descend_inner inUse isInner searchesRoot turns (descend_leaf leafInUse isLeaf fuel)) searches

omit [LinearOrder K] in
/-- The addresses of the children are among those of all nodes. -/
theorem ptrs_le_foot (kids : Forest K D) :
    ((kids.map Tree.ptr : List Memory.Ptr) : Multiset Memory.Ptr) ≤ Forest.foot kids := by
  induction kids with
  | nil => simp
  | cons kid kids ih =>
      rw [List.map_cons, ← Multiset.cons_coe, Forest.foot_cons, ← Multiset.singleton_add]
      exact add_le_add (Multiset.singleton_le.mpr kid.ptr_mem_foot) ih

omit [LinearOrder K] in
theorem lastKey?_of_separators {keys : List K} {kids : Forest K D}
    (matching : keys.map some = Memory.separators kids) {slot : Nat} {kid : Tree K D}
    (inside : slot < keys.length) (isKid : kids[slot]? = some kid) :
    kid.lastKey? = some keys[slot] := by
  have stored : (keys.map some)[slot]? = (Memory.separators kids)[slot]? := congrArg (·[slot]?) matching
  have lengths := congrArg List.length matching
  rw [List.length_map, Memory.length_separators] at lengths
  rw [Memory.separators, List.getElem?_map, List.getElem?_map, List.getElem?_dropLast,
    if_pos (by omega), isKid, List.getElem?_eq_getElem inside] at stored
  exact (Option.some.inj stored).symm

/-- A leaf below the root that a lookup selects. -/
structure SelectedLeaf (table : Table (Slots K D)) (kids : Forest K D) (slot : Nat) (n : PageId)
    (kid : Tree K D) : Prop where
  isKid : kids[slot]? = some kid
  page : n = kid.ptr
  inUse : table.store.Allocated n
  isLeaf : (table.nodeAt n).level = 0
  ordered : table.Ordered n
  filled : 0 < (table.nodeAt n).slotuse
  lastKey : kid.lastKey? = lastKeyOf (table.pairs n)

theorem exists_selected {ptr : Memory.Ptr} {keys : List K} {kids : Forest K D}
    (stores : Stores table bounds least 1 (.inner ptr keys kids)) {slot : Nat}
    (selected : (table.childs ptr)[slot]? = some n) :
    ∃ kid, SelectedLeaf table kids slot n kid := by
  obtain ⟨-, -, -, childs, below⟩ := stores.represents
  rw [childs, List.getElem?_map, Option.map_eq_some_iff] at selected
  obtain ⟨kid, isKid, rfl⟩ := selected
  have among : kid ∈ kids := List.mem_of_getElem? isKid
  have represents := below kid among
  have formed := stores.formed.2.2.2.2 kid among
  have sorted : Sorted kid.pairs := by
    obtain ⟨front, back, rfl⟩ := List.append_of_mem among
    have all := stores.sorted
    rw [Tree.pairs_inner, Forest.pairs_append, Forest.pairs_cons] at all
    exact (sorted_append.mp (sorted_append.mp all).2.1).1
  have inChain : (kid.ptr : PageId) ∈ leafPages (.inner ptr keys kids) := by
    obtain ⟨address, pairs, rfl, -⟩ := represents.exists_leaf
    rw [leafPages, Tree.leaves_inner, Forest.leaves]
    apply List.mem_map_of_mem
    exact List.mem_map.mpr ⟨(address, pairs), List.mem_flatMap.mpr ⟨_, among, by simp⟩, rfl⟩
  refine ⟨kid, isKid, rfl, represents.allocated, represents.level_eq,
    ordered_of_represents represents formed sorted, stores.chain.filled _ inChain, ?_⟩
  obtain ⟨address, pairs, rfl, -, -, same⟩ := represents.exists_leaf
  rw [Tree.lastKey?_eq, Tree.pairs_leaf, Tree.ptr_leaf, same]

theorem slot_unique {ptr : Memory.Ptr} {keys : List K} {kids : Forest K D}
    (stores : Stores table bounds least (height + 1) (.inner ptr keys kids)) {slot other : Nat}
    (here : (table.childs ptr)[slot]? = some n) (there : (table.childs ptr)[other]? = some n) :
    slot = other := by
  obtain ⟨-, -, -, childs, -⟩ := stores.represents
  have distinct : (kids.map Tree.ptr).Nodup := by
    have nodup := stores.nodup
    rw [Tree.foot_inner, Multiset.nodup_cons] at nodup
    exact Multiset.coe_nodup.mp (Multiset.nodup_of_le (ptrs_le_foot kids) nodup.2)
  have nodup : (table.childs ptr).Nodup := by
    rw [childs]
    have pages := distinct.map Int.ofNat_injective
    rwa [List.map_map] at pages
  obtain ⟨inside, -⟩ := List.getElem?_eq_some_iff.mp here
  exact (List.getElem?_inj inside nodup).mp (here.trans there.symm)

/-- The slot behind all keys holds the last child, which is the tail leaf. -/
theorem exists_front {ptr : Memory.Ptr} {keys : List K} {kids : Forest K D} {kid : Tree K D}
    {slot : Nat} (stores : Stores table bounds least 1 (.inner ptr keys kids))
    (isKid : kids[slot]? = some kid) (behind : keys.length ≤ slot) :
    ∃ front, kids = front ++ [kid] ∧ table.mTailleafId = kid.ptr := by
  have count : kids.length = keys.length + 1 := stores.formed.2.2.1
  have atEnd : slot = kids.length - 1 := by
    have bound := (List.getElem?_eq_some_iff.mp isKid).1
    omega
  rw [atEnd, ← List.getLast?_eq_getElem?] at isKid
  obtain ⟨front, split⟩ := List.getLast?_eq_some_iff.mp isKid
  subst split
  obtain ⟨-, -, -, -, below⟩ := stores.represents
  obtain ⟨address, pairs, rfl, -⟩ := (below kid (by simp)).exists_leaf
  have tail := stores.chain.tail
  simp only [leafPages, Tree.leaves_inner, Forest.leaves_append, Forest.leaves_cons,
    Tree.leaves_leaf, Forest.leaves_nil, List.append_nil, List.map_append, List.map_singleton,
    List.getLast?_concat, Option.some_inj] at tail
  exact ⟨front, rfl, tail.symm⟩

/-- When the slots of both searches hold a page, a key that is not the last of all is not
the last one there. -/
theorem lastKey_ne {ptr : Memory.Ptr} {keys : List K} {kids : Forest K D} {kid : Tree K D}
    (stores : Stores table bounds least 1 (.inner ptr keys kids))
    (lower : SelectedLeaf table kids (table.lowerSlot ptr key) n kid)
    (same : table.lowerSlot ptr key = table.upperSlot ptr key)
    (notLast : lastKeyOf (table.pairs table.mTailleafId) ≠ some key) :
    lastKeyOf (table.pairs n) ≠ some key := by
  intro isLast
  obtain ⟨-, -, sameKeys, -, -⟩ := stores.represents
  have ordered := ordered_of_represents stores.represents stores.formed stores.sorted
  have used : keys.length = (table.nodeAt ptr).slotuse := sameKeys ▸ length_keys
  rcases Nat.lt_or_ge (table.lowerSlot ptr key) keys.length with inside | beyond
  · -- the key would be the separator behind the child, which both searches go past
    have separator := lastKey?_of_separators stores.formed.2.2.2.1 inside lower.isKid
    rw [lower.lastKey, isLast, Option.some_inj] at separator
    have stored : keys[table.lowerSlot ptr key] = table.keyAt ptr (table.lowerSlot ptr key) := by
      simp only [← sameKeys]
      exact getElem_keys _
    have isKey : table.keyAt ptr (table.lowerSlot ptr key) = key := stored.symm.trans separator.symm
    have between := (ordered.keyAt_eq_iff (used ▸ inside)).mp isKey
    exact absurd between.2 (same ▸ Nat.lt_irrefl _)
  · obtain ⟨front, rfl, -⟩ := exists_front stores lower.isKid beyond
    have some_ : kid.pairs ≠ [] := by
      intro none_
      have last := lower.lastKey
      rw [isLast, Tree.lastKey?_eq, none_] at last
      cases last
    apply notLast
    rw [← stores.lastKey?_eq, Memory.lastKey?_inner some_, lower.lastKey, isLast]

/-- When both searches go past all separators up to the last key of all, they select the
tail leaf. -/
theorem tail_of_lastKey {ptr : Memory.Ptr} {keys : List K} {kids : Forest K D} {kid : Tree K D}
    (stores : Stores table bounds least 1 (.inner ptr keys kids))
    (lower : SelectedLeaf table kids (table.lowerSlot ptr key) n kid)
    (same : table.lowerSlot ptr key = table.upperSlot ptr key)
    (isLast : lastKeyOf (table.pairs table.mTailleafId) = some key) :
    table.mTailleafId = n := by
  obtain ⟨-, -, sameKeys, -, -⟩ := stores.represents
  have used : keys.length = (table.nodeAt ptr).slotuse := sameKeys ▸ length_keys
  rcases Nat.lt_or_ge (table.lowerSlot ptr key) keys.length with inside | beyond
  · have ordered := ordered_of_represents stores.represents stores.formed stores.sorted
    have stored : keys[table.lowerSlot ptr key] = table.keyAt ptr (table.lowerSlot ptr key) := by
      simp only [← sameKeys]
      exact getElem_keys _
    obtain ⟨pair, among, isKey⟩ :=
      Memory.exists_pair_of_separator stores.formed.2.2.2.1 (List.getElem_mem inside)
    have sorted := stores.sorted
    have whole := stores.lastKey?_eq.trans isLast
    rw [Tree.lastKey?_eq, Tree.pairs_inner] at whole
    rw [Tree.pairs_inner] at sorted
    have atMost := sorted.le_lastKeyOf whole pair among
    rw [isKey, stored] at atMost
    have past := (ordered.keyAt_le_iff (used ▸ inside)).mp atMost
    exact absurd past (same ▸ Nat.lt_irrefl _)
  · obtain ⟨front, -, isTail⟩ := exists_front stores lower.isKid beyond
    exact isTail.trans lower.page.symm

theorem allLead_of_leaf (stores : Stores table bounds least 0 sub) :
    AllLead table key table.mRootId := by
  have inUse : table.store.Allocated table.mRootId := stores.root ▸ stores.represents.allocated
  have isLeaf : (table.nodeAt table.mRootId).level = 0 := stores.root ▸ stores.represents.level_eq
  have ordered : table.Ordered table.mRootId :=
    stores.root ▸ ordered_of_represents stores.represents stores.formed stores.sorted
  exact ⟨inUse, ordered, leads_of_leaf inUse isLeaf (findLower_finds inUse ordered),
    leads_of_leaf inUse isLeaf (findLower_finds inUse ordered),
    leads_of_leaf inUse isLeaf (findUpper_finds inUse ordered)⟩

/-- In a tree of two levels they lead to page 1 when both searches select it. -/
theorem allLead_of_inner {ptr : Memory.Ptr} {keys : List K} {kids : Forest K D} {kid : Tree K D}
    (stores : Stores table bounds least 1 (.inner ptr keys kids))
    (lower : SelectedLeaf table kids (table.lowerSlot ptr key) 1 kid)
    (selected : (table.childs ptr)[table.lowerSlot ptr key]? = some 1)
    (same : table.lowerSlot ptr key = table.upperSlot ptr key) : AllLead table key 1 := by
  have rootInUse : table.store.Allocated ptr := stores.represents.allocated
  have rootLevel : (table.nodeAt ptr).level = 1 := stores.represents.level_eq
  have isInner : (table.nodeAt ptr).level ≠ 0 := by
    rw [rootLevel]
    exact one_ne_zero
  have rootOrdered : table.Ordered ptr :=
    ordered_of_represents stores.represents stores.formed stores.sorted
  have inside : table.lowerSlot ptr key ≤ (table.nodeAt ptr).slotuse :=
    lowerSlot_le_upperSlot.trans upperSlot_le
  have searchesLower := @findLower_finds _ _ _ _ _ key rootInUse rootOrdered
  have searchesUpper := @findUpper_finds _ _ _ _ _ key rootInUse rootOrdered
  rw [← same] at searchesUpper
  have byNode := turnByNode_runs rootInUse selected inside lower.inUse lower.inUse
  have byId := turnById_runs rootInUse selected inside lower.inUse
  have root : table.mRootId = ptr := stores.root
  rw [← root] at rootInUse isInner searchesLower searchesUpper byNode byId selected
  exact ⟨lower.inUse, lower.ordered,
    leads_of_inner rootInUse isInner lower.inUse lower.isLeaf searchesLower byNode selected
      (findLower_finds lower.inUse lower.ordered),
    leads_of_inner rootInUse isInner lower.inUse lower.isLeaf searchesLower byId selected
      (findLower_finds lower.inUse lower.ordered),
    leads_of_inner rootInUse isInner lower.inUse lower.isLeaf searchesUpper byNode selected
      (findUpper_finds lower.inUse lower.ordered)⟩

theorem agree_of_findsItsWay (stores : Stores table bounds least height sub)
    (way : FindsItsWay table key) : LookupsAgree table leaves key := by
  have tailInUse := stores.chain.allocated _ stores.chain.tail_mem
  have level : (table.nodeAt table.mRootId).level = height := stores.root ▸ stores.represents.level_eq
  rcases way.turns with isLeaf | ⟨isInner, lower, upper⟩
  · have isZero : height = 0 := level.symm.trans isLeaf
    subst isZero
    obtain ⟨ptr, pairs, rfl, -⟩ := stores.represents.exists_leaf
    have inChain : table.mRootId ∈ leafPages (.leaf ptr pairs) := by
      rw [stores.root]
      simp [leafPages]
    have isTail : table.mRootId = table.mTailleafId := by
      have tail := stores.chain.tail
      rw [stores.root]
      simpa [leafPages] using tail
    exact (allLead_of_leaf stores).agree tailInUse (stores.chain.filled _ inChain)
      (isTail ▸ way.notLast)
  · have isOne : height = 1 := level.symm.trans isInner
    subst isOne
    obtain ⟨ptr, keys, kids, rfl, -⟩ := stores.represents.exists_inner
    have root : table.mRootId = ptr := stores.root
    rw [root] at lower upper
    obtain ⟨kid, found⟩ := exists_selected stores lower
    have same := slot_unique stores lower upper
    exact (allLead_of_inner stores found lower same).agree tailInUse found.filled
      (lastKey_ne stores found same way.notLast)

/-! ## What lookups that agree have found -/

omit [LinearOrder K] in
theorem lookUp_returned {search : PageId → M (Slots K D) Nat}
    {turn : PageId → Nat → M (Slots K D) PageId} (searches : ∀ n, ReadsOnly (search n))
    (turns : ∀ n slot, ReadsOnly (turn n slot)) {fuel : Nat} {place : PageId × Nat × List Turn}
    (returned : (lookUp search turn fuel).run table = .ok (place, table)) :
    (descend search turn fuel table.mRootId).run table = .ok ((place.1, place.2.2), table) ∧
      (search place.1).run table = .ok (place.2.1, table) := by
  have runs : Runs (lookUp search turn fuel) table fun result _ => result = place :=
    ⟨place, table, returned, rfl⟩
  rw [lookUp, runs_bind, runs_get] at runs
  obtain ⟨node, -, runs⟩ := (readsOnly_getNode _).exists_of_bind runs
  obtain ⟨found, descended, runs⟩ :=
    (readsOnly_descend searches turns fuel table.mRootId).exists_of_bind runs
  obtain ⟨slot, searched, runs⟩ := (searches found.1).exists_of_bind runs
  rw [runs_pure] at runs
  subst runs
  exact ⟨descended, searched⟩

/-- When the turns that a descent took are right, it has found page 1 in the slot, and has
gone on from there. -/
theorem byNode_returned (isInner : (table.nodeAt n).level ≠ 0)
    {search : PageId → M (Slots K D) Nat} {slot fuel : Nat}
    (searches : Runs (search n) table fun found final => found = slot ∧ final = table)
    {found : PageId × List Turn}
    (returned : (descend search (turnByNode (arrays K D)) fuel n).run table = .ok (found, table))
    (selected : ∀ step ∈ found.2, table.Selected step) :
    (table.childs n)[slot]? = some 1 ∧ ∃ fuel below,
      (descend search (turnByNode (arrays K D)) fuel 1).run table = .ok (below, table) ∧
        found.1 = below.1 ∧ ∀ step ∈ below.2, table.Selected step := by
  obtain ⟨fuel, next, below, turned, descended, rfl⟩ :=
    descend_inner_returned isInner searches (readsOnly_turnByNode n slot) returned
  obtain rfl : next = 1 := turnByNode_ensures slot next table turned
  exact ⟨selected ⟨n, slot, 1⟩ List.mem_cons_self, fuel, below, descended, rfl,
    fun step among => selected step (List.mem_cons_of_mem _ among)⟩

omit [LinearOrder K] in
theorem one_not_child (represents : table.Represents (height + 1) sub) (nodup : sub.foot.Nodup)
    (isOne : (sub.ptr : PageId) = 1) {slot : Nat} :
    (table.childs 1)[slot]? ≠ some 1 := by
  intro selected
  obtain ⟨ptr, keys, kids, rfl, -, -, -, childs, -⟩ := represents.exists_inner
  rw [Tree.ptr_inner] at isOne
  rw [← isOne] at selected
  rw [childs] at selected
  obtain ⟨kid, among, same⟩ := List.mem_map.mp (List.mem_of_getElem? selected)
  rw [Tree.foot_inner, Multiset.nodup_cons] at nodup
  apply nodup.1
  rw [← Int.ofNat_inj.mp same]
  exact Memory.Forest.mem_foot.mpr ⟨kid, among, kid.ptr_mem_foot⟩

/-- Two right turns to page 1 are not possible, so that the node is over leaves. -/
theorem height_eq_zero (represents : table.Represents (height + 1) sub)
    (formed : WellFormed bounds least (height + 1) sub) (sorted : Sorted sub.pairs)
    (nodup : sub.foot.Nodup) {fuel : Nat} {found : PageId × List Turn}
    (returned : (descend (findLower (arrays K D) · key) (turnByNode (arrays K D)) fuel sub.ptr).run
      table = .ok (found, table))
    (selected : ∀ step ∈ found.2, table.Selected step) : height = 0 := by
  by_contra higher
  obtain ⟨below, rfl⟩ := Nat.exists_eq_succ_of_ne_zero higher
  have isInner : (table.nodeAt sub.ptr).level ≠ 0 := by
    rw [represents.level_eq]
    exact Nat.succ_ne_zero _
  have searches := @findLower_finds _ _ _ _ _ key represents.allocated
    (ordered_of_represents represents formed sorted)
  obtain ⟨here, fuelBelow, found', returnedBelow, -, selectedBelow⟩ :=
    byNode_returned isInner searches returned selected
  obtain ⟨ptr, keys, kids, rfl, -, -, -, childs, kidsRepresent⟩ := represents.exists_inner
  rw [Tree.ptr_inner, childs] at here
  obtain ⟨kid, among, isOne⟩ := List.mem_map.mp (List.mem_of_getElem? here)
  have kidRepresents := kidsRepresent kid among
  have kidSorted : Sorted kid.pairs := by
    obtain ⟨front, back, rfl⟩ := List.append_of_mem among
    rw [Tree.pairs_inner, Forest.pairs_append, Forest.pairs_cons] at sorted
    exact (sorted_append.mp (sorted_append.mp sorted).2.1).1
  have kidNodup : kid.foot.Nodup := by
    rw [Tree.foot_inner, Multiset.nodup_cons] at nodup
    exact Multiset.nodup_of_le (Forest.foot_le_of_mem among) nodup.2
  have kidInner : (table.nodeAt 1).level ≠ 0 := by
    rw [← isOne, kidRepresents.level_eq]
    exact Nat.succ_ne_zero _
  have kidSearches := @findLower_finds _ _ _ _ _ key kidRepresents.allocated
    (ordered_of_represents kidRepresents (formed.2.2.2.2 kid among) kidSorted)
  rw [isOne] at kidSearches
  have again := (byNode_returned kidInner kidSearches returnedBelow selectedBelow).1
  exact one_not_child kidRepresents kidNodup isOne again

/-- What has been found when the lookups agree: the descents of `exists` and of
`upper_bound` have returned, over right turns, and so has the loop of `count`. -/
theorem exists_returned (agree : LookupsAgree table leaves key) :
    ∃ fuel lower upper, (lookUp (findLower (arrays K D) · key) (turnByNode (arrays K D)) fuel).run
        table = .ok (lower, table) ∧
      (lookUp (findUpper (arrays K D) · key) (turnByNode (arrays K D)) fuel).run table =
        .ok (upper, table) ∧
      (∀ step ∈ lower.2.2 ++ upper.2.2, table.Selected step) ∧
      Runs (countLoop (arrays K D) key fuel lower.1 lower.2.1 0) table fun _ _ => True := by
  obtain ⟨fuel, runs⟩ := agree
  rw [lookUpAll] at runs
  obtain ⟨⟨present, existsTurns⟩, existsRan, runs⟩ := (readsOnly_existsKey fuel key).exists_of_bind runs
  obtain ⟨⟨found, findTurns⟩, -, runs⟩ := (readsOnly_find fuel key).exists_of_bind runs
  obtain ⟨last, -, runs⟩ := readsOnly_endIter.exists_of_bind runs
  obtain ⟨⟨count, countTurns⟩, countRan, runs⟩ := (readsOnly_countKey fuel key).exists_of_bind runs
  obtain ⟨⟨lower, lowerTurns⟩, -, runs⟩ := (readsOnly_lowerBound fuel key).exists_of_bind runs
  obtain ⟨⟨upper, upperTurns⟩, after, upperRan, runs⟩ := (runs_bind ..).mp runs
  dsimp only at runs
  rw [runs_pure] at runs
  obtain ⟨agrees, rfl⟩ := runs
  have lookUps : ReadsOnly (lookUp (findLower (arrays K D) · key) (turnByNode (arrays K D)) fuel) :=
    readsOnly_lookUp (fun n => readsOnly_findLower n key) readsOnly_turnByNode fuel
  have existsRuns : Runs (existsKey (arrays K D) fuel key) after fun result _ =>
    result = (present, existsTurns) := ⟨_, _, existsRan, rfl⟩
  obtain ⟨lowerPlace, lowerRan, existsRuns⟩ := lookUps.exists_of_bind existsRuns
  obtain ⟨isPresent, -, existsRuns⟩ :=
    (readsOnly_hasKeyAt lowerPlace.1 lowerPlace.2.1 key).exists_of_bind existsRuns
  rw [runs_pure, Prod.mk.injEq] at existsRuns
  have countRuns : Runs (countKey (arrays K D) fuel key) after fun _ _ => True :=
    ⟨_, _, countRan, trivial⟩
  obtain ⟨countPlace, countPlaceRan, countRuns⟩ := lookUps.exists_of_bind countRuns
  obtain rfl : lowerPlace = countPlace := by
    rw [lowerRan] at countPlaceRan
    cases countPlaceRan
    rfl
  obtain ⟨number, looped, -⟩ :=
    (readsOnly_countLoop key fuel lowerPlace.1 lowerPlace.2.1 0).exists_of_bind countRuns
  have upperRuns : Runs (upperBound (arrays K D) fuel key) after fun result _ =>
    result = (upper, upperTurns) := ⟨_, _, upperRan, rfl⟩
  obtain ⟨upperPlace, upperPlaceRan, upperRuns⟩ :=
    (readsOnly_lookUp (fun n => readsOnly_findUpper n key) readsOnly_turnByNode fuel).exists_of_bind
      upperRuns
  dsimp only at upperRuns
  rw [runs_pure, Prod.mk.injEq] at upperRuns
  refine ⟨fuel, lowerPlace, upperPlace, lowerRan, upperPlaceRan, ?_, _, _, looped, trivial⟩
  intro step among
  rw [existsRuns.2, upperRuns.2] at among
  apply agrees.turns
  rcases List.mem_append.mp among with inExists | inUpper
  · simp [inExists]
  · simp [inUpper]

/-- The loop of `count` has stayed in the leaf at hand. -/
theorem notLast_of_counted (chain : LeafChain table leaves) (inUse : table.store.Allocated leaf)
    (ordered : table.Ordered leaf) (filled : 0 < (table.nodeAt leaf).slotuse)
    (isTail : lastKeyOf (table.pairs table.mTailleafId) = some key → table.mTailleafId = leaf)
    {fuel : Nat}
    (counted : Runs (countLoop (arrays K D) key fuel leaf (table.lowerSlot leaf key) 0) table
      fun _ _ => True) : lastKeyOf (table.pairs table.mTailleafId) ≠ some key := by
  intro isLast
  have here := isTail isLast
  rw [here] at isLast
  have nextleaf := chain.nextleaf_tail
  rw [here] at nextleaf
  have noNext : ¬ table.store.Allocated (table.nodeAt leaf).nextleaf :=
    fun allocated => ne_of_allocated allocated nextleaf
  obtain ⟨present, atEnd⟩ := (lastKeyOf_pairs_iff ordered filled).mp isLast
  exact counted.not_faults (countLoop_faults inUse ordered noNext (le_refl _) present atEnd)

theorem findsItsWay_of_agree (stores : Stores table bounds least height sub)
    (agree : LookupsAgree table leaves key) : FindsItsWay table key := by
  obtain ⟨fuel, lower, upper, lowerRan, upperRan, selected, counted⟩ := exists_returned agree
  obtain ⟨lowerDescended, lowerSearched⟩ :=
    lookUp_returned (fun n => readsOnly_findLower n key) readsOnly_turnByNode lowerRan
  obtain ⟨upperDescended, -⟩ :=
    lookUp_returned (fun n => readsOnly_findUpper n key) readsOnly_turnByNode upperRan
  have lowerSelected : ∀ step ∈ lower.2.2, table.Selected step :=
    fun step among => selected step (List.mem_append_left _ among)
  have upperSelected : ∀ step ∈ upper.2.2, table.Selected step :=
    fun step among => selected step (List.mem_append_right _ among)
  have inUse := stores.represents.allocated
  have level := stores.represents.level_eq
  have ordered := ordered_of_represents stores.represents stores.formed stores.sorted
  have notNull := ne_of_allocated inUse
  rw [stores.root] at lowerDescended upperDescended
  cases height with
  | zero =>
      have atRoot := descend_leaf_returned inUse level lowerDescended
      have isLeaf : lower.1 = sub.ptr := congrArg Prod.fst atRoot
      rw [isLeaf] at lowerSearched counted
      obtain ⟨isSlot, -⟩ := (findLower_finds inUse ordered).holds lowerSearched
      rw [isSlot] at counted
      obtain ⟨ptr, pairs, rfl, -⟩ := stores.represents.exists_leaf
      have isTail : table.mTailleafId = ptr := by
        have tail := stores.chain.tail
        simp only [leafPages, Tree.leaves_leaf, List.map_singleton, List.getLast?_singleton,
          Option.some_inj] at tail
        exact tail.symm
      have filled := stores.chain.filled ptr (by simp [leafPages])
      exact ⟨stores.root ▸ notNull, .inl (stores.root ▸ level),
        notLast_of_counted stores.chain inUse ordered filled (fun _ => isTail) counted⟩
  | succ height =>
      obtain rfl := height_eq_zero stores.represents stores.formed stores.sorted stores.nodup
        lowerDescended lowerSelected
      obtain ⟨ptr, keys, kids, rfl, -⟩ := stores.represents.exists_inner
      have isInner : (table.nodeAt ptr).level ≠ 0 := by
        rw [show (table.nodeAt ptr).level = 1 from level]
        exact one_ne_zero
      obtain ⟨lowerHere, _, below, belowDescended, isLeaf, -⟩ :=
        byNode_returned isInner (findLower_finds inUse ordered) lowerDescended lowerSelected
      obtain ⟨upperHere, -⟩ :=
        byNode_returned isInner (findUpper_finds inUse ordered) upperDescended upperSelected
      obtain ⟨kid, found⟩ := exists_selected stores lowerHere
      have same := slot_unique stores lowerHere upperHere
      have atFirst : lower.1 = 1 :=
        isLeaf.trans (congrArg Prod.fst (descend_leaf_returned found.inUse found.isLeaf belowDescended))
      rw [atFirst] at lowerSearched counted
      obtain ⟨isSlot, -⟩ := (findLower_finds found.inUse found.ordered).holds lowerSearched
      rw [isSlot] at counted
      have root : table.mRootId = ptr := stores.root
      refine ⟨stores.root ▸ notNull, .inr ?_, ?_⟩
      · rw [root]
        exact ⟨level, lowerHere, upperHere⟩
      · exact notLast_of_counted stores.chain found.inUse found.ordered found.filled
          (tail_of_lastKey stores found same) counted

end Stored

/-! ## The lookups -/

/-- Without a root every lookup follows a null handle. -/
theorem not_agree_of_noRoot (noRoot : table.mRootId = -1) : ¬ LookupsAgree table leaves key := by
  intro agree
  obtain ⟨fuel, lower, upper, lowerRan, -⟩ := exists_returned agree
  have runs : Runs (lookUp (findLower (arrays K D) · key) (turnByNode (arrays K D)) fuel) table
      fun _ _ => True := ⟨_, _, lowerRan, trivial⟩
  rw [lookUp, runs_bind, runs_get, noRoot, runs_bind, runs_getNode] at runs
  exact absurd runs.1.1 (by decide)

/-- The lookups of a key agree exactly when every turn to page 1 is right and the key is
not the last one. -/
theorem lookupsAgree_iff (isTree : IsTree table leaves) :
    LookupsAgree table leaves key ↔ FindsItsWay table key := by
  rcases isTree with noRoot | ⟨bounds, least, height, sub, stores, rfl⟩
  · exact iff_of_false (not_agree_of_noRoot noRoot) fun way => way.root noRoot
  · exact ⟨findsItsWay_of_agree stores, agree_of_findsItsWay stores⟩

theorem twoLeaves_isTree : IsTree twoLeaves [0, 1] :=
  .inr ⟨_, _, _, _, twoLeaves_stores, by simp [leafPages, twoLeavesTree]⟩

theorem lookupsAgree_twoLeaves : LookupsAgree twoLeaves [0, 1] 4 ↔ FindsItsWay twoLeaves 4 :=
  lookupsAgree_iff twoLeaves_isTree

/-- The key 1 is in page 0, but `exists` looks for it in page 1. -/
theorem not_lookupsAgree_twoLeaves :
    IsTree twoLeaves [0, 1] ∧ ¬ LookupsAgree twoLeaves [0, 1] 1 := by
  refine ⟨twoLeaves_isTree, ?_⟩
  intro agree
  have way := findsItsWay_of_agree twoLeaves_stores agree
  have turns := way.turns
  revert turns
  decide

end PersistentBTree.Tables
