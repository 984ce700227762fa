import PersistentBTree.Tables.InsertProperties

/-! What an insertion should leave in a node, and when it does: the slots are copied
behind the ones in use instead of being shifted by one, and a split does not copy the
data. -/

set_option autoImplicit false

namespace PersistentBTree.Tables

open Imperative Pages

variable {K D : Type}

/-! ## Contents -/

namespace Table

variable (table : Table (Slots K D)) (n : PageId)

/-- The pair in a slot of the new leaf, once `n` is split. -/
def splitPairAt (slot : Int) : K × D :=
  let used := (table.nodeAt n).slotuse
  (splice (table.cells (keyColumn K D) n) (table.cells (keyColumn K D) table.fresh)
      (used / 2 : Nat) (used - used / 2) 0 slot,
    table.cells (dataColumn K D) table.fresh slot)

/-- The pair in a slot of the upper half of a leaf. -/
def upperPairAt (slot : Int) : K × D := table.pairAt n (((table.nodeAt n).slotuse / 2 : Nat) + slot)

end Table

/-! ## Promises -/

section Promises

variable [LinearOrder K] (table : Table (Slots K D)) (leaf inner newchild : PageId) (fuel slot : Nat)
  (key : K) (value : D)

/-- The slot of a new key. -/
def FoundAt : Prop :=
  Runs (findLower (arrays K D) leaf key) table fun found _ => found = slot

/-- A leaf is full when the field that `isfull` reads says so. -/
def IsFull : Prop := (table.nodeAt leaf).nSlots = table.nodeslotmax

omit [LinearOrder K] in
instance : Decidable (IsFull table leaf) := inferInstanceAs (Decidable (_ = _))

def InsertsPair : Prop :=
  Runs (insertDescend (arrays K D) (fuel + 1) leaf key value) table fun result after =>
    result.split = none ∧ after.pairs leaf = insertedAt (table.pairs leaf) slot (key, value)

def SplitsAndInserts : Prop :=
  Runs (insertDescend (arrays K D) (fuel + 1) leaf key value) table fun result after =>
    ∃ newkey newleaf, result.split = some (newkey, newleaf) ∧
      after.pairs leaf ++ after.pairs newleaf = insertedAt (table.pairs leaf) slot (key, value)

def InsertsChild (child : Insertion K) (newkey : KeyType K) : Prop :=
  Runs (insertSplitChild (arrays K D) inner slot child newkey newchild) table fun result after =>
    result.split = none ∧ after.keys inner = insertedAt (table.keys inner) slot key ∧
      after.childs inner = insertedAt (table.childs inner) (slot + 1) newchild

end Promises

/-- An insertion into a node of the table loses nothing: the new pair is put between the
others, and so are the new key and child of an inner node. -/
structure LosesNothing [LinearOrder K] (table : Table (Slots K D)) : Prop where
  leaf : ∀ leaf fuel slot key value, table.store.Allocated leaf →
    (table.nodeAt leaf).isLeafNode = true → FoundAt table leaf slot key → ¬ IsFull table leaf →
      InsertsPair table leaf fuel slot key value
  fullLeaf : ∀ leaf fuel slot key value, table.store.Allocated leaf →
    ((table.nodeAt leaf).nextleaf = -1 ∨ table.store.Allocated (table.nodeAt leaf).nextleaf) →
    (table.nodeAt leaf).isLeafNode = true → FoundAt table leaf slot key → IsFull table leaf →
      SplitsAndInserts table leaf fuel slot key value
  inner : ∀ inner newchild slot key child newkey, table.store.Allocated inner →
    table.store.Allocated newchild → slot ≤ (table.nodeAt inner).slotuse →
    KeyType.Holds newkey table inner key → ¬ IsFull table inner →
      InsertsChild table inner newchild slot key child newkey

/-- From the slot on, each cell up to the first unused one repeats the one before it. -/
def Repeats {α : Type} (cells : Int → α) (slot used : Nat) : Prop :=
  ∀ i : Nat, slot ≤ i → i < used → cells (i + 1) = cells i

/-- A split and an insertion leave what they should: the half with the new pair repeats its
pairs, and the page of the new leaf had the data of the upper half before. -/
def SplitFits (table : Table (Slots K D)) (leaf : PageId) (slot : Nat) : Prop :=
  let used := (table.nodeAt leaf).slotuse
  if slot < used / 2 then
    Repeats (table.pairAt leaf) slot (used / 2) ∧
      ∀ j : Nat, j < used - used / 2 → table.splitPairAt leaf j = table.upperPairAt leaf j
  else
    (∀ j : Nat, j < slot - used / 2 → table.splitPairAt leaf j = table.upperPairAt leaf j) ∧
      ∀ j : Nat, slot - used / 2 ≤ j → j < used - used / 2 →
        table.splitPairAt leaf (j + 1) = table.upperPairAt leaf j

section Insertions

variable [LinearOrder K] {table : Table (Slots K D)} {leaf inner newchild : PageId} {fuel slot : Nat}
  {key : K} {value : D}

omit [LinearOrder K] in
private theorem pairs_congr {after : Table (Slots K D)}
    (same : after.nodeAt leaf = table.nodeAt leaf) : after.pairs leaf = table.pairs leaf := by
  unfold Table.pairs Table.pairAt Table.cells
  rw [same]

omit [LinearOrder K] in
/-- The pairs of a leaf into which a pair was written. -/
private theorem pairs_of_written {after : Table (Slots K D)}
    (written : PairWritten table after leaf slot key value) :
    after.pairs leaf = firstCells (Function.update (table.pairAt leaf) slot (key, value))
      ((table.nodeAt leaf).slotuse + 1) := by
  rw [Table.pairs, written.slotuse, firstCells_eq_iff]
  intro i low
  rw [Table.pairAt, written.keys i (by omega), written.data i (by omega)]
  by_cases here : (i : Int) = slot
  · rw [here]
    simp
  · simp [Function.update_of_ne here, Table.pairAt]

/-- Descending to a leaf is inserting at the slot that is found. -/
theorem insertDescend_iff {post : Insertion K → Table (Slots K D) → Prop}
    (inUse : table.store.Allocated leaf) (isLeaf : (table.nodeAt leaf).isLeafNode = true)
    (found : FoundAt table leaf slot key) :
    slot ≤ (table.nodeAt leaf).slotuse ∧
      (Runs (insertDescend (arrays K D) (fuel + 1) leaf key value) table post ↔
        Runs (insertIntoLeaf (arrays K D) leaf slot key value) table post) := by
  obtain ⟨_, _, returned, ⟨rfl, inside⟩, rfl⟩ := (findLower_runs inUse).and found
  refine ⟨inside, ?_⟩
  unfold insertDescend
  simp only [runs_bind, runs_isLeaf, isLeaf, if_true]
  constructor
  · intro runs
    exact runs.2.holds returned
  · intro runs
    exact ⟨inUse, _, _, returned, runs⟩

/-- Into a leaf that is not full the pair is written. -/
theorem insertIntoLeaf_runs (inUse : table.store.Allocated leaf)
    (inside : slot ≤ (table.nodeAt leaf).slotuse) (room : ¬ IsFull table leaf) :
    Runs (insertIntoLeaf (arrays K D) leaf slot key value) table fun result after =>
      result.split = none ∧ PairWritten table after leaf slot key value := by
  have full : ((table.nodeAt leaf).nSlots == table.nodeslotmax) = false := beq_false_of_ne room
  unfold insertIntoLeaf
  simp only [runs_bind, runs_isFull, full, Bool.false_eq_true, if_false, runs_pure]
  exact ⟨inUse, (insertPair_runs inUse inside).mono fun _ _ written => ⟨trivial, written⟩⟩

theorem insertsPair_iff (inUse : table.store.Allocated leaf)
    (isLeaf : (table.nodeAt leaf).isLeafNode = true) (found : FoundAt table leaf slot key)
    (room : ¬ IsFull table leaf) : InsertsPair table leaf fuel slot key value ↔
      Repeats (table.pairAt leaf) slot (table.nodeAt leaf).slotuse := by
  obtain ⟨inside, descends⟩ := insertDescend_iff inUse isLeaf found
  rw [InsertsPair, descends]
  refine (insertIntoLeaf_runs inUse inside room).iff ?_
  intro result after ⟨isNone, written⟩
  rw [pairs_of_written written, Table.pairs, firstCells_update_iff inside]
  simp only [isNone, true_and, Repeats, implies_true]

omit [LinearOrder K] in
private theorem pairs_eq_halves (table : Table (Slots K D)) (leaf : PageId) :
    table.pairs leaf = firstCells (table.pairAt leaf) ((table.nodeAt leaf).slotuse / 2) ++
      firstCells (table.upperPairAt leaf)
        ((table.nodeAt leaf).slotuse - (table.nodeAt leaf).slotuse / 2) := by
  have halves : (table.nodeAt leaf).slotuse = (table.nodeAt leaf).slotuse / 2 +
      ((table.nodeAt leaf).slotuse - (table.nodeAt leaf).slotuse / 2) := by omega
  unfold Table.pairs
  conv_lhs => rw [halves]
  exact firstCells_add _

namespace LeafSplit

variable {after : Table (Slots K D)}

omit [LinearOrder K] in
theorem pairAt_leaf (split : LeafSplit table after leaf) : after.pairAt leaf = table.pairAt leaf := by
  funext i
  simp only [Table.pairAt, Table.cells, split.slots]

omit [LinearOrder K] in
theorem pairAt_fresh (split : LeafSplit table after leaf) :
    after.pairAt table.fresh = table.splitPairAt leaf := by
  funext i
  simp only [Table.pairAt, split.freshKeys, split.freshData, Table.splitPairAt]

end LeafSplit

/-- A full leaf is split, and the pair is written to one of the halves. -/
private theorem splitAndInsert_runs (sound : table.store.Sound) (inUse : table.store.Allocated leaf)
    (linked : (table.nodeAt leaf).nextleaf = -1 ∨
      table.store.Allocated (table.nodeAt leaf).nextleaf)
    (inside : slot ≤ (table.nodeAt leaf).slotuse) (full : IsFull table leaf) :
    Runs (insertIntoLeaf (arrays K D) leaf slot key value) table fun result after =>
      (∃ newkey, result.split = some (newkey, table.fresh)) ∧
      ∃ middle, LeafSplit table middle leaf ∧
        if slot < (table.nodeAt leaf).slotuse / 2 then PairWritten middle after leaf slot key value
        else PairWritten middle after table.fresh (slot - (table.nodeAt leaf).slotuse / 2) key
          value := by
  have isFull : ((table.nodeAt leaf).nSlots == table.nodeslotmax) = true := beq_iff_eq.mpr full
  unfold insertIntoLeaf
  simp only [runs_bind, runs_isFull, isFull, if_true]
  refine ⟨inUse, (splitLeafNode_runs sound inUse linked).mono ?_⟩
  rintro ⟨splitkey, _⟩ middle ⟨rfl, split⟩
  have leafUse := (split.allocated leaf).mpr (.inl inUse)
  have freshUse := (split.allocated table.fresh).mpr (.inr rfl)
  simp only [runs_bind, runs_slotuse, split.slotuse, runs_ite, runs_pure]
  refine ⟨leafUse, ?_⟩
  by_cases upper : (table.nodeAt leaf).slotuse / 2 ≤ slot
  · rw [if_pos upper]
    refine (insertPair_runs freshUse ?_).mono fun _ after written => ?_
    · rw [split.freshUse]
      omega
    · exact ⟨⟨splitkey, rfl⟩, middle, split, by rwa [if_neg (by omega)]⟩
  · rw [if_neg upper]
    refine (insertPair_runs leafUse ?_).mono fun _ after written => ?_
    · rw [split.slotuse]
      omega
    · exact ⟨⟨splitkey, rfl⟩, middle, split, by rwa [if_pos (by omega)]⟩

theorem splitsAndInserts_iff (sound : table.store.Sound) (inUse : table.store.Allocated leaf)
    (linked : (table.nodeAt leaf).nextleaf = -1 ∨
      table.store.Allocated (table.nodeAt leaf).nextleaf)
    (isLeaf : (table.nodeAt leaf).isLeafNode = true) (found : FoundAt table leaf slot key)
    (full : IsFull table leaf) :
    SplitsAndInserts table leaf fuel slot key value ↔ SplitFits table leaf slot := by
  obtain ⟨inside, descends⟩ := insertDescend_iff inUse isLeaf found
  rw [SplitsAndInserts, descends]
  refine (splitAndInsert_runs sound inUse linked inside full).iff ?_
  rintro result after ⟨⟨newkey, isSplit⟩, middle, split, written⟩
  have newleaf : (∃ newkey newleaf, result.split = some (newkey, newleaf) ∧
      after.pairs leaf ++ after.pairs newleaf = insertedAt (table.pairs leaf) slot (key, value)) ↔
      after.pairs leaf ++ after.pairs table.fresh =
        insertedAt (table.pairs leaf) slot (key, value) := by
    simp [isSplit]
  rw [newleaf, pairs_eq_halves table leaf, SplitFits]
  split_ifs at written ⊢ with lower
  · -- the pair is in the lower half
    have right : after.pairs table.fresh = middle.pairs table.fresh :=
      pairs_congr (written.fills.nodeAt_of_ne split.apart.symm)
    rw [pairs_of_written written, right, insertedAt_append_left (by simp; omega),
      append_eq_append_iff_of_length (by simp [insertedAt, split.slotuse]; omega),
      split.pairAt_leaf, split.slotuse, firstCells_update_iff (by omega), Table.pairs,
      split.pairAt_fresh, split.freshUse, firstCells_eq_iff]
    simp only [implies_true, true_and, Repeats]
  · -- the pair is in the upper half
    have left : after.pairs leaf = middle.pairs leaf :=
      pairs_congr (written.fills.nodeAt_of_ne split.apart)
    rw [pairs_of_written written, left, insertedAt_append_right (by simp; omega),
      append_eq_append_iff_of_length (by simp [Table.pairs, split.slotuse]), Table.pairs,
      split.pairAt_leaf, split.slotuse, split.pairAt_fresh, split.freshUse, length_firstCells,
      firstCells_update_iff (by omega)]
    simp only [true_and]

theorem insertsChild_iff (sound : table.store.Sound) (inUse : table.store.Allocated inner)
    (childUse : table.store.Allocated newchild) (inside : slot ≤ (table.nodeAt inner).slotuse)
    {child : Insertion K} {newkey : KeyType K} (holds : newkey.Holds table inner key)
    (room : ¬ IsFull table inner) :
    InsertsChild table inner newchild slot key child newkey ↔
      Repeats (table.cells (keyColumn K D) inner) slot (table.nodeAt inner).slotuse ∧
        Repeats (table.cells (childColumn K D) inner) (slot + 1)
          ((table.nodeAt inner).slotuse + 1) := by
  have full : ((table.nodeAt inner).nSlots == table.nodeslotmax) = false := beq_false_of_ne room
  have inserted : Runs (insertSplitChild (arrays K D) inner slot child newkey newchild) table
      fun result after => result.split = none ∧ ChildWritten table after inner slot key newchild := by
    unfold insertSplitChild
    simp only [runs_bind, runs_isFull, full, Bool.false_eq_true, if_false, runs_pure]
    refine ⟨inUse, (insertChild_runs inUse inside holds newchild).mono fun _ _ written => ?_⟩
    rw [sound.id_of_allocated childUse] at written
    exact ⟨trivial, written⟩
  rw [InsertsChild]
  refine inserted.iff ?_
  intro result after reached
  obtain ⟨isNone, written⟩ := reached
  have keys : after.keys inner = firstCells (Function.update (table.cells (keyColumn K D) inner)
      slot key) ((table.nodeAt inner).slotuse + 1) := by
    rw [Table.keys, written.slotuse, firstCells_eq_iff]
    intro i low
    exact written.keys i (by omega)
  have childs : after.childs inner = firstCells (Function.update
      (table.cells (childColumn K D) inner) (slot + 1 : Nat) newchild)
      ((table.nodeAt inner).slotuse + 1 + 1) := by
    rw [Table.childs, written.slotuse, firstCells_eq_iff]
    intro i low
    exact written.childs i (by omega)
  rw [keys, childs, Table.keys, Table.childs, firstCells_update_iff inside,
    firstCells_update_iff (by omega)]
  simp only [isNone, true_and, Repeats, implies_true]

/-- An insertion loses nothing exactly when what is overwritten is there once more. -/
theorem losesNothing_cases (sound : table.store.Sound) :
    (∀ leaf fuel slot key value, table.store.Allocated leaf →
      (table.nodeAt leaf).isLeafNode = true → FoundAt table leaf slot key → ¬ IsFull table leaf →
        (InsertsPair table leaf fuel slot key value ↔
          Repeats (table.pairAt leaf) slot (table.nodeAt leaf).slotuse)) ∧
    (∀ leaf fuel slot key value, table.store.Allocated leaf →
      ((table.nodeAt leaf).nextleaf = -1 ∨ table.store.Allocated (table.nodeAt leaf).nextleaf) →
      (table.nodeAt leaf).isLeafNode = true → FoundAt table leaf slot key → IsFull table leaf →
        (SplitsAndInserts table leaf fuel slot key value ↔ SplitFits table leaf slot)) ∧
    ∀ inner newchild slot key child newkey, table.store.Allocated inner →
      table.store.Allocated newchild → slot ≤ (table.nodeAt inner).slotuse →
      KeyType.Holds newkey table inner key → ¬ IsFull table inner →
        (InsertsChild table inner newchild slot key child newkey ↔
          Repeats (table.cells (keyColumn K D) inner) slot (table.nodeAt inner).slotuse ∧
            Repeats (table.cells (childColumn K D) inner) (slot + 1)
              ((table.nodeAt inner).slotuse + 1)) := by
  refine ⟨?_, ?_, ?_⟩
  · intro leaf fuel slot key value inUse isLeaf found room
    exact insertsPair_iff inUse isLeaf found room
  · intro leaf fuel slot key value inUse linked isLeaf found full
    exact splitsAndInserts_iff sound inUse linked isLeaf found full
  · intro inner newchild slot key child newkey inUse childUse inside holds room
    exact insertsChild_iff sound inUse childUse inside holds room

end Insertions

/-! ## A small leaf -/

/-- A table with a root leaf that contains the keys 1 and 2. -/
def twoKeys : Table (Slots Nat Nat) :=
  Table.setNode
    { store := (Store.created (Node.zero ⟨fun _ => 0, fun _ => 0, fun _ => 0⟩)).append
      nSlots := 4
      nodeslotmax := 4
      minnodeslots := 2
      mRootId := 0
      mHeadleafId := 0
      mTailleafId := 0
      mStats := { itemcount := 2, leaves := 1 } }
    0 ⟨0, 0, 2, -1, -1, ⟨fun slot => slot.toNat + 1, fun slot => 10 * slot.toNat + 10, fun _ => 0⟩⟩

private theorem twoKeys_sound : twoKeys.store.Sound :=
  Table.sound_setNode (.append (.created _))

private theorem twoKeys_found : FoundAt twoKeys 0 0 0 :=
  ⟨0, twoKeys, rfl, rfl⟩

/-- A pair that is inserted at the front is not followed by both of the others. -/
theorem losesNothing_cases_twoKeys :
    InsertsPair twoKeys 0 0 0 0 5 ↔ Repeats (twoKeys.pairAt 0) 0 2 :=
  (losesNothing_cases twoKeys_sound).1 0 0 0 0 5 (by decide) rfl twoKeys_found (by decide)

theorem not_losesNothing_twoKeys : ¬ LosesNothing twoKeys := by
  intro losesNothing
  have inserts := losesNothing.leaf 0 0 0 0 5 (by decide) rfl twoKeys_found (by decide)
  have repeats := (insertsPair_iff (by decide) rfl twoKeys_found (by decide)).mp inserts
  have same := repeats 0 (Nat.le_refl 0) Nat.two_pos
  revert same
  decide

end PersistentBTree.Tables
