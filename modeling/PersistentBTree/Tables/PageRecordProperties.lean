import PersistentBTree.Tables.InsertProperties
import PersistentBTree.Tables.PageRecords

/-! Insertions into a table whose root is its only page. Every search ends at the first
slot, and the page is never split: an insertion is a change of the bytes of this page. -/

set_option autoImplicit false

namespace PersistentBTree.Tables

open Imperative Pages

variable {keys data : DataStructure}

/-! ## Accesses -/

theorem Within.mono {start later length : Nat} (within : Within later length)
    (before : start ≤ later) : Within start length := by
  cases within with
  | inl none_ => exact .inl none_
  | inr inside => exact .inr (Nat.le_trans (Nat.add_le_add_right before length) inside)

theorem accessSlot_natCast {α : Type} (base stride length : Nat) (access : Nat → α) (slot : Nat) :
    accessSlot base stride length access slot =
      if Within (base + stride * slot) length then some (access slot) else none := by
  have inside : (0 : Int) ≤ slot := Int.natCast_nonneg slot
  simp [accessSlot, inside]

/-- What an access returns, and when it stops the program. -/
theorem orFault_accessSlot_runsIf {α S : Type} (base stride length slot : Nat) (access : Nat → α)
    {fault : Fault} {table : Table S} :
    RunsIf (Within (base + stride * slot) length)
      (orFault fault (accessSlot base stride length access slot) : M S α) table
      fun result after => result = access slot ∧ after = table := by
  rw [accessSlot_natCast]
  by_cases within : Within (base + stride * slot) length
  · apply RunsIf.of_runs _ within
    rw [if_pos within, orFault, runs_pure]
    exact ⟨rfl, rfl⟩
  · rw [if_neg within]
    exact .inr ⟨within, faults_throw _ _⟩

/-- A table whose root `n` is its only page, a leaf with these bytes. -/
structure OnePage (n : PageId) (nSlots used : Nat) (bytes : PageBytes) (table : Table PageBytes) :
    Prop where
  capacity : table.nodeslotmax = nSlots
  root : table.mRootId = n
  headLeaf : table.mHeadleafId = n
  someRoot : n ≠ -1
  inUse : table.store.Allocated n
  node : table.nodeAt n = ⟨0, 0, used, -1, -1, bytes⟩

namespace OnePage

variable {n : PageId} {nSlots used : Nat} {bytes : PageBytes} {table : Table PageBytes}

theorem write (page : OnePage n nSlots used bytes table) (used' : Nat) (bytes' : PageBytes) :
    OnePage n nSlots used' bytes' (table.setNode n ⟨0, 0, used', -1, -1, bytes'⟩) where
  capacity := page.capacity
  root := page.root
  headLeaf := page.headLeaf
  someRoot := page.someRoot
  inUse := page.inUse
  node := Table.nodeAt_setNode_self

/-- A program that begins with the node of the page. -/
theorem getNode_bind {α : Type} {condition : Prop} {next : Node PageBytes → M PageBytes α}
    {post : α → Table PageBytes → Prop} (page : OnePage n nSlots used bytes table)
    (rest : RunsIf condition (next ⟨0, 0, used, -1, -1, bytes⟩) table post) :
    RunsIf condition (getNode n >>= next) table post := by
  apply RunsIf.after
  rw [runs_getNode, page.node]
  exact ⟨page.inUse, rest⟩

end OnePage

section Accesses

variable {n : PageId} {nSlots used : Nat} {bytes : PageBytes} {table : Table PageBytes}

/-- The key in a slot of a leaf. -/
def keyIn (keys data : DataStructure) (bytes : PageBytes) (slot : Nat) : DataType keys :=
  ⟨Pages.getKey (recordSizes keys data) (slotArrays keys data true) bytes slot, length_load ..⟩

private theorem length_getData (keys data : DataStructure) (bytes : PageBytes) (slot : Nat) :
    (Pages.getData (recordSizes keys data) (slotArrays keys data true) bytes slot).length =
      data.getSize := length_load ..

/-- The record in a slot of a leaf. -/
def dataIn (keys data : DataStructure) (bytes : PageBytes) (slot : Nat) : DataType data :=
  ⟨Pages.getData (recordSizes keys data) (slotArrays keys data true) bytes slot,
    length_getData keys data bytes slot⟩

/-- The bytes of a leaf after `SetKey`. -/
def putKey (keys data : DataStructure) (bytes : PageBytes) (slot : Nat) (key : DataType keys) :
    PageBytes :=
  Pages.setKey (recordSizes keys data) (slotArrays keys data true) bytes slot key.data

/-- The bytes of a leaf after `SetData`. -/
def putData (keys data : DataStructure) (bytes : PageBytes) (slot : Nat) (value : DataType data) :
    PageBytes :=
  Pages.setData (recordSizes keys data) (slotArrays keys data true) bytes slot value.data

/-- Where the records of a leaf begin. -/
def dataBase (keys data : DataStructure) : Nat := slotdataBase (getNSlots keys data)

theorem getKey_runsIf (page : OnePage n nSlots used bytes table) (slot : Nat) :
    RunsIf (Within (slotkeyBase + keys.getSize * slot) keys.getSize)
      (getKey (pageRecords keys data) n slot) table fun key after =>
        key = keyIn keys data bytes slot ∧ after = table :=
  page.getNode_bind
    (orFault_accessSlot_runsIf slotkeyBase keys.getSize keys.getSize slot (keyIn keys data bytes))

theorem getData_runsIf (page : OnePage n nSlots used bytes table) (slot : Nat) :
    RunsIf (Within (dataBase keys data + data.getSize * slot) data.getSize)
      (getData (pageRecords keys data) n slot) table fun value after =>
        value = dataIn keys data bytes slot ∧ after = table :=
  page.getNode_bind (orFault_accessSlot_runsIf (dataBase keys data) data.getSize data.getSize slot
    (dataIn keys data bytes))

theorem setKey_runsIf (page : OnePage n nSlots used bytes table) (slot : Nat)
    (key : DataType keys) :
    RunsIf (Within (dataBase keys data + data.getSize * slot) keys.getSize)
      (setKey (pageRecords keys data) n slot key) table fun _ after =>
        OnePage n nSlots used (putKey keys data bytes slot key) after := by
  apply page.getNode_bind
  apply RunsIf.before (orFault_accessSlot_runsIf (dataBase keys data) data.getSize keys.getSize
    slot fun slot => putKey keys data bytes slot key)
  intro slots after ⟨written, same⟩
  rw [runs_setNode, same, written]
  exact page.write used _

theorem setData_runsIf (page : OnePage n nSlots used bytes table) (slot : Nat)
    (value : DataType data) :
    RunsIf (Within (dataBase keys data + sizeofInt * slot) data.getSize)
      (setData (pageRecords keys data) n slot value) table fun _ after =>
        OnePage n nSlots used (putData keys data bytes slot value) after := by
  apply page.getNode_bind
  apply RunsIf.before (orFault_accessSlot_runsIf (dataBase keys data) sizeofInt data.getSize
    slot fun slot => putData keys data bytes slot value)
  intro slots after ⟨written, same⟩
  rw [runs_setNode, same, written]
  exact page.write used _

end Accesses

/-! ## Insertion into the page -/

/-- What a loop of moves makes of the bytes. -/
def copyBytes (move : PageBytes → (target source : Nat) → PageBytes) :
    (count l dest : Nat) → PageBytes → PageBytes
  | 0, _, _, bytes => bytes
  | count + 1, l, dest, bytes => copyBytes move count (l + 1) (dest + 1) (move bytes dest l)

/-- The bytes after the keys from the first slot on were copied behind the first unused slot. -/
def copyKeys (keys data : DataStructure) (used : Nat) (bytes : PageBytes) : PageBytes :=
  copyBytes (fun bytes target source => putKey keys data bytes target (keyIn keys data bytes source))
    used 0 (used + 1) bytes

/-- The same with the records. -/
def copyData (keys data : DataStructure) (used : Nat) (bytes : PageBytes) : PageBytes :=
  copyBytes
    (fun bytes target source => putData keys data bytes target (dataIn keys data bytes source))
    used 0 (used + 1) bytes

/-- The bytes after a pair was put into the first slot. -/
def insertBytes (keys data : DataStructure) (used : Nat) (key : DataType keys)
    (value : DataType data) (bytes : PageBytes) : PageBytes :=
  putData keys data (putKey keys data (copyData keys data used (copyKeys keys data used bytes)) 0
    key) 0 value

/-- The slots that this insertion touches lie in the page. The first slot that the search
reads is in the middle. -/
structure StepFits (keys data : DataStructure) (used : Nat) : Prop where
  moveKeys : ∀ i < used, Within (slotkeyBase + keys.getSize * i) keys.getSize ∧
    Within (dataBase keys data + data.getSize * (used + 1 + i)) keys.getSize
  moveData : ∀ i < used, Within (dataBase keys data + data.getSize * i) data.getSize ∧
    Within (dataBase keys data + sizeofInt * (used + 1 + i)) data.getSize
  key : Within (dataBase keys data) keys.getSize
  data : Within (dataBase keys data) data.getSize

section Insertion

variable {n : PageId} {nSlots used : Nat} {bytes : PageBytes} {table : Table PageBytes}
  {key : DataType keys} {value : DataType data}

theorem copyLoop_runsIf {move : (target source : Int) → M PageBytes Unit}
    {change : PageBytes → (target source : Nat) → PageBytes} {fits : (target source : Nat) → Prop}
    (moves : ∀ {bytes table}, OnePage n nSlots used bytes table → ∀ target source : Nat,
      RunsIf (fits target source) (move target source) table fun _ after =>
        OnePage n nSlots used (change bytes target source) after)
    (page : OnePage n nSlots used bytes table) (count l dest : Nat) :
    RunsIf (∀ i < count, fits (dest + i) (l + i)) (copyLoop move count l dest) table
      fun _ after => OnePage n nSlots used (copyBytes change count l dest bytes) after := by
  induction count generalizing bytes table l dest with
  | zero =>
      apply RunsIf.of_runs _ (fun i below => absurd below (Nat.not_lt_zero i))
      exact (runs_pure ..).mpr page
  | succ count ih =>
      have rest : ∀ (_ : Unit) middle, OnePage n nSlots used (change bytes dest l) middle →
          RunsIf (∀ i < count, fits (dest + 1 + i) (l + 1 + i))
            (copyLoop move count ((l : Int) + 1) ((dest : Int) + 1)) middle fun _ after =>
              OnePage n nSlots used (copyBytes change (count + 1) l dest bytes) after := by
        intro _ middle moved
        exact ih moved (l + 1) (dest + 1)
      apply ((moves page dest l).bind rest).congr
      constructor
      · intro ⟨first, others⟩ i below
        cases i with
        | zero => exact first
        | succ i =>
            have later := others i (Nat.lt_of_succ_lt_succ below)
            rwa [Nat.add_right_comm dest, Nat.add_right_comm l] at later
      · intro all
        refine ⟨all 0 (Nat.succ_pos count), ?_⟩
        intro i below
        have later := all (i + 1) (Nat.succ_lt_succ below)
        rwa [← Nat.add_assoc, ← Nat.add_assoc, Nat.add_right_comm dest, Nat.add_right_comm l]
          at later

theorem moveKey_runsIf (page : OnePage n nSlots used bytes table) (target source : Nat) :
    RunsIf (Within (slotkeyBase + keys.getSize * source) keys.getSize ∧
        Within (dataBase keys data + data.getSize * target) keys.getSize)
      (moveKey (pageRecords keys data) n n target source) table fun _ after =>
        OnePage n nSlots used (putKey keys data bytes target (keyIn keys data bytes source))
          after := by
  apply (getKey_runsIf page source).bind
  intro stored after ⟨isKey, same⟩
  rw [isKey, same]
  exact setKey_runsIf page target _

theorem moveData_runsIf (page : OnePage n nSlots used bytes table) (target source : Nat) :
    RunsIf (Within (dataBase keys data + data.getSize * source) data.getSize ∧
        Within (dataBase keys data + sizeofInt * target) data.getSize)
      (moveData (pageRecords keys data) n n target source) table fun _ after =>
        OnePage n nSlots used (putData keys data bytes target (dataIn keys data bytes source))
          after := by
  apply (getData_runsIf page source).bind
  intro stored after ⟨isData, same⟩
  rw [isData, same]
  exact setData_runsIf page target _

private theorem copyLeafKeys_runsIf (page : OnePage n nSlots used bytes table) :
    RunsIf (∀ i < used, Within (slotkeyBase + keys.getSize * i) keys.getSize ∧
        Within (dataBase keys data + data.getSize * (used + 1 + i)) keys.getSize)
      (copyLeafKeys (pageRecords keys data) n n (0 : Nat) used (used + 1)) table fun _ after =>
        OnePage n nSlots used (copyKeys keys data used bytes) after := by
  have whole : copyLeafKeys (pageRecords keys data) n n (0 : Nat) used (used + 1) =
      copyLoop (moveKey (pageRecords keys data) n n) used (0 : Nat) (used + 1 : Nat) := by
    simp [copyLeafKeys]
  rw [whole]
  apply (copyLoop_runsIf (fun page => @moveKey_runsIf keys data _ _ _ _ _ page) page used 0
    (used + 1)).congr
  simp only [Nat.zero_add]

private theorem copyLeafData_runsIf (page : OnePage n nSlots used bytes table) :
    RunsIf (∀ i < used, Within (dataBase keys data + data.getSize * i) data.getSize ∧
        Within (dataBase keys data + sizeofInt * (used + 1 + i)) data.getSize)
      (copyLeafData (pageRecords keys data) n n (0 : Nat) used (used + 1)) table fun _ after =>
        OnePage n nSlots used (copyData keys data used bytes) after := by
  have whole : copyLeafData (pageRecords keys data) n n (0 : Nat) used (used + 1) =
      copyLoop (moveData (pageRecords keys data) n n) used (0 : Nat) (used + 1 : Nat) := by
    simp [copyLeafData]
  rw [whole]
  apply (copyLoop_runsIf (fun page => @moveData_runsIf keys data _ _ _ _ _ page) page used 0
    (used + 1)).congr
  simp only [Nat.zero_add]

theorem insertPair_runsIf (page : OnePage n nSlots used bytes table) :
    RunsIf (StepFits keys data used) (insertPair (pageRecords keys data) n 0 key value) table
      fun _ after => OnePage n nSlots (used + 1) (insertBytes keys data used key value bytes)
        after := by
  have setUsed : ∀ {bytes after}, OnePage n nSlots used bytes after →
      Runs (setSlotuse n (used + 1)) after fun _ final =>
        OnePage n nSlots (used + 1) bytes final := by
    intro bytes after page
    rw [runs_setSlotuse, Table.setUsed, page.node]
    exact ⟨page.inUse, page.write (used + 1) bytes⟩
  have stores : ∀ {bytes after}, OnePage n nSlots used bytes after →
      RunsIf (Within (dataBase keys data) keys.getSize ∧ Within (dataBase keys data) data.getSize)
        (do
          setKey (pageRecords keys data) n (0 : Nat) key
          setData (pageRecords keys data) n (0 : Nat) value
          setSlotuse n (used + 1)) after fun _ final =>
            OnePage n nSlots (used + 1) (putData keys data (putKey keys data bytes 0 key) 0 value)
              final := by
    intro bytes after page
    apply (setKey_runsIf page 0 key).bind
    intro _ middle page
    apply (setData_runsIf page 0 value).before
    intro _ final page
    exact setUsed page
  apply RunsIf.after
  rw [runs_slotuse, page.node]
  refine ⟨page.inUse, ?_⟩
  apply (((copyLeafKeys_runsIf page).bind fun _ _ page =>
    (copyLeafData_runsIf page).bind fun _ _ page => stores page)).congr
  constructor
  · intro reached
    obtain ⟨moveKeys, moveData, key, data⟩ := reached
    exact ⟨moveKeys, moveData, key, data⟩
  · intro fits
    exact ⟨fits.moveKeys, fits.moveData, fits.key, fits.data⟩

/-- The search goes on in the lower half at every slot. -/
private theorem searchLoop_runsIf (page : OnePage n nSlots used bytes table) {fuel hi : Nat}
    (enough : hi ≤ fuel) :
    RunsIf (hi = 0 ∨ Within (slotkeyBase + keys.getSize * (hi / 2)) keys.getSize)
      (searchLoop (pageRecords keys data) ((pageRecords keys data).keyLessEqual key) n fuel 0 hi)
      table fun slot after =>
        slot = 0 ∧ after = table := by
  induction fuel generalizing hi with
  | zero =>
      have done : hi = 0 := Nat.eq_zero_of_le_zero enough
      apply RunsIf.of_runs _ (.inl done)
      rw [searchLoop, if_neg (by omega), runs_pure]
      exact ⟨rfl, rfl⟩
  | succ fuel ih =>
      unfold searchLoop
      by_cases below : 0 < hi
      · rw [if_pos below]
        have lower : ∀ stored after, stored = keyIn keys data bytes ((0 + hi) / 2) ∧ after = table →
            RunsIf (hi / 2 = 0 ∨ Within (slotkeyBase + keys.getSize * (hi / 2 / 2)) keys.getSize)
              (if (pageRecords keys data).keyLessEqual key stored then
                searchLoop (pageRecords keys data) ((pageRecords keys data).keyLessEqual key) n fuel
                  0 ((0 + hi) / 2)
              else searchLoop (pageRecords keys data) ((pageRecords keys data).keyLessEqual key) n
                fuel ((0 + hi) / 2 + 1) hi) after
              fun slot after => slot = 0 ∧ after = table := by
          intro stored after reached
          obtain ⟨_, same⟩ := reached
          rw [same, Nat.zero_add]
          exact ih (by omega)
        apply ((getKey_runsIf page ((0 + hi) / 2)).bind lower).congr
        rw [Nat.zero_add]
        constructor
        · intro reached
          obtain ⟨first, _⟩ := reached
          exact .inr first
        · intro first
          have within := first.resolve_left (Nat.ne_of_gt below)
          refine ⟨within, .inr (within.mono ?_)⟩
          apply Nat.add_le_add_left
          exact Nat.mul_le_mul_left _ (Nat.div_le_self _ _)
      · rw [if_neg below]
        have done : hi = 0 := Nat.eq_zero_of_not_pos below
        apply RunsIf.of_runs _ (.inl done)
        exact (runs_pure ..).mpr ⟨rfl, rfl⟩

theorem findLower_runsIf (page : OnePage n nSlots used bytes table) :
    RunsIf (used = 0 ∨ Within (slotkeyBase + keys.getSize * (used / 2)) keys.getSize)
      (findLower (pageRecords keys data) n key) table fun slot after =>
        slot = 0 ∧ after = table := by
  apply RunsIf.after
  rw [runs_slotuse, page.node]
  refine ⟨page.inUse, ?_⟩
  by_cases none_ : used = 0
  · apply RunsIf.of_runs _ (.inl none_)
    rw [if_pos none_, runs_pure]
    exact ⟨rfl, rfl⟩
  · rw [if_neg none_]
    exact searchLoop_runsIf page (Nat.le_refl used)

/-- The leaf is not full, whatever it contains, and gets the pair. -/
private theorem insertDescend_runsIf (page : OnePage n nSlots used bytes table)
    (some_ : nSlots ≠ 0) (fuel : Nat) :
    RunsIf (StepFits keys data used)
      (insertDescend (pageRecords keys data) (fuel + 1) n key value) table fun inserted after =>
        inserted.inserted = true ∧ inserted.split = none ∧
          OnePage n nSlots (used + 1) (insertBytes keys data used key value bytes) after := by
  have intoLeaf : ∀ (slot : Nat) after, slot = 0 ∧ after = table →
      RunsIf (StepFits keys data used)
        (insertIntoLeaf (pageRecords keys data) n slot key value) after fun inserted after =>
          inserted.inserted = true ∧ inserted.split = none ∧
            OnePage n nSlots (used + 1) (insertBytes keys data used key value bytes) after := by
    intro slot after ⟨first, same⟩
    rw [first, same]
    have room : (0 == nSlots) = false := beq_false_of_ne some_.symm
    apply RunsIf.after
    rw [runs_isFull, page.node, page.capacity]
    simp only [room]
    refine ⟨page.inUse, (insertPair_runsIf page).before ?_⟩
    intro _ final page
    exact (runs_pure ..).mpr ⟨rfl, rfl, page⟩
  apply RunsIf.after
  rw [runs_isLeaf, page.node]
  refine ⟨page.inUse, ?_⟩
  apply ((findLower_runsIf page).bind intoLeaf).congr
  constructor
  · intro ⟨_, fits⟩
    exact fits
  · intro fits
    refine ⟨?_, fits⟩
    by_cases none_ : used = 0
    · exact .inl none_
    · exact .inr (fits.moveKeys (used / 2) (by omega)).1

theorem insert_runsIf (some_ : nSlots ≠ 0)
    (rooted : Runs insertRoot table fun _ middle => OnePage n nSlots used bytes middle)
    (key : DataType keys) (value : DataType data) :
    RunsIf (StepFits keys data used) (insert (pageRecords keys data) key value) table
      fun _ after =>
        OnePage n nSlots (used + 1) (insertBytes keys data used key value bytes) after := by
  apply RunsIf.after
  apply rooted.mono
  intro _ middle page
  apply RunsIf.after
  rw [runs_get, page.root]
  apply page.getNode_bind
  apply (insertDescend_runsIf page some_ 0).before
  intro inserted final ⟨isInserted, isNone, page⟩
  rw [isNone, growRoot]
  simp only [runs_bind, runs_pure, runs_modify, isInserted]
  exact ⟨page.capacity, page.root, page.headLeaf, page.someRoot, page.inUse, page.node⟩

end Insertion

/-! ## Runs of insertions -/

/-- A table that `insert_start` gives a root with these bytes, if it has none. -/
def Ready (n : PageId) (nSlots used : Nat) (bytes : PageBytes) (table : Table PageBytes) : Prop :=
  Runs insertRoot table fun _ middle =>
    OnePage n nSlots used bytes middle ∧ (used ≠ 0 → middle = table)

/-- The bytes after the insertions of some pairs. -/
def bytesAfter (keys data : DataStructure) :
    List (DataType keys × DataType data) → (used : Nat) → PageBytes → PageBytes
  | [], _, bytes => bytes
  | (key, value) :: rest, used, bytes =>
      bytesAfter keys data rest (used + 1) (insertBytes keys data used key value bytes)

theorem ready_created (nSlots : Nat) : Ready 0 nSlots 0 zeroBytes (Table.created zeroBytes nSlots) := by
  unfold Ready insertRoot
  have noRoot : (Table.created zeroBytes nSlots).mRootId = -1 := rfl
  rw [runs_bind, runs_get, if_pos noRoot, runs_bind]
  apply allocateLeaf_runs (.created _)
  simp only [runs_bind, runs_pageId, runs_modify]
  refine ⟨?_, fun some_ => absurd rfl some_⟩
  have inUse : (Table.created zeroBytes nSlots).withLeaf.store.Allocated 0 :=
    (Table.allocated_withLeaf (.created _)).mpr (.inr rfl)
  exact ⟨rfl, rfl, rfl, by decide, inUse, rfl⟩

section Insertions

variable {n : PageId} {nSlots used : Nat} {bytes : PageBytes} {table : Table PageBytes}

theorem OnePage.ready (page : OnePage n nSlots used bytes table) :
    Ready n nSlots used bytes table := by
  have rooted : table.mRootId ≠ -1 := by
    rw [page.root]
    exact page.someRoot
  unfold Ready insertRoot
  rw [runs_bind, runs_get, if_neg rooted, runs_pure]
  exact ⟨page, fun _ => rfl⟩

theorem Ready.onePage (ready : Ready n nSlots used bytes table) (some_ : used ≠ 0) :
    OnePage n nSlots used bytes table := by
  obtain ⟨_, middle, -, page, same⟩ := ready
  rw [← same some_]
  exact page

theorem bytesAfter_append (front rest : List (DataType keys × DataType data)) :
    bytesAfter keys data (front ++ rest) used bytes =
      bytesAfter keys data rest (used + front.length) (bytesAfter keys data front used bytes) := by
  induction front generalizing used bytes with
  | nil => rfl
  | cons pair front ih =>
      rw [List.cons_append, bytesAfter, ih, List.length_cons, Nat.add_assoc, Nat.add_comm 1]
      rfl

theorem insertAll_runsIf (some_ : nSlots ≠ 0) (ready : Ready n nSlots used bytes table)
    (pairs : List (DataType keys × DataType data)) :
    RunsIf (∀ i < pairs.length, StepFits keys data (used + i))
      (insertAll (pageRecords keys data) pairs) table fun _ after =>
        Ready n nSlots (used + pairs.length) (bytesAfter keys data pairs used bytes) after := by
  induction pairs generalizing used bytes table with
  | nil =>
      apply RunsIf.of_runs _ (fun i below => absurd below (Nat.not_lt_zero i))
      exact (runs_pure ..).mpr ready
  | cons pair rest ih =>
      have first := insert_runsIf some_ (ready.mono fun _ _ page => page.1) pair.1 pair.2
      have others : ∀ (_ : Iterator × Bool) after,
          OnePage n nSlots (used + 1) (insertBytes keys data used pair.1 pair.2 bytes) after →
          RunsIf (∀ i < rest.length, StepFits keys data (used + 1 + i))
            (insertAll (pageRecords keys data) rest) after fun _ final =>
              Ready n nSlots (used + (rest.length + 1))
                (bytesAfter keys data (pair :: rest) used bytes) final := by
        intro _ after page
        have later := ih page.ready
        rwa [Nat.add_assoc used 1, Nat.add_comm 1] at later
      apply (first.bind others).congr
      constructor
      · intro ⟨now, later⟩ i below
        cases i with
        | zero => exact now
        | succ i =>
            have fits := later i (Nat.lt_of_succ_lt_succ below)
            rwa [Nat.add_assoc, Nat.add_comm 1] at fits
      · intro all
        refine ⟨all 0 (Nat.succ_pos _), ?_⟩
        intro i below
        have fits := all (i + 1) (Nat.succ_lt_succ below)
        rwa [Nat.add_comm i, ← Nat.add_assoc] at fits

end Insertions

end PersistentBTree.Tables
