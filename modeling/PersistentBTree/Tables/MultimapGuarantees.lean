import PersistentBTree.Tables.PageLookupProperties

/-! Of which sequences of insertions a table in a file keeps what an ordered multimap keeps.
The key that is read from the first slot is not where keys are written to, and every lookup
ends there. -/

set_option autoImplicit false

namespace PersistentBTree.Tables

open Imperative Pages

attribute [ext] DataType

/-- All bytes are zero. -/
def DataType.IsZero {columns : DataStructure} (record : DataType columns) : Prop :=
  ∀ byte ∈ record.data, byte = 0

section Conditions

variable (keys data : DataStructure)

/-- The last slots that are touched when `last + 1` pairs are inserted and listed lie in the
page. Copies are made behind the first unused slot. -/
structure FitInPage (last : Nat) : Prop where
  keySlot : Within (slotkeyBase + keys.getSize * last) keys.getSize
  dataSlot : Within (dataBase keys data + data.getSize * last) data.getSize
  keyCopy : Within (dataBase keys data + data.getSize * (2 * last)) keys.getSize
  dataCopy : Within (dataBase keys data + sizeofInt * (2 * last)) data.getSize

/-- The key in the first slot of a page without any other bytes, once a pair was put there. -/
def keyReadBack (pair : DataType keys × DataType data) : DataType keys :=
  keyIn keys data (putData keys data (putKey keys data zeroBytes 0 pair.1) 0 pair.2) 0

/-- All bytes that were inserted are zero, apart from those of the last record, if the keys
in use end before it. -/
structure OnlyZeros (front : List (DataType keys × DataType data))
    (last : DataType keys × DataType data) : Prop where
  earlier : ∀ pair ∈ front, pair.1.IsZero ∧ pair.2.IsZero
  lastKey : last.1.IsZero
  lastValue : last.2.IsZero ∨ keys.getSize * (front.length + 1) ≤ getNSlots keys data

end Conditions

variable {keys data : DataStructure}

/-! ## The slots that are touched -/

private theorem Within.upTo {base stride length slot last : Nat}
    (within : Within (base + stride * last) length) (before : slot ≤ last) :
    Within (base + stride * slot) length :=
  within.mono (Nat.add_le_add_left (Nat.mul_le_mul_left stride before) base)

/-- The insertions and the list of the pairs touch the slots in between, too. -/
theorem fitInPage_iff (last : Nat) :
    FitInPage keys data last ↔ (∀ i < last + 1, StepFits keys data i) ∧
      ∀ i < last + 1, PairFits keys data i := by
  constructor
  · intro fits
    constructor
    · intro used below
      constructor
      · intro i inside
        exact ⟨fits.keySlot.upTo (by omega), fits.keyCopy.upTo (by omega)⟩
      · intro i inside
        exact ⟨fits.dataSlot.upTo (by omega), fits.dataCopy.upTo (by omega)⟩
      · exact fits.keyCopy.upTo (Nat.zero_le _)
      · exact fits.dataSlot.upTo (Nat.zero_le _)
    · intro i below
      exact ⟨fits.keySlot.upTo (by omega), fits.dataSlot.upTo (by omega)⟩
  · intro ⟨steps, listed⟩
    have step := steps last (Nat.lt_succ_self last)
    have pair := listed last (Nat.lt_succ_self last)
    cases last with
    | zero => exact ⟨pair.1, pair.2, step.key, step.data⟩
    | succ before =>
        have double : 2 * (before + 1) = before + 1 + 1 + before := by omega
        refine ⟨pair.1, pair.2, ?_, ?_⟩
        · rw [double]
          exact (step.moveKeys before (Nat.lt_succ_self before)).2
        · rw [double]
          exact (step.moveData before (Nat.lt_succ_self before)).2

/-- Records that fit in a page leave room for slots. -/
private theorem getNSlots_ne_zero (keyFits : Within slotkeyBase keys.getSize)
    (dataFits : Within slotkeyBase data.getSize) : getNSlots keys data ≠ 0 := by
  intro none_
  have large := nSlots_eq_zero_iff.mp none_
  unfold Within slotkeyBase pageSize sizeofMemoryPage at keyFits dataFits
  unfold limit sizeofMemoryPage sizeofInt at large
  omega

theorem FitInPage.getNSlots_ne_zero {last : Nat} (fits : FitInPage keys data last) :
    getNSlots keys data ≠ 0 := by
  apply Tables.getNSlots_ne_zero
  · exact fits.keySlot.mono (Nat.le_add_right _ _)
  · apply fits.dataSlot.mono
    unfold dataBase slotdataBase
    omega

/-! ## What is read back -/

/-- The bytes before the records are zero. -/
def Untouched (keys data : DataStructure) (bytes : PageBytes) : Prop :=
  ∀ address < dataBase keys data, bytes address = 0

private theorem copyBytes_keeps {keeps : PageBytes → Prop}
    {move : PageBytes → (target source : Nat) → PageBytes}
    (step : ∀ bytes target source, keeps bytes → keeps (move bytes target source))
    (count l dest : Nat) {bytes : PageBytes} (start : keeps bytes) :
    keeps (copyBytes move count l dest bytes) := by
  induction count generalizing l dest bytes with
  | zero => exact start
  | succ count ih => exact ih (l + 1) (dest + 1) (step bytes dest l start)

namespace Untouched

variable {bytes : PageBytes}

private theorem putKey (untouched : Untouched keys data bytes) (slot : Nat) (key : DataType keys) :
    Untouched keys data (putKey keys data bytes slot key) := by
  intro address before
  have outside : address < dataBase keys data + data.getSize * slot := by omega
  exact (store_frame (.inl outside)).trans (untouched address before)

private theorem putData (untouched : Untouched keys data bytes) (slot : Nat)
    (value : DataType data) : Untouched keys data (putData keys data bytes slot value) := by
  intro address before
  have outside : address < dataBase keys data + sizeofInt * slot := by omega
  exact (store_frame (.inl outside)).trans (untouched address before)

private theorem copies (untouched : Untouched keys data bytes) (used : Nat) :
    Untouched keys data (copyData keys data used (copyKeys keys data used bytes)) :=
  copyBytes_keeps (fun _ target _ before => before.putData target _) _ _ _
    (copyBytes_keeps (fun _ target _ before => before.putKey target _) _ _ _ untouched)

private theorem insertBytes (untouched : Untouched keys data bytes) (used : Nat)
    (key : DataType keys) (value : DataType data) :
    Untouched keys data (insertBytes keys data used key value bytes) :=
  ((untouched.copies used).putKey 0 key).putData 0 value

theorem bytesAfter (untouched : Untouched keys data bytes)
    (pairs : List (DataType keys × DataType data)) (used : Nat) :
    Untouched keys data (bytesAfter keys data pairs used bytes) := by
  induction pairs generalizing used bytes with
  | nil => exact untouched
  | cons pair rest ih => exact ih (untouched.insertBytes used pair.1 pair.2) (used + 1)

/-- The key in the first slot depends on the last insertion only. -/
theorem keyIn_insertBytes (untouched : Untouched keys data bytes) (used : Nat)
    (pair : DataType keys × DataType data) :
    keyIn keys data (Tables.insertBytes keys data used pair.1 pair.2 bytes) 0 =
      keyReadBack keys data pair := by
  apply DataType.ext
  apply load_congr
  intro address _ below
  apply store_congr
  right
  apply store_congr
  by_cases before : address < dataBase keys data
  · right
    exact untouched.copies used address before
  · left
    have length : (pair.1.data.take keys.getSize).length = keys.getSize := by
      rw [List.length_take, pair.1.size, Nat.min_self]
    have start : slotkeyBase ≤ dataBase keys data := Nat.le_add_right _ _
    simp only [slotArrays, recordSizes, length, Nat.mul_zero, Nat.add_zero, if_true] at below ⊢
    unfold dataBase at before start
    omega

end Untouched

/-! ## Zeros -/

namespace DataType.IsZero

variable {columns : DataStructure} {record other : DataType columns}

theorem data_eq (zero : record.IsZero) : record.data = List.replicate columns.getSize 0 :=
  List.eq_replicate_iff.mpr ⟨record.size, zero⟩

theorem eq (zero : record.IsZero) (otherZero : other.IsZero) : record = other :=
  DataType.ext (zero.data_eq.trans otherZero.data_eq.symm)

end DataType.IsZero

private theorem take_data {columns : DataStructure} (record : DataType columns) :
    record.data.take columns.getSize = record.data :=
  List.take_of_length_le (Nat.le_of_eq record.size)

private theorem store_zeros {start count : Nat} {values : Bytes}
    (zeros : values = List.replicate count 0) : store zeroBytes start values = zeroBytes := by
  funext address
  rw [zeros]
  exact store_replicate rfl

private theorem load_zeros {start count : Nat} : ∀ byte ∈ load zeroBytes start count, byte = 0 := by
  intro byte member
  have zeros : load zeroBytes start count = List.replicate count 0 := load_const 0 start count
  rw [zeros] at member
  exact List.eq_of_mem_replicate member

private theorem keyIn_isZero (slot : Nat) : (keyIn keys data zeroBytes slot).IsZero := load_zeros

private theorem dataIn_isZero (slot : Nat) : (dataIn keys data zeroBytes slot).IsZero := load_zeros

private theorem putKey_zeroBytes {key : DataType keys} (zero : key.IsZero) (slot : Nat) :
    putKey keys data zeroBytes slot key = zeroBytes :=
  store_zeros (by rw [zero.data_eq, List.take_replicate])

private theorem putData_zeroBytes {value : DataType data} (zero : value.IsZero) (slot : Nat) :
    putData keys data zeroBytes slot value = zeroBytes :=
  store_zeros (by rw [zero.data_eq, List.take_replicate])

private theorem copies_zeroBytes (used : Nat) :
    copyData keys data used (copyKeys keys data used zeroBytes) = zeroBytes := by
  have moveKey : ∀ bytes target source, bytes = zeroBytes →
      putKey keys data bytes target (keyIn keys data bytes source) = zeroBytes := by
    intro bytes target source same
    rw [same]
    exact putKey_zeroBytes (keyIn_isZero source) target
  have moveData : ∀ bytes target source, bytes = zeroBytes →
      putData keys data bytes target (dataIn keys data bytes source) = zeroBytes := by
    intro bytes target source same
    rw [same]
    exact putData_zeroBytes (dataIn_isZero source) target
  have keysCopied : copyKeys keys data used zeroBytes = zeroBytes :=
    copyBytes_keeps moveKey used 0 (used + 1) rfl
  rw [keysCopied]
  exact copyBytes_keeps moveData used 0 (used + 1) rfl

/-- Into a page of zeros only the record is written. -/
private theorem insertBytes_zeroBytes {key : DataType keys} (zero : key.IsZero) (used : Nat)
    (value : DataType data) :
    insertBytes keys data used key value zeroBytes = putData keys data zeroBytes 0 value := by
  rw [insertBytes, copies_zeroBytes, putKey_zeroBytes zero]

private theorem bytesAfter_zeroBytes {pairs : List (DataType keys × DataType data)}
    (zeros : ∀ pair ∈ pairs, pair.1.IsZero ∧ pair.2.IsZero) (used : Nat) :
    bytesAfter keys data pairs used zeroBytes = zeroBytes := by
  induction pairs generalizing used with
  | nil => rfl
  | cons pair rest ih =>
      have first := zeros pair List.mem_cons_self
      rw [bytesAfter, insertBytes_zeroBytes first.1, putData_zeroBytes first.2]
      exact ih (fun other among => zeros other (List.mem_cons_of_mem _ among)) (used + 1)

/-! ## Lists of zeros -/

/-- The pair whose bytes are zero. -/
def zeroPair (keys data : DataStructure) : DataType keys × DataType data :=
  pairIn keys data zeroBytes 0

private theorem eq_zeroPair {pair : DataType keys × DataType data} (key : pair.1.IsZero)
    (value : pair.2.IsZero) : pair = zeroPair keys data :=
  Prod.ext (key.eq (keyIn_isZero 0)) (value.eq (dataIn_isZero 0))

section OnlyZeros

variable {front : List (DataType keys × DataType data)} {last : DataType keys × DataType data}

namespace OnlyZeros

private theorem bytes_eq (zeros : OnlyZeros keys data front last) :
    bytesAfter keys data (front ++ [last]) 0 zeroBytes = putData keys data zeroBytes 0 last.2 := by
  rw [bytesAfter_append, bytesAfter_zeroBytes zeros.earlier]
  exact insertBytes_zeroBytes zeros.lastKey _ _

private theorem key_isZero (zeros : OnlyZeros keys data front last)
    {pair : DataType keys × DataType data} (among : pair ∈ front ++ [last]) : pair.1.IsZero := by
  rcases List.mem_append.mp among with inFront | isLast
  · exact (zeros.earlier pair inFront).1
  · rw [List.mem_singleton.mp isLast]
    exact zeros.lastKey

/-- The keys in use are read from bytes that were not written to. -/
private theorem keyIn_isZero (zeros : OnlyZeros keys data front last) {slot : Nat}
    (inside : slot < front.length + 1) :
    (keyIn keys data (putData keys data zeroBytes 0 last.2) slot).IsZero := by
  cases zeros.lastValue with
  | inl zero =>
      rw [putData_zeroBytes zero]
      exact Tables.keyIn_isZero slot
  | inr apart =>
      have before : slotkeyBase + keys.getSize * slot + keys.getSize ≤ dataBase keys data := by
        have slotEnd : keys.getSize * (slot + 1) ≤ keys.getSize * (front.length + 1) :=
          Nat.mul_le_mul_left _ inside
        rw [Nat.mul_succ] at slotEnd
        unfold dataBase slotdataBase
        omega
      have same : (keyIn keys data (putData keys data zeroBytes 0 last.2) slot).data =
          (keyIn keys data zeroBytes slot).data :=
        load_store_apart (.inl before)
      rw [DataType.IsZero, same]
      exact Tables.keyIn_isZero slot

/-- The first slot has the last record, and the others have zeros. -/
private theorem pairIn_zero (zeros : OnlyZeros keys data front last) :
    pairIn keys data (putData keys data zeroBytes 0 last.2) 0 = last := by
  have key := (zeros.keyIn_isZero (Nat.succ_pos _)).eq zeros.lastKey
  have value : dataIn keys data (putData keys data zeroBytes 0 last.2) 0 = last.2 := by
    apply DataType.ext
    change load (store zeroBytes (dataBase keys data) (last.2.data.take data.getSize))
      (dataBase keys data) data.getSize = last.2.data
    have stored := @load_store _ zeroBytes (dataBase keys data) last.2.data
    rw [last.2.size] at stored
    rw [take_data, stored]
  exact Prod.ext key value

private theorem pairIn_succ (zeros : OnlyZeros keys data front last) {slot : Nat}
    (inside : slot < front.length) :
    pairIn keys data (putData keys data zeroBytes 0 last.2) (slot + 1) = zeroPair keys data := by
  have behind : dataBase keys data + (last.2.data.take data.getSize).length ≤
      dataBase keys data + data.getSize * (slot + 1) := by
    rw [take_data, last.2.size, Nat.mul_succ]
    omega
  have same : (dataIn keys data (putData keys data zeroBytes 0 last.2) (slot + 1)).data =
      (dataIn keys data zeroBytes (slot + 1)).data :=
    load_store_apart (.inr behind)
  have value : (dataIn keys data (putData keys data zeroBytes 0 last.2) (slot + 1)).IsZero := by
    rw [DataType.IsZero, same]
    exact dataIn_isZero (slot + 1)
  exact eq_zeroPair (zeros.keyIn_isZero (Nat.succ_lt_succ inside)) value

/-- The pair that was inserted last is listed first. -/
private theorem stored_perm (zeros : OnlyZeros keys data front last) :
    ((List.range (front.length + 1)).map
      (pairIn keys data (putData keys data zeroBytes 0 last.2))).Perm (front ++ [last]) := by
  have earlier : (List.range front.length).map (fun slot =>
      pairIn keys data (putData keys data zeroBytes 0 last.2) (slot + 1)) = front := by
    have same : front = List.replicate front.length (zeroPair keys data) := by
      apply List.eq_replicate_iff.mpr ⟨rfl, ?_⟩
      intro pair among
      exact eq_zeroPair (zeros.earlier pair among).1 (zeros.earlier pair among).2
    rw [same, List.length_replicate]
    apply List.eq_replicate_iff.mpr
    constructor
    · rw [List.length_map, List.length_range]
    · intro pair among
      obtain ⟨slot, inside, rfl⟩ := List.mem_map.mp among
      exact zeros.pairIn_succ (List.mem_range.mp inside)
  rw [List.range_succ_eq_map, List.map_cons, List.map_map, zeros.pairIn_zero]
  change (last :: (List.range front.length).map (fun slot =>
      pairIn keys data (putData keys data zeroBytes 0 last.2) (slot + 1))).Perm _
  rw [earlier]
  exact (List.perm_append_singleton last front).symm

end OnlyZeros

end OnlyZeros

/-! ## Records that are larger than a page -/

section Large

variable {n : PageId} {slot : Int} {key : DataType keys} {value : DataType data}
  {table : Table PageBytes}

/-- A key and a record fit in a page. -/
def RecordsFit (keys data : DataStructure) : Prop :=
  Within slotkeyBase keys.getSize ∧ Within slotkeyBase data.getSize

private theorem within_of_accessSlot {α : Type} {base stride length : Nat} {access : Nat → α}
    {result : α} (accessed : accessSlot base stride length access slot = some result)
    (behind : slotkeyBase ≤ base) : Within slotkeyBase length := by
  unfold accessSlot at accessed
  split at accessed
  next inside => exact inside.2.mono (by omega)
  next => cases accessed

private theorem slotkeyBase_le (leaf : Bool) : slotkeyBase ≤ (slotArrays keys data leaf).data := by
  cases leaf with
  | true => exact Nat.le_add_right _ _
  | false => exact Nat.le_add_right _ _

private theorem setKey_within : Ensures (setKey (pageRecords keys data) n slot key) table
    fun _ _ => Within slotkeyBase keys.getSize := by
  apply Ensures.after
  intro node middle
  apply Ensures.orFault_bind
  intro slots written _ _ _
  have accessed : accessSlot (slotArrays keys data node.isLeafNode).data data.getSize keys.getSize
      (fun slot => Pages.setKey (recordSizes keys data) (slotArrays keys data node.isLeafNode)
        node.slots slot key.data) slot = some slots := written
  exact within_of_accessSlot accessed (slotkeyBase_le node.isLeafNode)

private theorem setData_within : Ensures (setData (pageRecords keys data) n slot value) table
    fun _ _ => Within slotkeyBase data.getSize := by
  apply Ensures.after
  intro node middle
  apply Ensures.orFault_bind
  intro slots written _ _ _
  have accessed : accessSlot (slotArrays keys data true).data sizeofInt data.getSize
      (fun slot => Pages.setData (recordSizes keys data) (slotArrays keys data true) node.slots
        slot value.data) slot = some slots := written
  exact within_of_accessSlot accessed (slotkeyBase_le true)

private theorem insertPair_recordsFit {slot : Nat} :
    Ensures (insertPair (pageRecords keys data) n slot key value) table
      fun _ _ => RecordsFit keys data := by
  apply Ensures.after
  intro used _
  apply Ensures.after
  intro _ _
  apply Ensures.after
  intro _ _
  refine setKey_within.bind fun _ _ keyFits => ?_
  refine setData_within.bind fun _ _ dataFits _ _ _ => ?_
  exact ⟨keyFits, dataFits⟩

private theorem insertIntoLeaf_recordsFit {slot : Nat} :
    Ensures (insertIntoLeaf (pageRecords keys data) n slot key value) table
      fun _ _ => RecordsFit keys data := by
  unfold insertIntoLeaf
  apply Ensures.after
  intro full _
  split
  · apply Ensures.after
    intro split _
    dsimp only
    apply Ensures.after
    intro used _
    split
    · exact insertPair_recordsFit.bind fun _ _ fit _ _ _ => fit
    · exact insertPair_recordsFit.bind fun _ _ fit _ _ _ => fit
  · exact insertPair_recordsFit.bind fun _ _ fit _ _ _ => fit

/-- A descent that returns has put a pair into some leaf. -/
private theorem insertDescend_recordsFit (fuel : Nat) :
    Ensures (insertDescend (pageRecords keys data) fuel n key value) table
      fun _ _ => RecordsFit keys data := by
  induction fuel generalizing n table with
  | zero => exact .throw _
  | succ fuel ih =>
      unfold insertDescend
      apply Ensures.after
      intro isLeaf _
      split
      · apply Ensures.after
        intro slot _
        exact insertIntoLeaf_recordsFit
      · apply Ensures.after
        intro slot _
        apply Ensures.after
        intro child _
        exact ih.bind fun _ _ fit _ _ _ => fit

private theorem insert_recordsFit : Ensures (insert (pageRecords keys data) key value) table
    fun _ _ => RecordsFit keys data := by
  apply Ensures.after
  intro _ _
  apply Ensures.get_bind
  apply Ensures.after
  intro node _
  exact (insertDescend_recordsFit _).bind fun _ _ fit _ _ _ => fit

private theorem insertAll_recordsFit {pairs : List (DataType keys × DataType data)}
    (some_ : pairs ≠ []) : Ensures (insertAll (pageRecords keys data) pairs) table
      fun _ _ => RecordsFit keys data := by
  cases pairs with
  | nil => exact absurd rfl some_
  | cons pair rest => exact insert_recordsFit.bind fun _ _ fit _ _ _ => fit

end Large

/-! ## Which tables are ordered multimaps -/

section Outcome

variable {front : List (DataType keys × DataType data)} {last : DataType keys × DataType data}

/-- What the table is after a sequence of insertions, and whether they return. -/
private theorem insertAll_created_runsIf (some_ : getNSlots keys data ≠ 0) :
    RunsIf (∀ i < front.length + 1, StepFits keys data i)
      (insertAll (pageRecords keys data) (front ++ [last]))
      (Table.created zeroBytes (getNSlots keys data)) fun _ after =>
        OnePage 0 (getNSlots keys data) (front.length + 1)
          (bytesAfter keys data (front ++ [last]) 0 zeroBytes) after := by
  have run := insertAll_runsIf some_ (ready_created (getNSlots keys data)) (front ++ [last])
  simp only [List.length_append, List.length_singleton, Nat.zero_add] at run
  apply run.mono
  intro _ after ready
  exact ready.onePage (Nat.succ_ne_zero _)

/-- The first slot has what is read back of the last key. -/
private theorem keyIn_bytesAfter :
    keyIn keys data (bytesAfter keys data (front ++ [last]) 0 zeroBytes) 0 =
      keyReadBack keys data last := by
  have blank : Untouched keys data zeroBytes := fun _ _ => rfl
  rw [bytesAfter_append]
  exact (blank.bytesAfter front 0).keyIn_insertBytes _ last

/-- The empty table has no root, so that a lookup stops the program. -/
private theorem not_orderedMultimap_nil : ¬ OrderedMultimap keys data [] := by
  intro kept
  obtain ⟨-, finds⟩ := (runs_pure ..).mp kept
  obtain ⟨fuel, found⟩ := finds (keyIn keys data zeroBytes 0)
  have missing : ¬ (Table.created zeroBytes (getNSlots keys data)).store.Allocated (-1) :=
    fun inside => absurd inside.1 (by decide)
  apply found.not_faults
  apply Faults.bind
  apply Runs.faults_bind
  rw [runs_get]
  exact (faults_getNode missing).bind

/-- The table keeps the pairs only if they fit in the page, and if all keys are the one that
is read back. -/
private theorem OrderedMultimap.necessary (kept : OrderedMultimap keys data (front ++ [last])) :
    FitInPage keys data front.length ∧
      ∀ pair ∈ front ++ [last], pair.1 = keyReadBack keys data last := by
  have nonempty : front ++ [last] ≠ [] := by simp
  have fit : RecordsFit keys data := by
    obtain ⟨_, _, returned, -⟩ := id kept
    exact insertAll_recordsFit nonempty _ _ returned
  have run := @insertAll_created_runsIf keys data front last (getNSlots_ne_zero fit.1 fit.2)
  obtain ⟨_, table, returned, lists, finds⟩ := id kept
  have page := run.holds returned
  have used := Nat.succ_ne_zero front.length
  constructor
  · obtain ⟨fuel, _, _, walked, -⟩ := lists
    rw [page.headLeaf] at walked
    have pairsFit := (walkLeaves_runsIf page fuel).condition_of_returned walked
    exact (fitInPage_iff front.length).mpr ⟨run.condition_of_returned returned, pairsFit.2⟩
  · intro pair among
    obtain ⟨fuel, _, after, found, isPair⟩ := finds pair.1
    obtain ⟨isFirst, same⟩ := (find_runsIf page used fuel pair.1).holds found
    rw [isFirst, same, atKey_iff page used] at isPair
    have isKey := (isPair.mpr ⟨pair.2, among⟩).2
    rw [← isKey, keyIn_bytesAfter]

private theorem OnlyZeros.sufficient (zeros : OnlyZeros keys data front last)
    (fits : FitInPage keys data front.length) : OrderedMultimap keys data (front ++ [last]) := by
  obtain ⟨steps, pairsFit⟩ := (fitInPage_iff front.length).mp fits
  have run := @insertAll_created_runsIf keys data front last fits.getNSlots_ne_zero
  apply (run.runs steps).mono
  intro _ table page
  have used := Nat.succ_ne_zero front.length
  rw [zeros.bytes_eq] at page
  constructor
  · refine ⟨2, ?_⟩
    rw [page.headLeaf]
    apply ((walkLeaves_runsIf page 2).runs ⟨Nat.le_refl 2, pairsFit⟩).mono
    intro stored _ isStored
    rw [isStored]
    refine ⟨zeros.stored_perm, ?_⟩
    apply List.pairwise_of_forall_mem_list
    intro first firstStored second secondStored
    have firstZero := zeros.key_isZero (zeros.stored_perm.mem_iff.mp firstStored)
    have secondZero := zeros.key_isZero (zeros.stored_perm.mem_iff.mp secondStored)
    exact le_of_eq (congrArg DataType.values (firstZero.eq secondZero))
  · intro key
    have middle : Within (slotkeyBase + keys.getSize * ((front.length + 1) / 2)) keys.getSize :=
      fits.keySlot.upTo (by omega)
    refine ⟨1, ?_⟩
    apply ((find_runsIf page used 1 key).runs ⟨Nat.one_ne_zero, middle⟩).mono
    intro found after ⟨isFirst, same⟩
    rw [isFirst, same, atKey_iff page used]
    constructor
    · intro ⟨_, isKey⟩
      have isLast := (zeros.keyIn_isZero (Nat.succ_pos _)).eq zeros.lastKey
      rw [← isKey, isLast]
      exact ⟨last.2, List.mem_append_right front List.mem_cons_self⟩
    · intro ⟨value, among⟩
      refine ⟨fits.keySlot.upTo (Nat.zero_le _), ?_⟩
      exact (zeros.keyIn_isZero (Nat.succ_pos _)).eq (zeros.key_isZero among)

end Outcome

/-- A table without pairs keeps nothing. With pairs, they must fit in the page and all their keys
must be the one that is read from the first slot; and that all bytes are zero is enough. -/
theorem orderedMultimap_bounds (keys data : DataStructure) :
    ¬ OrderedMultimap keys data [] ∧
      ∀ front last,
        (OrderedMultimap keys data (front ++ [last]) → FitInPage keys data front.length ∧
          ∀ pair ∈ front ++ [last], pair.1 = keyReadBack keys data last) ∧
        (FitInPage keys data front.length → OnlyZeros keys data front last →
          OrderedMultimap keys data (front ++ [last])) := by
  refine ⟨not_orderedMultimap_nil, ?_⟩
  intro front last
  constructor
  · exact OrderedMultimap.necessary
  · intro fits zeros
    exact zeros.sufficient fits

/-- The key 0 of one `INT64` column is kept, with a record of eight columns that are zero. -/
theorem orderedMultimap_bounds_zero : OrderedMultimap [.longlong] (List.replicate 8 .longlong)
    ([] ++ [(⟨List.replicate 8 0, rfl⟩, ⟨List.replicate 64 0, rfl⟩)]) :=
  ((orderedMultimap_bounds _ _).2 [] _).2 ⟨by decide, by decide, by decide, by decide⟩
    ⟨nofun, fun _ member => List.eq_of_mem_replicate member,
      .inl fun _ member => List.eq_of_mem_replicate member⟩

/-- The key 1 is lost: 0 is read back. -/
theorem not_orderedMultimap_one : ¬ ∀ (keys data : DataStructure)
    (pairs : List (DataType keys × DataType data)), OrderedMultimap keys data pairs := by
  intro kept
  let one : DataType [.longlong] × DataType (List.replicate 8 .longlong) :=
    (⟨[1, 0, 0, 0, 0, 0, 0, 0], rfl⟩, ⟨List.replicate 64 0, rfl⟩)
  have isKey := (kept _ _ ([] ++ [one])).necessary.2 one List.mem_cons_self
  have same := congrArg DataType.data isKey
  revert same
  decide

end PersistentBTree.Tables
