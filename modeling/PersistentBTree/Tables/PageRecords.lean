import Mathlib.Data.List.Lex
import PersistentBTree.Pages.Codec
import PersistentBTree.Tables.Lookup
import PersistentBTree.Tables.Operations
import PersistentBTree.Tables.Record

/-! Tables as they are in the files. The slots of a page are bytes, which the accessors of
`MemoryNodeImpl` read and write, and keys are compared by the operators of `DataType`. -/

set_option autoImplicit false

namespace PersistentBTree.Tables

open Imperative Pages

/-- The bytes of a page. -/
abbrev PageBytes := Nat → UInt8

/-- The content of a page of a file that has just grown. -/
def zeroBytes : PageBytes := fun _ => 0

/-- Some bytes from `start` on lie in the page, or there are none. -/
def Within (start length : Nat) : Prop := length = 0 ∨ start + length ≤ pageSize

instance (start length : Nat) : Decidable (Within start length) :=
  inferInstanceAs (Decidable (_ ∨ _))

/-- The access to a slot of the array at `base`, whose slots are `stride` bytes apart,
touches `length` bytes. -/
def accessSlot {α : Type} (base stride length : Nat) (access : (slot : Nat) → α) (slot : Int) :
    Option α :=
  if 0 ≤ slot ∧ Within (base + stride * slot.toNat) length then some (access slot.toNat) else none

section Records

variable (keys data : DataStructure)

/-- `KeySize` and `DataSize`. -/
def recordSizes : RecordSizes := ⟨keys.getSize, data.getSize⟩

/-- `GetNSlots`. -/
def getNSlots : Nat := Pages.nSlots keys.getSize data.getSize

/-- The arrays of a page, as `get_node` sets them. -/
def slotArrays (leaf : Bool) : SlotArrays where
  slotkey := slotkeyBase
  data := if leaf then slotdataBase (getNSlots keys data) else childidBase (getNSlots keys data)

/-- The slots of a page in a file. Keys and records are copied as they are accessed. -/
def pageRecords : Records (DataType keys) (DataType data) PageBytes where
  keyLessEqual := keyLessEqual
  keyLess := keyLess
  getKey leaf bytes := accessSlot slotkeyBase keys.getSize keys.getSize fun slot =>
    ⟨Pages.getKey (recordSizes keys data) (slotArrays keys data leaf) bytes slot, length_load ..⟩
  getData bytes := accessSlot (slotArrays keys data true).data data.getSize data.getSize
    fun slot =>
      ⟨Pages.getData (recordSizes keys data) (slotArrays keys data true) bytes slot, length_load ..⟩
  getChild bytes := accessSlot (slotArrays keys data false).data sizeofInt sizeofInt fun slot =>
    (Pages.getChild (slotArrays keys data false) bytes slot).toInt
  setKey leaf bytes slot key := accessSlot (slotArrays keys data leaf).data data.getSize
    keys.getSize (fun slot =>
      Pages.setKey (recordSizes keys data) (slotArrays keys data leaf) bytes slot key.data) slot
  setData bytes slot value := accessSlot (slotArrays keys data true).data sizeofInt data.getSize
    (fun slot =>
      Pages.setData (recordSizes keys data) (slotArrays keys data true) bytes slot value.data) slot
  setChild bytes slot child := accessSlot (slotArrays keys data false).data sizeofInt sizeofInt
    (fun slot =>
      Pages.setChild (slotArrays keys data false) bytes slot (.ofInt 32 child)) slot

end Records

/-! ## Runs of insertions -/

section Runs

variable {K D S : Type} (records : Records K D S)

/-- The pairs are inserted one after the other. -/
def insertAll : List (K × D) → M S Unit
  | [] => pure ()
  | (key, value) :: rest => do
      let _ ← insert records key value
      insertAll rest

/-- The pairs in `count` slots of a leaf. -/
def readPairs (leaf : PageId) : (count : Nat) → (slot : Int) → M S (List (K × D))
  | 0, _ => pure []
  | count + 1, slot => do
      let key ← getKey records leaf slot
      let value ← getData records leaf slot
      let rest ← readPairs leaf count (slot + 1)
      pure ((key, value) :: rest)

/-- The pairs of a leaf and of those behind it. -/
def walkLeaves : (fuel : Nat) → (leaf : PageId) → M S (List (K × D))
  | 0, _ => throw .outOfFuel
  | fuel + 1, leaf =>
      if leaf = -1 then pure []
      else do
        let node ← getNode leaf
        let here ← readPairs records leaf node.slotuse 0
        let behind ← walkLeaves fuel node.nextleaf
        pure (here ++ behind)

/-- The iterator is at a pair with this key. -/
def Iterator.AtKey (iter : Iterator) (key : K) (table : Table S) : Prop :=
  Runs (do
    let used ← slotuse iter.currnode
    let stored ← getKey records iter.currnode iter.currslot
    pure (used, stored)) table fun (used, stored) _ => iter.currslot < used ∧ stored = key

end Runs

/-! ## What a table is for -/

section Multimap

variable (keys data : DataStructure)

/-- The leaves contain the pairs, in the order of their keys. -/
def ListsPairs (pairs : List (DataType keys × DataType data)) (table : Table PageBytes) : Prop :=
  ∃ fuel, Runs (walkLeaves (pageRecords keys data) fuel table.mHeadleafId) table fun stored _ =>
    stored.Perm pairs ∧ stored.Pairwise fun first second => first.1.values ≤ second.1.values

/-- Each key is found if and only if there is a pair with this key. -/
def FindsKeys (pairs : List (DataType keys × DataType data)) (table : Table PageBytes) : Prop :=
  ∀ key, ∃ fuel, Runs (find (pageRecords keys data) fuel key) table fun found after =>
    found.1.AtKey (pageRecords keys data) key after ↔ ∃ value, (key, value) ∈ pairs

/-- After the insertions into a new table, it contains the pairs and finds their keys. -/
def OrderedMultimap (pairs : List (DataType keys × DataType data)) : Prop :=
  Runs (insertAll (pageRecords keys data) pairs) (Table.created zeroBytes (getNSlots keys data))
    fun _ table => ListsPairs keys data pairs table ∧ FindsKeys keys data pairs table

end Multimap

end PersistentBTree.Tables
