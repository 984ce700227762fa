import PersistentBTree.Imperative.Bytes
import PersistentBTree.Pages.Layout
import Mathlib.Data.UInt

/-! The slot accessors of `MemoryNodeImpl`. Memory is a byte at every address;
keys and data are read and written as bytes, child ids as numbers of four
bytes. -/

set_option autoImplicit false

namespace PersistentBTree.Pages

open Imperative

abbrev Bytes := List UInt8

instance nontrivialUInt8 : Nontrivial UInt8 := ⟨⟨0, 1, by decide⟩⟩

/-- `KeySize` and `DataSize` of the manager. -/
structure RecordSizes where
  keySize : Nat
  dataSize : Nat

/-- The two array pointers of a `MemoryPage`; `slotdata` and `childid` are one
union member. -/
structure SlotArrays where
  slotkey : Nat
  data : Nat

/-- The bytes of an `int`, the lowest one first. -/
def intBytes (value : BitVec 32) : Bytes :=
  [.ofNat value.toNat, .ofNat (value.toNat / 256), .ofNat (value.toNat / 65536),
    .ofNat (value.toNat / 16777216)]

/-- The `int` with these bytes. -/
def intOfBytes : Bytes → BitVec 32
  | [first, second, third, fourth] => .ofNat 32 (first.toNat + 256 * second.toNat +
      65536 * third.toNat + 16777216 * fourth.toNat)
  | _ => 0

section Accessors

variable (sizes : RecordSizes) (page : SlotArrays) (memory : Nat → UInt8) (slot : Nat)

def getKey : Bytes := load memory (page.slotkey + sizes.keySize * slot) sizes.keySize

def getData : Bytes := load memory (page.data + sizes.dataSize * slot) sizes.dataSize

def getChild : BitVec 32 := intOfBytes (load memory (page.data + sizeofInt * slot) sizeofInt)

/-- `SetKey` copies the key to the place of the data record in this slot. -/
def setKey (key : Bytes) : Nat → UInt8 :=
  store memory (page.data + sizes.dataSize * slot) (key.take sizes.keySize)

/-- `SetData` copies the record to the place of the child id in this slot. -/
def setData (data : Bytes) : Nat → UInt8 :=
  store memory (page.data + sizeofInt * slot) (data.take sizes.dataSize)

def setChild (child : BitVec 32) : Nat → UInt8 :=
  store memory (page.data + sizeofInt * slot) (intBytes child)

end Accessors

@[simp] theorem length_intBytes (value : BitVec 32) : (intBytes value).length = 4 := rfl

theorem intOfBytes_intBytes (value : BitVec 32) : intOfBytes (intBytes value) = value := by
  apply BitVec.eq_of_toNat_eq
  have bound := value.isLt
  simp only [intBytes, intOfBytes, BitVec.toNat_ofNat, UInt8.toNat_ofNat']
  omega

/-! ## What the accessors should do -/

section Laws

variable (sizes : RecordSizes) (page : SlotArrays) (nSlots : Nat) (memory : Nat → UInt8)

/-- The area behind `slotkey` and the one behind `slotdata` or `childid` hold the
arrays of a leaf and of an inner node, and have no byte in common. -/
def Apart : Prop :=
  page.slotkey + nSlots * sizes.keySize ≤ page.data ∨
    page.data + max (nSlots * sizes.dataSize) ((nSlots + 1) * sizeofInt) ≤ page.slotkey

/-- After `SetKey` the key is read back and nothing else has changed. -/
def KeyLaw : Prop :=
  ∀ slot, slot < nSlots → ∀ key : Bytes, key.length = sizes.keySize →
    getKey sizes page (setKey sizes page memory slot key) slot = key ∧
      (∀ other, other < nSlots → other ≠ slot →
        getKey sizes page (setKey sizes page memory slot key) other =
          getKey sizes page memory other) ∧
      (∀ other, other < nSlots → getData sizes page (setKey sizes page memory slot key) other =
        getData sizes page memory other) ∧
      ∀ other, other ≤ nSlots → getChild page (setKey sizes page memory slot key) other =
        getChild page memory other

/-- After `SetData` the record is read back, and the keys and the other records
have not changed. -/
def DataLaw : Prop :=
  ∀ slot, slot < nSlots → ∀ data : Bytes, data.length = sizes.dataSize →
    getData sizes page (setData sizes page memory slot data) slot = data ∧
      (∀ other, other < nSlots → getKey sizes page (setData sizes page memory slot data) other =
        getKey sizes page memory other) ∧
      ∀ other, other < nSlots → other ≠ slot →
        getData sizes page (setData sizes page memory slot data) other =
          getData sizes page memory other

/-- After `SetChild` the id is read back, and the keys and the other ids have not
changed. -/
def ChildLaw : Prop :=
  ∀ slot, slot ≤ nSlots → ∀ child : BitVec 32,
    getChild page (setChild page memory slot child) slot = child ∧
      (∀ other, other < nSlots → getKey sizes page (setChild page memory slot child) other =
        getKey sizes page memory other) ∧
      ∀ other, other ≤ nSlots → other ≠ slot →
        getChild page (setChild page memory slot child) other = getChild page memory other

end Laws

end PersistentBTree.Pages
