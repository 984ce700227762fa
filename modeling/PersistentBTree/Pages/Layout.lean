import Mathlib.Data.Nat.Init
import Mathlib.Tactic.Common
import Mathlib.Tactic.Ring

/-! Where the arrays of a node lie in its page: the slot count that `InitHeader`
records, and the array bases that `get_node` and the allocating functions set.
Offsets count bytes from the beginning of the page. -/

set_option autoImplicit false

namespace PersistentBTree.Pages

/-- `sizeof(MemoryPage)`: a flag and four numbers, two pointers and two numbers,
with padding. -/
def sizeofMemoryPage : Nat := 48

/-- `PAGE_SIZE` of the unix build, the bytes that are mapped for a page. -/
def pageSize : Nat := 0x1000

/-- The default `limit` of `InitHeader`. -/
def limit : Nat := 65536

/-- `sizeof(int)`. -/
def sizeofInt : Nat := 4

/-- `nSlots`, as `InitHeader` computes it. -/
def nSlots (keySize dataSize : Nat) : Nat :=
  (limit - sizeofMemoryPage) / (keySize + max dataSize sizeofInt)

/-- `slotkey = (char *) &page[1]`. -/
def slotkeyBase : Nat := sizeofMemoryPage

/-- `slotdata = slotkey + nSlots`, which adds to a `char *`. -/
def slotdataBase (nSlots : Nat) : Nat := slotkeyBase + nSlots

/-- `childid = (int *) slotkey + nSlots`, which adds to an `int *`. -/
def childidBase (nSlots : Nat) : Nat := slotkeyBase + sizeofInt * nSlots

/-- A range of bytes in a page. -/
structure Extent where
  start : Nat
  length : Nat

/-- The range begins behind the `MemoryPage` and ends within the page. -/
def Extent.Inside (extent : Extent) : Prop :=
  sizeofMemoryPage ≤ extent.start ∧ extent.start + extent.length ≤ pageSize

/-- The ranges have no byte in common. -/
def Extent.Disjoint (first second : Extent) : Prop :=
  ∀ byte, ¬ ((first.start ≤ byte ∧ byte < first.start + first.length) ∧
    second.start ≤ byte ∧ byte < second.start + second.length)

/-- The keys of a node. -/
def keyExtent (slots keySize : Nat) : Extent := ⟨slotkeyBase, slots * keySize⟩

/-- The data records of a leaf. -/
def dataExtent (slots dataSize : Nat) : Extent := ⟨slotdataBase slots, slots * dataSize⟩

/-- The child ids of an inner node. -/
def childExtent (slots : Nat) : Extent := ⟨childidBase slots, (slots + 1) * sizeofInt⟩

/-- The arrays of every leaf and every inner node with so many slots fit their page and do
not overlap. -/
structure FitsSlots (slots keySize dataSize : Nat) : Prop where
  keys : (keyExtent slots keySize).Inside
  data : (dataExtent slots dataSize).Inside
  children : (childExtent slots).Inside
  leafApart : (keyExtent slots keySize).Disjoint (dataExtent slots dataSize)
  innerApart : (keyExtent slots keySize).Disjoint (childExtent slots)

/-- They fit their page with the slots that `InitHeader` counts. -/
def FitsPage (keySize dataSize : Nat) : Prop :=
  FitsSlots (nSlots keySize dataSize) keySize dataSize

theorem nSlots_eq_zero_iff {keySize dataSize : Nat} :
    nSlots keySize dataSize = 0 ↔ limit - sizeofMemoryPage < keySize + max dataSize sizeofInt := by
  have positive : 0 < keySize + max dataSize sizeofInt := by
    unfold sizeofInt
    omega
  unfold nSlots
  rw [Nat.div_eq_zero_iff]
  omega

/-- With no slots only one child id is left to be stored. -/
theorem fitsSlots_zero (keySize dataSize : Nat) : FitsSlots 0 keySize dataSize := by
  constructor
  all_goals
    simp only [Extent.Inside, Extent.Disjoint, keyExtent, dataExtent, childExtent, slotkeyBase,
      slotdataBase, childidBase, sizeofMemoryPage, pageSize, sizeofInt]
    omega

/-- The sizes of records that fit a page are small. -/
theorem FitsSlots.size_le {slots keySize dataSize : Nat} (fits : FitsSlots slots keySize dataSize)
    (some_ : 0 < slots) : keySize + max dataSize sizeofInt ≤ 2 * pageSize := by
  have keyEnd := fits.keys.2
  have dataEnd := fits.data.2
  simp only [keyExtent, dataExtent, slotkeyBase, slotdataBase, sizeofMemoryPage, pageSize,
    sizeofInt] at keyEnd dataEnd ⊢
  have keySmall : keySize ≤ slots * keySize := Nat.le_mul_of_pos_left keySize some_
  have dataSmall : dataSize ≤ slots * dataSize := Nat.le_mul_of_pos_left dataSize some_
  omega

/-- The slot count is chosen so that the arrays take almost 65536 bytes, which is
more than a page has. -/
theorem FitsPage.nSlots_eq_zero {keySize dataSize : Nat} (fits : FitsPage keySize dataSize) :
    nSlots keySize dataSize = 0 := by
  have filled : limit - sizeofMemoryPage <
      (keySize + max dataSize sizeofInt) * (nSlots keySize dataSize + 1) := by
    apply Nat.lt_mul_div_succ
    unfold sizeofInt
    omega
  have keyEnd := fits.keys.2
  have dataEnd := fits.data.2
  have childEnd := fits.children.2
  simp only [keyExtent, dataExtent, childExtent, slotkeyBase, slotdataBase, childidBase,
    sizeofMemoryPage, pageSize, sizeofInt, limit] at filled keyEnd dataEnd childEnd
  generalize nSlots keySize dataSize = slots at filled keyEnd dataEnd childEnd ⊢
  by_contra some_
  have positive : 0 < slots := Nat.pos_of_ne_zero some_
  have keySmall : keySize ≤ slots * keySize := Nat.le_mul_of_pos_left keySize positive
  have dataSmall : dataSize ≤ slots * dataSize := Nat.le_mul_of_pos_left dataSize positive
  have total : (keySize + max dataSize 4) * (slots + 1) ≤
      slots * keySize + keySize + (slots * dataSize + dataSize) + 4 * slots + 4 := by
    calc (keySize + max dataSize 4) * (slots + 1)
        ≤ (keySize + (dataSize + 4)) * (slots + 1) := by
          apply Nat.mul_le_mul_right
          omega
      _ = slots * keySize + keySize + (slots * dataSize + dataSize) + 4 * slots + 4 := by ring
  omega

/-- Exactly the tables without any slot have pages that their arrays fit. -/
theorem fitsPage_iff (keySize dataSize : Nat) :
    FitsPage keySize dataSize ↔ limit - sizeofMemoryPage < keySize + max dataSize sizeofInt := by
  rw [← nSlots_eq_zero_iff]
  constructor
  · intro fits
    exact fits.nSlots_eq_zero
  · intro none
    rw [FitsPage, none]
    exact fitsSlots_zero keySize dataSize

/-- One `INT` column in the key and one in the data: the data records begin in
the middle of the keys and lie outside the page. -/
theorem not_fitsPage_int : ¬ FitsPage 4 4 := by
  intro fits
  have dataEnd := fits.data.2
  revert dataEnd
  decide

end PersistentBTree.Pages
