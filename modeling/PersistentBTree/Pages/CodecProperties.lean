import PersistentBTree.Pages.Codec
import Mathlib.Tactic.Ring

/-! Which of the slot accessors work: `SetChild` always does, `SetData` when records
are as long as child ids, and `SetKey` only when there is nothing to write. -/

set_option autoImplicit false

namespace PersistentBTree.Pages

open Imperative

variable {sizes : RecordSizes} {page : SlotArrays} {nSlots : Nat} {memory : Nat → UInt8}

/-- The bytes taken by the records or the child ids. -/
private def unionSize (sizes : RecordSizes) (nSlots : Nat) : Nat :=
  max (nSlots * sizes.dataSize) ((nSlots + 1) * sizeofInt)

private theorem end_of_slot (size : Nat) {slot count : Nat} (bound : slot < count) :
    size * slot + size ≤ count * size := by
  calc size * slot + size = (slot + 1) * size := by ring
    _ ≤ count * size := Nat.mul_le_mul_right size bound

/-- The beginnings of two slots are at least a slot apart. -/
private theorem slots_apart (size : Nat) {slot other : Nat} (different : other ≠ slot) :
    size * other + size ≤ size * slot ∨ size * slot + size ≤ size * other := by
  rcases Nat.lt_or_gt_of_ne different with less | more
  · left
    calc size * other + size = size * (other + 1) := by ring
      _ ≤ size * slot := Nat.mul_le_mul_left size less
  · right
    calc size * slot + size = size * (slot + 1) := by ring
      _ ≤ size * other := Nat.mul_le_mul_left size more

/-- A store to the records or child ids does not change the keys. -/
private theorem getKey_store (apart : Apart sizes page nSlots) {start slot : Nat} {values : Bytes}
    (above : page.data ≤ start)
    (below : start + values.length ≤ page.data + unionSize sizes nSlots) (bound : slot < nSlots) :
    getKey sizes page (store memory start values) slot = getKey sizes page memory slot := by
  apply load_store_apart
  have keyEnd := end_of_slot sizes.keySize bound
  unfold Apart at apart
  unfold unionSize at below
  rcases apart with keysFirst | dataFirst
  · left
    omega
  · right
    omega

/-! ## Keys -/

theorem keyLaw_iff (apart : Apart sizes page nSlots) :
    KeyLaw sizes page nSlots memory ↔ nSlots = 0 ∨ sizes.keySize = 0 := by
  constructor
  · intro law
    by_contra neither
    rw [not_or] at neither
    obtain ⟨someSlots, someBytes⟩ := neither
    have slots : 0 < nSlots := Nat.pos_of_ne_zero someSlots
    have bytes : 0 < sizes.keySize := Nat.pos_of_ne_zero someBytes
    have elsewhere : page.slotkey + sizes.keySize * 0 ≠ page.data + sizes.dataSize * 0 := by
      have area : 0 < nSlots * sizes.keySize := Nat.mul_pos slots bytes
      unfold Apart sizeofInt at apart
      omega
    obtain ⟨key, length, different⟩ := exists_load_ne memory elsewhere bytes
    have readBack := (law 0 slots key length).1
    rw [getKey, setKey, ← length, List.take_length, length] at readBack
    exact different readBack
  · intro nothing slot bound key length
    have empty : key.take sizes.keySize = [] := by
      cases nothing with
      | inl noSlots => omega
      | inr noBytes => rw [noBytes, List.take_zero]
    have same : setKey sizes page memory slot key = memory := by rw [setKey, empty, store]
    refine ⟨?_, ?_⟩
    · have noBytes : sizes.keySize = 0 := nothing.resolve_left (by omega)
      rw [noBytes] at length
      rw [List.eq_nil_of_length_eq_zero length, getKey, noBytes, load]
    · rw [same]
      exact ⟨fun _ _ _ => rfl, fun _ _ => rfl, fun _ _ => rfl⟩

/-! ## Data -/

private theorem end_of_setData (sizes : RecordSizes) {slot nSlots : Nat} (bound : slot < nSlots) :
    sizeofInt * slot + sizes.dataSize ≤ unionSize sizes nSlots := by
  have dataEnd := end_of_slot sizes.dataSize bound
  unfold unionSize sizeofInt
  by_cases large : 4 ≤ sizes.dataSize
  · have wider : 4 * slot ≤ sizes.dataSize * slot := Nat.mul_le_mul_right slot large
    omega
  · omega

theorem dataLaw_iff (apart : Apart sizes page nSlots) :
    DataLaw sizes page nSlots memory ↔
      nSlots ≤ 1 ∨ sizes.dataSize = 0 ∨ sizes.dataSize = sizeofInt := by
  constructor
  · intro law
    by_contra neither
    simp only [not_or] at neither
    obtain ⟨manySlots, someBytes, notInt⟩ := neither
    have bytes : 0 < sizes.dataSize := Nat.pos_of_ne_zero someBytes
    have elsewhere : page.data + sizes.dataSize * 1 ≠ page.data + sizeofInt * 1 := by omega
    obtain ⟨data, length, different⟩ := exists_load_ne memory elsewhere bytes
    have readBack := (law 1 (by omega) data length).1
    rw [getData, setData, ← length, List.take_length, length] at readBack
    exact different readBack
  · intro fits slot bound data length
    have whole : data.take sizes.dataSize = data := by rw [← length, List.take_length]
    have sameStart : sizes.dataSize * slot = sizeofInt * slot ∨ data = [] := by
      rcases fits with fewSlots | noBytes | isInt
      · left
        have first : slot = 0 := by omega
        rw [first]
        rfl
      · right
        apply List.eq_nil_of_length_eq_zero
        omega
      · left
        rw [isInt]
    refine ⟨?_, ?_, ?_⟩
    · rw [getData, setData, whole]
      cases sameStart with
      | inl same => rw [same, ← length, load_store]
      | inr empty => rw [empty] at length ⊢; rw [← length]; rfl
    · intro other inside
      rw [setData, whole]
      apply getKey_store apart _ _ inside
      · omega
      · have dataEnd := end_of_setData sizes bound
        omega
    · intro other inside different
      rw [getData, getData, setData, whole]
      cases sameStart with
      | inl same =>
          apply load_store_apart
          have steps := slots_apart sizes.dataSize different
          omega
      | inr empty => rw [empty, store]

/-! ## Children -/

theorem childLaw (apart : Apart sizes page nSlots) : ChildLaw sizes page nSlots memory := by
  intro slot bound child
  refine ⟨?_, ?_, ?_⟩
  · rw [getChild, setChild]
    have readBack : load (store memory (page.data + sizeofInt * slot) (intBytes child))
        (page.data + sizeofInt * slot) (intBytes child).length = intBytes child := load_store _
    rw [length_intBytes] at readBack
    unfold sizeofInt at readBack ⊢
    rw [readBack, intOfBytes_intBytes]
  · intro other inside
    rw [setChild]
    apply getKey_store apart _ _ inside
    · omega
    · have childEnd := end_of_slot sizeofInt (Nat.lt_succ_of_le bound)
      rw [length_intBytes]
      unfold unionSize
      unfold sizeofInt at childEnd ⊢
      omega
  · intro other inside different
    rw [getChild, getChild, setChild]
    congr 1
    apply load_store_apart
    have steps := slots_apart sizeofInt different
    rw [length_intBytes]
    unfold sizeofInt at steps ⊢
    omega

/-! ## All accessors -/

/-- The accessors do what they should exactly when no key byte is ever written and
the records of all slots lie where the child ids do. -/
theorem codec_laws_iff (apart : Apart sizes page nSlots) :
    (KeyLaw sizes page nSlots memory ∧ DataLaw sizes page nSlots memory ∧
        ChildLaw sizes page nSlots memory) ↔
      (nSlots = 0 ∨ sizes.keySize = 0) ∧
        (nSlots ≤ 1 ∨ sizes.dataSize = 0 ∨ sizes.dataSize = sizeofInt) := by
  rw [keyLaw_iff apart, dataLaw_iff apart]
  constructor
  · intro laws
    exact ⟨laws.1, laws.2.1⟩
  · intro fits
    exact ⟨fits.1, fits.2, childLaw apart⟩

theorem codec_laws_without_key :
    KeyLaw ⟨0, 4⟩ ⟨48, 48⟩ 3 (fun _ => 0) ∧ DataLaw ⟨0, 4⟩ ⟨48, 48⟩ 3 (fun _ => 0) ∧
      ChildLaw ⟨0, 4⟩ ⟨48, 48⟩ 3 (fun _ => 0) :=
  (codec_laws_iff (.inl (by decide))).mpr ⟨.inr rfl, .inr (.inr rfl)⟩

/-- With an `INT` key and an `INT` record in each of two slots, a key that is set
is not read back. -/
theorem not_codec_laws_int : Apart ⟨4, 4⟩ ⟨48, 56⟩ 2 ∧
    ¬ (KeyLaw ⟨4, 4⟩ ⟨48, 56⟩ 2 (fun _ => 0) ∧ DataLaw ⟨4, 4⟩ ⟨48, 56⟩ 2 (fun _ => 0) ∧
      ChildLaw ⟨4, 4⟩ ⟨48, 56⟩ 2 (fun _ => 0)) := by
  constructor
  · exact .inl (by decide)
  · intro laws
    have readBack := (laws.1 0 (by decide) [1, 0, 0, 0] rfl).1
    revert readBack
    decide

end PersistentBTree.Pages
