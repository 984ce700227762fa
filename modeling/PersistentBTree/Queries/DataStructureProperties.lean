import PersistentBTree.Imperative.Bytes
import PersistentBTree.Queries.DataStructure
import Mathlib.Algebra.Order.BigOperators.Group.List

/-! What is read from a record whose columns have been set. A column that holds an
integer is set exactly: the bytes of the other columns stay, and the number is in
the record. A string is not in the record. -/

set_option autoImplicit false

namespace PersistentBTree.Queries

open Imperative Pages

/-! ## Numbers -/

@[simp] theorem length_bytesOfNat (count value : Nat) : (bytesOfNat count value).length = count := by
  induction count generalizing value with
  | zero => rfl
  | succ count ih => rw [bytesOfNat, List.length_cons, ih]

@[simp] theorem length_bytesOfInt (count : Nat) (value : Int) :
    (bytesOfInt count value).length = count := length_bytesOfNat ..

theorem natOfBytes_bytesOfNat (count value : Nat) :
    Tables.natOfBytes (bytesOfNat count value) = value % 256 ^ count := by
  induction count generalizing value with
  | zero => simp [bytesOfNat, Tables.natOfBytes, Nat.mod_one]
  | succ count ih =>
      have low : (UInt8.ofNat value).toNat = value % 256 := by simp
      rw [bytesOfNat, Tables.natOfBytes, ih, low, Nat.pow_succ', Nat.mod_mul]

theorem natOfBytes_bytesOfInt (count : Nat) (value : Int) :
    Tables.natOfBytes (bytesOfInt count value) = (BitVec.ofInt (8 * count) value).toNat := by
  have small : (BitVec.ofInt (8 * count) value).toNat < 256 ^ count := by
    have fits := (BitVec.ofInt (8 * count) value).isLt
    rwa [Nat.pow_mul] at fits
  rw [bytesOfInt, natOfBytes_bytesOfNat, Nat.mod_eq_of_lt small]

/-- The values of a type. -/
def InRange : Tables.DataTypes → Int → Prop
  | .bool, value => value = 0 ∨ value = 1
  | type, value => -2 ^ (8 * type.getSize - 1) ≤ value ∧ value < 2 ^ (8 * type.getSize - 1)

/-- A text that writes an integer: digits, with a sign or without. -/
inductive Numeral : Text → Int → Prop where
  | plain {text : Text} (nonempty : text ≠ []) (decimal : ∀ char ∈ text, char.isDigit) :
      Numeral text (Nat.ofDigitChars 10 text 0)
  | plus {text : Text} (nonempty : text ≠ []) (decimal : ∀ char ∈ text, char.isDigit) :
      Numeral ('+' :: text) (Nat.ofDigitChars 10 text 0)
  | minus {text : Text} (nonempty : text ≠ []) (decimal : ∀ char ∈ text, char.isDigit) :
      Numeral ('-' :: text) (-Nat.ofDigitChars 10 text 0)

theorem digits_eq {text : Text} (decimal : ∀ char ∈ text, char.isDigit) :
    digits text = Nat.ofDigitChars 10 text 0 := by
  rw [digits, List.takeWhile_eq_self_iff.mpr decimal]

theorem isspace_eq_false {char : Char} (visible : 32 < char.toNat) : isspace char = false := by
  have notSpace : char ≠ ' ' := by
    rintro rfl
    exact absurd visible (by decide)
  have notControl : ¬ char.toNat ≤ 13 := by omega
  simp [isspace, notSpace, notControl]

theorem signedDigits_of_digit {char : Char} {rest : Text} (digit : char.isDigit) :
    signedDigits (char :: rest) = digits (char :: rest) := by
  unfold signedDigits
  split
  · next same =>
      cases same
      exact absurd digit (by decide)
  · next same =>
      cases same
      exact absurd digit (by decide)
  · rfl

theorem signedDigits_numeral {text : Text} {value : Int} (numeral : Numeral text value) :
    signedDigits (text.dropWhile isspace) = value := by
  cases numeral with
  | @plain text nonempty decimal =>
      obtain ⟨char, rest, rfl⟩ := List.exists_cons_of_ne_nil nonempty
      have digit := decimal char List.mem_cons_self
      have visible : 32 < char.toNat :=
        Nat.lt_of_lt_of_le (by decide) (Char.isDigit_iff_toNat.mp digit).1
      rw [List.dropWhile_cons_of_neg (by simp [isspace_eq_false visible]),
        signedDigits_of_digit digit, digits_eq decimal]
  | plus nonempty decimal =>
      rw [List.dropWhile_cons_of_neg (by decide), signedDigits, digits_eq decimal]
  | minus nonempty decimal =>
      rw [List.dropWhile_cons_of_neg (by decide), signedDigits, digits_eq decimal]

theorem strtol_numeral {text : Text} {value : Int} (numeral : Numeral text value)
    (fits : -2 ^ 63 ≤ value ∧ value < 2 ^ 63) : strtol text = value := by
  rw [strtol, signedDigits_numeral numeral]
  omega

/-- The text of a number. -/
def numeral : Int → Text
  | .ofNat value => Nat.toDigits 10 value
  | .negSucc value => '-' :: Nat.toDigits 10 (value + 1)

theorem numeral_numeral (value : Int) : Numeral (numeral value) value := by
  have digit : ∀ number : Nat, ∀ char ∈ Nat.toDigits 10 number, char.isDigit := by
    intro number char inside
    exact Nat.isDigit_of_mem_toDigits (by omega) (Nat.le_refl 10) inside
  cases value with
  | ofNat value =>
      have plain := Numeral.plain Nat.toDigits_ne_nil (digit value)
      rwa [Nat.ofDigitChars_ten_toDigits] at plain
  | negSucc value =>
      have minus := Numeral.minus Nat.toDigits_ne_nil (digit (value + 1))
      rwa [Nat.ofDigitChars_ten_toDigits] at minus

/-- A number that a type can hold survives the conversion to the type and back. -/
theorem toInt_ofInt {type : Tables.DataTypes} {value : Int} (inRange : InRange type value)
    (signed : type ≠ .bool) : (BitVec.ofInt (8 * type.getSize) value).toInt = value := by
  cases type with
  | bool => exact absurd rfl signed
  | short => exact BitVec.toInt_ofInt_eq_self (by decide) inRange.1 inRange.2
  | int => exact BitVec.toInt_ofInt_eq_self (by decide) inRange.1 inRange.2
  | longlong => exact BitVec.toInt_ofInt_eq_self (by decide) inRange.1 inRange.2

theorem InRange.long {type : Tables.DataTypes} {value : Int} (inRange : InRange type value) :
    -2 ^ 63 ≤ value ∧ value < 2 ^ 63 := by
  cases type <;> simp only [InRange, Tables.DataTypes.getSize] at inRange <;> omega

theorem atoi_numeral {text : Text} {value : Int} (numeral : Numeral text value)
    (fits : -2 ^ 31 ≤ value ∧ value < 2 ^ 31) : atoi text = value := by
  rw [atoi, strtol_numeral numeral (by omega)]
  exact BitVec.toInt_ofInt_eq_self (by decide) fits.1 fits.2

variable {atof : Text → BitVec 64} {temporary : Nat}

/-- The bytes of a column that holds an integer write the number. -/
theorem bytesOf_integer {type : Tables.DataTypes} {text : Text} {value : Int}
    (numeral : Numeral text value) (inRange : InRange type value) :
    bytesOf atof temporary (.integer type) text = some (bytesOfInt type.getSize value) := by
  cases type with
  | short =>
      have fits : -2 ^ 15 ≤ value ∧ value < 2 ^ 15 := inRange
      rw [bytesOf, atoi_numeral numeral (by omega), Tables.DataTypes.getSize]
  | int => rw [bytesOf, atoi_numeral numeral inRange, Tables.DataTypes.getSize]
  | longlong =>
      rw [bytesOf, atoll, strtol_numeral numeral inRange, Tables.DataTypes.getSize]
  | bool =>
      rcases inRange with rfl | rfl
      · rw [bytesOf, atoi_numeral numeral (by omega), if_pos rfl, Tables.DataTypes.getSize]
      · rw [bytesOf, atoi_numeral numeral (by omega), if_neg (by decide),
          Tables.DataTypes.getSize]

theorem value_bytesOfInt {type : Tables.DataTypes} {value : Int} (inRange : InRange type value) :
    Tables.CVariant.value ⟨bytesOfInt type.getSize value, type⟩ = value := by
  have read : Tables.natOfBytes ((bytesOfInt type.getSize value).take type.getSize) =
      (BitVec.ofInt (8 * type.getSize) value).toNat := by
    rw [List.take_of_length_le (by simp), natOfBytes_bytesOfInt]
  cases type with
  | bool =>
      simp only [Tables.CVariant.value, Tables.DataTypes.getSize]
      rcases inRange with rfl | rfl
      · rfl
      · rfl
  | short =>
      simp only [Tables.CVariant.value, read, BitVec.ofNat_toNat, BitVec.setWidth_eq]
      exact toInt_ofInt inRange (by decide)
  | int =>
      simp only [Tables.CVariant.value, read, BitVec.ofNat_toNat, BitVec.setWidth_eq]
      exact toInt_ofInt inRange (by decide)
  | longlong =>
      simp only [Tables.CVariant.value, read, BitVec.ofNat_toNat, BitVec.setWidth_eq]
      exact toInt_ofInt inRange (by decide)

/-! ## The layout of a record -/

/-- A column as the names of its type and size give it; a `STRING` is declared for
`size - 24` characters. -/
def Column.Standard (column : Column) : Prop :=
  match column.type with
  | .integer type => column.size = type.getSize
  | .string => 24 ≤ column.size ∧ column.size ≤ intMax + 24
  | _ => False

instance (column : Column) : Decidable column.Standard := by
  unfold Column.Standard
  split <;> infer_instance

theorem getSize_le (type : Tables.DataTypes) : type.getSize ≤ 8 := by
  cases type <;> decide

theorem Column.Standard.size_le {column : Column} (standard : column.Standard) :
    column.size ≤ intMax + 24 := by
  unfold Column.Standard at standard
  split at standard
  next type _ =>
    have small := getSize_le type
    omega
  next => exact standard.2
  next => exact standard.elim

namespace DataStructure

/-- The columns are as their names give them. -/
def Standard (columns : DataStructure) : Prop := ∀ column ∈ columns.columns, column.Standard

/-- All columns hold integers. -/
def Integers (columns : DataStructure) : Prop :=
  ∀ column ∈ columns.columns, ∃ type : Tables.DataTypes, column = ⟨.integer type, type.getSize⟩

variable {columns : DataStructure} {idx other : Nat} {column next : Column}

theorem Integers.standard (integers : columns.Integers) : columns.Standard := by
  intro column member
  obtain ⟨type, rfl⟩ := integers column member
  exact rfl

theorem Standard.sum_le (standard : columns.Standard) :
    (columns.columns.map Column.size).sum ≤ (intMax + 24) * columns.columns.length := by
  have each : ∀ size ∈ columns.columns.map Column.size, size ≤ intMax + 24 := by
    intro size member
    obtain ⟨column, inside, rfl⟩ := List.mem_map.mp member
    exact (standard column inside).size_le
  have bound := List.sum_le_card_nsmul _ (intMax + 24) each
  simpa [Nat.mul_comm] using bound

/-- The sums of sizes are far from the largest `size_t`. -/
theorem Standard.sum_lt (standard : columns.Standard) :
    (columns.columns.map Column.size).sum < 2 ^ 64 := by
  have bound := standard.sum_le
  have count := columns.count
  simp only [intMax] at bound count
  omega

theorem Standard.getSize_eq (standard : columns.Standard) :
    columns.getSize = (columns.columns.map Column.size).sum :=
  Nat.mod_eq_of_lt standard.sum_lt

theorem sum_take_le (sizes : List Nat) (count : Nat) : (sizes.take count).sum ≤ sizes.sum := by
  have parts : (sizes.take count).sum + (sizes.drop count).sum = sizes.sum := by
    rw [← List.sum_append, List.take_append_drop]
  omega

theorem Standard.offset_eq (standard : columns.Standard) (idx : Nat) :
    columns.offset idx = ((columns.columns.map Column.size).take idx).sum := by
  have prefixes := sum_take_le (columns.columns.map Column.size) idx
  rw [offset, List.map_take]
  exact Nat.mod_eq_of_lt (Nat.lt_of_le_of_lt prefixes standard.sum_lt)

theorem sum_take_succ {sizes : List Nat} {idx size : Nat} (found : sizes[idx]? = some size) :
    (sizes.take (idx + 1)).sum = (sizes.take idx).sum + size := by
  rw [List.take_add_one, found, List.sum_append, Option.toList_some, List.sum_singleton]

theorem Standard.offset_add_le (standard : columns.Standard)
    (found : columns.columns[idx]? = some column) (before : idx < other) :
    columns.offset idx + column.size ≤ columns.offset other := by
  have size : (columns.columns.map Column.size)[idx]? = some column.size := by
    rw [List.getElem?_map, found, Option.map_some]
  have later := sum_take_le ((columns.columns.map Column.size).take other) (idx + 1)
  rw [List.take_take, Nat.min_eq_left before, sum_take_succ size] at later
  rwa [standard.offset_eq, standard.offset_eq]

theorem Standard.offset_add_le_getSize (standard : columns.Standard)
    (found : columns.columns[idx]? = some column) :
    columns.offset idx + column.size ≤ columns.getSize := by
  have inside : idx < columns.columns.length := (List.getElem?_eq_some_iff.mp found).1
  have all := standard.offset_add_le found inside
  rwa [standard.offset_eq columns.columns.length, List.take_of_length_le (by simp),
    ← standard.getSize_eq] at all

/-- A record of two columns or more has a last column that is not the first one. -/
theorem Integers.exists_last (integers : columns.Integers) (several : 2 ≤ columns.columns.length) :
    ∃ (idx : Nat) (type : Tables.DataTypes), 0 < idx ∧
      columns.columns[idx]? = some ⟨.integer type, type.getSize⟩ ∧
        columns.offset idx + type.getSize = columns.getSize := by
  have inside : columns.columns.length - 1 < columns.columns.length := by omega
  have found := List.getElem?_eq_getElem inside
  obtain ⟨type, same⟩ := integers _ (List.getElem_mem inside)
  rw [same] at found
  refine ⟨columns.columns.length - 1, type, by omega, found, ?_⟩
  have size : (columns.columns.map Column.size)[columns.columns.length - 1]? =
      some type.getSize := by
    rw [List.getElem?_map, found, Option.map_some]
  have whole := sum_take_succ size
  rw [List.take_of_length_le (by simp; omega)] at whole
  rw [integers.standard.offset_eq, integers.standard.getSize_eq, whole]

end DataStructure

end PersistentBTree.Queries
