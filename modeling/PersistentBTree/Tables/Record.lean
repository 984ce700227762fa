import PersistentBTree.Pages.Codec

/-! Keys and data records, and how they are compared. A record is the bytes of its
columns, one column after the other. Columns of the types `DOUBLE` and `STRING` are
left out: all values are integers. -/

set_option autoImplicit false

namespace PersistentBTree.Tables

open Pages

/-- `t_dataTypes`. -/
inductive DataTypes where
  | short
  | int
  | longlong
  | bool
  deriving DecidableEq

/-- `GetSize`, the number of bytes of a column. -/
def DataTypes.getSize : DataTypes → Nat
  | .short => 2
  | .int => 4
  | .longlong => 8
  | .bool => 1

/-- The number with these bytes, the lowest one first. -/
def natOfBytes : Bytes → Nat
  | [] => 0
  | byte :: rest => byte.toNat + 256 * natOfBytes rest

/-- A pointer to the bytes of a column, and its type. -/
structure CVariant where
  data : Bytes
  type : DataTypes

namespace CVariant

/-- The conversion operators, of which the type selects one: all but the one to
`bool` read a signed number. -/
def value (variant : CVariant) : Int :=
  let read := natOfBytes (variant.data.take variant.type.getSize)
  match variant.type with
  | .bool => if read = 0 then 0 else 1
  | type => (BitVec.ofNat (8 * type.getSize) read).toInt

/-- `operator<` of values of one type. -/
def less (lhs rhs : CVariant) : Bool := decide (lhs.value < rhs.value)

/-- `operator!=` of values of one type. -/
def notEqual (lhs rhs : CVariant) : Bool := decide (lhs.value ≠ rhs.value)

end CVariant

/-- The columns of a record. -/
abbrev DataStructure := List DataTypes

def DataStructure.getSize (columns : DataStructure) : Nat := (columns.map DataTypes.getSize).sum

/-- A record has the bytes of all its columns. -/
structure DataType (columns : DataStructure) where
  data : Bytes
  size : data.length = columns.getSize

/-- The loop of `operator<`. Both sides of a comparison are made of `cur`, and what
`curOther` points at is not read. -/
def lessColumns : DataStructure → (cur curOther : Bytes) → Bool
  | [], _, _ => false
  | type :: rest, cur, curOther =>
      let lhs : CVariant := ⟨cur, type⟩
      let rhs : CVariant := ⟨cur, type⟩
      if lhs.notEqual rhs then lhs.less rhs
      else lessColumns rest (cur.drop type.getSize) (curOther.drop type.getSize)

/-- The values of the columns. -/
def valuesOf : DataStructure → Bytes → List Int
  | [], _ => []
  | type :: rest, cur => CVariant.value ⟨cur, type⟩ :: valuesOf rest (cur.drop type.getSize)

namespace DataType

variable {columns : DataStructure}

def less (record other : DataType columns) : Bool := lessColumns columns record.data other.data

def lessEqual (_record _other : DataType columns) : Bool := true

def values (record : DataType columns) : List Int := valuesOf columns record.data

end DataType

section Keys

variable {columns : DataStructure}

def keyLess (a b : DataType columns) : Bool := a.less b

def keyLessEqual (a b : DataType columns) : Bool := a.lessEqual b

def keyGreater (a b : DataType columns) : Bool := b.less a

def keyGreaterEqual (a b : DataType columns) : Bool := b.lessEqual a

def keyEqual (a b : DataType columns) : Bool := !keyLess a b && !keyLess b a

/-- What holds of three records when `operator<` is the lexicographic order of the
column values, and the other predicates agree with it. -/
structure Ordered (a b c : DataType columns) : Prop where
  less : a.less b = true ↔ a.values < b.values
  irreflexive : a.less a = false
  transitive : a.less b = true → b.less c = true → a.less c = true
  exactlyOne : a.less b = true ∧ b.less a = false ∧ a.values ≠ b.values ∨
    a.less b = false ∧ b.less a = true ∧ a.values ≠ b.values ∨
      a.less b = false ∧ b.less a = false ∧ a.values = b.values
  lessEqual : a.lessEqual b = true ↔ b.less a = false
  equal : keyEqual a b = true ↔ a.values = b.values

/-- A value is equal to itself, so the loop never finds a difference. -/
theorem lessColumns_eq_false (columns : DataStructure) (cur curOther : Bytes) :
    lessColumns columns cur curOther = false := by
  induction columns generalizing cur curOther with
  | nil => rfl
  | cons type rest ih => simpa [lessColumns, CVariant.notEqual] using ih ..

@[simp] theorem DataType.less_eq_false (a b : DataType columns) : a.less b = false :=
  lessColumns_eq_false ..

@[simp] theorem keyEqual_eq_true (a b : DataType columns) : keyEqual a b = true := by
  simp [keyEqual, keyLess]

/-- The comparisons are right exactly for records with the same values. -/
theorem ordered_iff (a b c : DataType columns) : Ordered a b c ↔ a.values = b.values := by
  constructor
  · intro ordered
    exact ordered.equal.mp (keyEqual_eq_true a b)
  · intro same
    have notLess : ¬ a.values < b.values := by rw [same]; exact List.lt_irrefl _
    constructor <;> simp [same, DataType.lessEqual]

/-- The key 0 is not less than the key 1, and equal to it. -/
theorem not_ordered_int : ¬ ∀ (columns : DataStructure) (a b c : DataType columns),
    Ordered a b c := by
  intro ordered
  have less := (ordered [.int] ⟨[0, 0, 0, 0], rfl⟩ ⟨[1, 0, 0, 0], rfl⟩ ⟨[0, 0, 0, 0], rfl⟩).less
  revert less
  decide

end Keys

end PersistentBTree.Tables
