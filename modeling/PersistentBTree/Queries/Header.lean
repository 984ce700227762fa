import PersistentBTree.Pages.Layout
import PersistentBTree.Queries.DataStructure
import Mathlib.Logic.Function.Basic

/-! The header of a table, `MemoryHeader`: how `Create` writes the structures of a
table to it and how `Open` reads them back. File operations succeed, and a new file
is filled with zeros. -/

set_option autoImplicit false

namespace PersistentBTree.Queries.Header

open Imperative

/-- A conversion to `int`. -/
def toInt (value : Int) : Int := (BitVec.ofInt 32 value).toInt

/-- A conversion to `size_t`. -/
def toSize (value : Int) : Nat := (value % 2 ^ 64).toNat

inductive Fault where
  /-- The header was initialised before. -/
  | assertion
  /-- An array of the header is accessed beyond its end. -/
  | outOfBounds
  /-- `new` throws `std::bad_array_new_length`. -/
  | badLength
  /-- A number is not one of `t_dataTypes`. -/
  | badType
  /-- A sum leaves the range of `int`. -/
  | overflow
  | divisionByZero
  deriving DecidableEq

/-- The arrays have room for 64 columns. -/
structure MemoryHeader where
  init : Bool
  nPages : Int
  rootPage : Int
  headLeaf : Int
  tailLeaf : Int
  usedPages : Int
  size : Int
  nKeyTypes : Int
  nDataTypes : Int
  keyType : Vector Int 64
  keySizes : Vector Nat 64
  dataType : Vector Int 64
  dataSizes : Vector Nat 64
  memPageSize : Nat
  dataSize : Int
  keySize : Int
  nSlots : Int

/-- The header in a new file. -/
def MemoryHeader.zero : MemoryHeader where
  init := false
  nPages := 0
  rootPage := 0
  headLeaf := 0
  tailLeaf := 0
  usedPages := 0
  size := 0
  nKeyTypes := 0
  nDataTypes := 0
  keyType := Vector.replicate 64 0
  keySizes := Vector.replicate 64 0
  dataType := Vector.replicate 64 0
  dataSizes := Vector.replicate 64 0
  memPageSize := 0
  dataSize := 0
  keySize := 0
  nSlots := 0

/-- `(int) type`. -/
def codeOf : DataTypes → Int
  | .integer .short => 0
  | .integer .int => 1
  | .integer .longlong => 2
  | .double => 3
  | .integer .bool => 4
  | .string => 5
  | .ntypes => 6

/-- A number that is copied to a `t_dataTypes`. -/
def typeOfCode : Int → Option DataTypes
  | 0 => some (.integer .short)
  | 1 => some (.integer .int)
  | 2 => some (.integer .longlong)
  | 3 => some .double
  | 4 => some (.integer .bool)
  | 5 => some .string
  | 6 => some .ntypes
  | _ => none

/-! ## Writing -/

/-- The arrays for one of the structures, and the sum of the sizes. -/
structure Arrays where
  types : Vector Int 64
  sizes : Vector Nat 64
  total : Int

/-- An assignment to one place of an array of the header. -/
def assign {α : Type} (array : Vector α 64) (i : Nat) (value : α) :
    Except Fault (Vector α 64) :=
  if bound : i < 64 then pure (array.set i value) else throw .outOfBounds

/-- The loop over the columns. The sum of a size and the `int` is a `size_t`, which is
converted back. -/
def fill (i : Nat) : List Column → Arrays → Except Fault Arrays
  | [], arrays => pure arrays
  | column :: rest, arrays => do
      let types ← assign arrays.types i (codeOf column.type)
      let sizes ← assign arrays.sizes i column.size
      fill (i + 1) rest ⟨types, sizes, toInt (toSize arrays.total + column.size)⟩

/-- `(limit - sizeof(MemoryPage)) / (keySize + std::max(dataSize, (int)sizeof(int)))`:
the divisor is a sum of type `int`, converted to `size_t`. -/
def slotCount (limit keySize dataSize : Int) : Except Fault Int :=
  let slot := keySize + max dataSize Pages.sizeofInt
  if slot < -2 ^ 31 ∨ (intMax : Int) < slot then throw .overflow
  else if slot = 0 then throw .divisionByZero
  else pure (toInt (toSize (limit - Pages.sizeofMemoryPage) / toSize slot : Nat))

/-- `InitHeader` on the mapped header. -/
def initHeader (keyStruct dataStruct : DataStructure) (limit : Int) (header : MemoryHeader) :
    Except Fault MemoryHeader := do
  if header.init then throw .assertion
  let keys ← fill 0 keyStruct.columns ⟨header.keyType, header.keySizes, 0⟩
  let datas ← fill 0 dataStruct.columns ⟨header.dataType, header.dataSizes, 0⟩
  let nSlots ← slotCount limit keys.total datas.total
  pure
    { init := true
      nPages := 0
      usedPages := 0
      rootPage := -1
      headLeaf := -1
      tailLeaf := -1
      size := 0
      nKeyTypes := keyStruct.columns.length
      nDataTypes := dataStruct.columns.length
      keyType := keys.types
      keySizes := keys.sizes
      keySize := keys.total
      dataType := datas.types
      dataSizes := datas.sizes
      dataSize := datas.total
      memPageSize := toSize limit
      nSlots }

/-! ## Reading -/

/-- `DataStructure(n, types, sizes)`, which copies `n` entries of each array. -/
def structureOf (n : Int) (types : Vector Int 64) (sizes : Vector Nat 64) :
    Except Fault DataStructure :=
  if n < 0 then throw .badLength
  else if 64 < n then throw .outOfBounds
  else match (types.toList.take n.toNat).mapM typeOfCode with
  | none => throw .badType
  | some types =>
      pure ⟨List.zipWith Column.mk types (sizes.toList.take n.toNat), by
        simp only [List.length_zipWith, List.length_take, Vector.length_toList, intMax]
        omega⟩

/-- A `MemoryPageManager` with an open table. -/
structure Manager where
  header : MemoryHeader
  keyType : DataStructure
  dataType : DataStructure
  deletePages : List Nat

namespace Manager

/-- `KeySize()`. -/
def keySize (manager : Manager) : Nat := toSize manager.header.keySize

/-- `DataSize()`. -/
def dataSize (manager : Manager) : Nat := toSize manager.header.dataSize

end Manager

section Files

/- Whether a page of a table is in use. -/
variable (isInit : Text → Nat → Bool)

/-- `InitUsedPages`: the pages that are not in use. -/
def initUsedPages (name : Text) (header : MemoryHeader) : List Nat :=
  (List.range header.nPages.toNat).filter fun page => !isInit name page

/-- `Init` on the header of a table. -/
def init (name : Text) (header : MemoryHeader) : Except Fault Manager := do
  let keyType ← structureOf header.nKeyTypes header.keyType header.keySizes
  let dataType ← structureOf header.nDataTypes header.dataType header.dataSizes
  pure ⟨header, keyType, dataType, initUsedPages isInit name header⟩

/-- The header files of the tables. -/
abbrev Files := Text → Option MemoryHeader

/-- `Create(name, keyStruct, dataStruct)`. An existing header file is kept. -/
def create (name : Text) (keyStruct dataStruct : DataStructure) : Program Files Fault PUnit := do
  let files ← get
  let header ← initHeader keyStruct dataStruct Pages.limit ((files name).getD .zero)
  set (Function.update files name (some header))

/-- `Open(name)`, which finds nothing when there is no header file. -/
def openTable (name : Text) : Program Files Fault (Option Manager) := do
  let files ← get
  match files name with
  | none => pure none
  | some header => do
      let manager ← init isInit name header
      pure (some manager)

end Files

end PersistentBTree.Queries.Header
