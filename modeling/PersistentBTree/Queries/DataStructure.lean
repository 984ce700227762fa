import PersistentBTree.Tables.Record
import PersistentBTree.Imperative.Buffer
import PersistentBTree.Queries.StringParser

/-! The columns of a record and how they are set from text, `data_structures.h`.
A record lies in memory from the address `m_data` on, one column after the
other. -/

set_option autoImplicit false

namespace PersistentBTree.Queries

open Imperative Pages

/-- `t_dataTypes`. The types that hold an integer are those of the records. -/
inductive DataTypes where
  | integer (type : Tables.DataTypes)
  | double
  | string
  | ntypes
  deriving DecidableEq

/-! ## Numbers in texts -/

/-- `isspace` in the `C` locale. -/
def isspace (char : Char) : Bool := char = ' ' || 9 ≤ char.toNat && char.toNat ≤ 13

/-- The number that the digits at the front of the text write. -/
def digits (text : Text) : Nat := Nat.ofDigitChars 10 (text.takeWhile Char.isDigit) 0

def signedDigits : Text → Int
  | '-' :: rest => -digits rest
  | '+' :: rest => digits rest
  | text => digits text

/-- `strtol(text, NULL, 10)`. What does not fit is replaced by the nearest `long`. -/
def strtol (text : Text) : Int :=
  max (-2 ^ 63) (min (signedDigits (text.dropWhile isspace)) (2 ^ 63 - 1))

/-- `atoi` is the result of `strtol` converted to `int`. -/
def atoi (text : Text) : Int := (BitVec.ofInt 32 (strtol text)).toInt

def atoll (text : Text) : Int := strtol text

/-! ## Columns -/

/-- The two arrays of a `DataStructure` at one index. -/
structure Column where
  type : DataTypes
  size : Nat
  deriving DecidableEq

def sizeofVariantString : Nat := 16

namespace CVariant

def getType (type : Text) : DataTypes :=
  if type = "SHORT".toList then .integer .short
  else if type = "INT".toList then .integer .int
  else if type = "INT64".toList then .integer .longlong
  else if type = "DOUBLE".toList then .double
  else if type = "BOOL".toList then .integer .bool
  else if type.take 6 = "STRING".toList then .string
  else .ntypes

/-- The sum of the sizes of a string is a `size_t`. -/
def getSize (type : Text) : Nat :=
  if type = "SHORT".toList then 2
  else if type = "INT".toList then 4
  else if type = "INT64".toList then 8
  else if type = "DOUBLE".toList then 8
  else if type = "BOOL".toList then 1
  else if type.take 6 = "STRING".toList then
    ((atoi (type.drop 6) + sizeofVariantString + 8) % 2 ^ 64).toNat
  else 0

end CVariant

def columnOf (type : Text) : Column := ⟨CVariant.getType type, CVariant.getSize type⟩

/-- The number `n` of columns is an `int`. -/
structure DataStructure where
  columns : List Column
  count : columns.length ≤ intMax

namespace DataStructure

/-- `DataStructure(types)`. -/
def ofTypes (types : List Text) : Option DataStructure :=
  if count : types.length ≤ intMax then some ⟨types.map columnOf, by simpa using count⟩ else none

/-- `GetSize`, a sum of type `size_t`. -/
def getSize (structure_ : DataStructure) : Nat :=
  (structure_.columns.map Column.size).sum % 2 ^ 64

/-- Where a column begins: the sizes of the columns before it, added up as a
`size_t`. -/
def offset (structure_ : DataStructure) (idx : Nat) : Nat :=
  ((structure_.columns.take idx).map Column.size).sum % 2 ^ 64

end DataStructure

/-! ## Setting a column -/

/-- The bytes of a number, the lowest one first. -/
def bytesOfNat : (count : Nat) → Nat → Bytes
  | 0, _ => []
  | count + 1, value => UInt8.ofNat value :: bytesOfNat count (value / 256)

/-- An integer converted to a type of this many bytes. -/
def bytesOfInt (count : Nat) (value : Int) : Bytes :=
  bytesOfNat count (BitVec.ofInt (8 * count) value).toNat

/-- A string as it lies in a record: the length, and the address of the characters. -/
structure VariantString where
  n : Nat
  buf : Nat

namespace VariantString

/-- `for (i < n) buf[i] = s[i]`. -/
def copyChars (buf : Buffer UInt8) (i : Nat) : Text → Option (Buffer UInt8)
  | [] => some buf
  | char :: rest => do copyChars (← buf.write i (UInt8.ofNat char.toNat)) (i + 1) rest

/-- `VariantString(s)` for an object at the address `this`. The characters and two
zeros go to `behind`, the memory that belongs to the object behind its fields. -/
def ofText (this : Nat) (behind : Buffer UInt8) (s : Text) :
    Option (VariantString × Buffer UInt8) := do
  let n := s.length + 1
  let copied ← copyChars behind 0 ((s ++ [Char.ofNat 0]).take (intLength (s ++ [Char.ofNat 0])).toNat)
  let ended ← copied.write n 0
  pure (⟨n, this + sizeofVariantString⟩, ended)

def bytes (string : VariantString) : Bytes := bytesOfNat 8 string.n ++ bytesOfNat 8 string.buf

end VariantString

section SetData

/- The bits of the number that `atof` reads, and where the temporary object of a
string assignment lies. -/
variable (atof : Text → BitVec 64) (temporary : Nat)

/-- The bytes that `CVariant::SetData` assigns to the column. A string is made as a
temporary object, which has no memory behind it. -/
def bytesOf (type : DataTypes) (data : Text) : Option Bytes :=
  match type with
  | .integer .int => some (bytesOfInt 4 (atoi data))
  | .integer .short => some (bytesOfInt 2 (atoi data))
  | .integer .longlong => some (bytesOfInt 8 (atoll data))
  | .double => some (bytesOfNat 8 (atof data).toNat)
  | .integer .bool => some (bytesOfInt 1 (if atoi data = 0 then 0 else 1))
  | .string | .ntypes => do
      let (string, _) ← VariantString.ofText temporary (Buffer.alloc 0) data
      pure string.bytes

/-- `DataType::SetData(idx, val)` for the record at `data`. -/
def setData (structure_ : DataStructure) (data idx : Nat) (val : Text)
    (memory : Nat → UInt8) : Option (Nat → UInt8) := do
  let column ← structure_.columns[idx]?
  let bytes ← bytesOf atof temporary column.type val
  pure (store memory (data + structure_.offset idx) bytes)

end SetData

end PersistentBTree.Queries
