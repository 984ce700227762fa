import PersistentBTree.Queries.DataStructure

/-! The query language, `Database::query`. A query ends in a call of the tree with
the records and structures that the query describes. -/

set_option autoImplicit false

namespace PersistentBTree.Queries

open Imperative StringParser

/-- The structures in the header of a table. -/
structure Table where
  keyStruct : DataStructure
  dataStruct : DataStructure

/-- The tables that can be opened. A path is shorter than 4096 characters. -/
structure Disk where
  table : Text → Option Table
  short : ∀ name found, table name = some found → name.length < 4096

/-- The memory, and where the next block is taken from. What a new block contains
is left as it was. -/
structure Heap where
  memory : Nat → UInt8
  next : Nat

/-- The call of a `PersistentBTree` that a query makes. A record is given by its
address. -/
inductive Call where
  | create (name : Text) (keyStruct dataStruct : DataStructure)
  | insert (name : Text) (key data : Nat)
  | find (name : Text) (key : Nat)

abbrev Querying (α : Type) := Program Heap Fault α

/-- `new char[size]`. -/
def newChars (size : Int) : Querying Nat := do
  if size < 0 then throw .badLength
  let heap ← get
  set { heap with next := heap.next + size.toNat }
  pure heap.next

/-- `DataType::GetSize`, a `size_t` converted to `int`. -/
def intSize (columns : DataStructure) : Int := (BitVec.ofNat 32 columns.getSize).toInt

/-- `str.substr(1, str.length() - 2)`, where the difference is a `size_t`. -/
def stripParentheses (str : Text) : Querying Text :=
  orFault .outOfRange (substr str 1 ((str.length + (2 ^ 64 - 2)) % 2 ^ 64))

section Query

variable (atof : Text → BitVec 64) (temporary : Nat) (disk : Disk)

/-- `while (parser.hasNext()) record.SetData(i, parser.next())`. The loop does not
change `i`. -/
def setColumns (columns : DataStructure) (data i : Nat) :
    (fuel : Nat) → StringParser → Querying PUnit
  | 0, _ => throw .outOfFuel
  | fuel + 1, parser => do
      let (more, parser) ← runOn hasNext parser
      if more then
        let (val, parser) ← runOn next parser
        let heap ← get
        let memory ← orFault .outOfBounds
          (setData atof temporary columns data i val heap.memory)
        set { heap with memory }
        setColumns columns data i fuel parser

/-- The branch `CREATE`. -/
def create (parser : StringParser) : Querying (Option Call) := do
  let (name, parser) ← runOn next parser
  let (keyStr, parser) ← runOn next parser
  let (dataStr, _) ← runOn next parser
  if name ≠ [] ∧ keyStr ≠ [] ∧ dataStr ≠ [] then
    let (keyTypes, _) ← runOn (tokenize (keyStr.length + 1)) (ofText keyStr)
    let keySt ← orFault .badLength (DataStructure.ofTypes keyTypes)
    let (dataTypes, _) ← runOn (tokenize (dataStr.length + 1)) (ofText dataStr)
    let dataSt ← orFault .badLength (DataStructure.ofTypes dataTypes)
    pure (some (.create name keySt dataSt))
  else pure none

/-- The branch `INSERT` once the table is open. -/
def insertInto (name : Text) (table : Table) (parser : StringParser) :
    Querying (Option Call) := do
  let keyBuf ← newChars (intSize table.keyStruct)
  let dataBuf ← newChars (intSize table.dataStruct)
  let (keyStr, parser) ← runOn next parser
  let (dataStr, _) ← runOn next parser
  if name ≠ [] ∧ keyStr ≠ [] ∧ dataStr ≠ [] then
    let keys ← stripParentheses keyStr
    let datas ← stripParentheses dataStr
    setColumns atof temporary table.keyStruct keyBuf 0 (keys.length + 1) (ofText keys)
    setColumns atof temporary table.dataStruct dataBuf 0 (datas.length + 1) (ofText datas)
    pure (some (.insert name keyBuf dataBuf))
  else pure none

/-- The branch `INSERT`. To open a table that does not exist uses a null header. -/
def insert (parser : StringParser) : Querying (Option Call) := do
  let (name, parser) ← runOn next parser
  let table ← orFault .null (disk.table name)
  insertInto atof temporary name table parser

/-- The branch `GET`. -/
def get_ (parser : StringParser) : Querying (Option Call) := do
  let (name, parser) ← runOn next parser
  let table ← orFault .null (disk.table name)
  let keyBuf ← newChars (intSize table.keyStruct)
  let (keyStr, _) ← runOn next parser
  if name ≠ [] ∧ keyStr ≠ [] then
    let keys ← stripParentheses keyStr
    setColumns atof temporary table.keyStruct keyBuf 0 (keys.length + 1) (ofText keys)
    pure (some (.find name keyBuf))
  else pure none

def query (q : Text) : Querying (Option Call) := do
  let (more, parser) ← runOn hasNext (ofText q)
  if more then
    let (word, parser) ← runOn next parser
    let type := toUpper word
    if type = "CREATE".toList then create parser
    else if type = "INSERT".toList then insert atof temporary disk parser
    else if type = "GET".toList then get_ atof temporary disk parser
    else pure none
  else pure none

end Query

end PersistentBTree.Queries
