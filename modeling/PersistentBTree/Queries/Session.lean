import PersistentBTree.Queries.Database
import PersistentBTree.Queries.Header
import PersistentBTree.Tables.Lookup
import PersistentBTree.Tables.Operations

/-! A program that uses one `PersistentBTree` and the query language, which makes
objects of its own. The iterators that the calls return are not kept, so that no page
stays mapped from one call to the next. -/

set_option autoImplicit false

namespace PersistentBTree.Queries

open Imperative
open Tables (M Node Records PageId TreeStats Iterator)

variable {K D S α : Type}

/-! ## The files and the object -/

/-- The files of a table, with the structures that `Open` reads. No call deletes a page,
so that all objects know the same pages to be in use. -/
structure File (S : Type) where
  keyStruct : DataStructure
  dataStruct : DataStructure
  nSlots : Nat
  store : Pages.Store (Node S)

/-- The files of all tables. A path is shorter than 4096 characters. -/
structure Files (S : Type) where
  file : Text → Option (File S)
  short : ∀ name found, file name = some found → name.length < 4096

def Files.empty : Files S := ⟨fun _ => none, nofun⟩

/-- A `PersistentBTree`; `name` is the table that it has open. -/
structure Tree where
  name : Option Text
  nodeslotmax : Nat
  minnodeslots : Nat
  mRootId : PageId
  mHeadleafId : PageId
  mTailleafId : PageId
  mStats : TreeStats

namespace Tree

/-- `PersistentBTree()`. -/
def new : Tree := ⟨none, 0, 0, -1, -1, -1, {}⟩

/-- `is_open`. -/
def isOpen (tree : Tree) : Bool := tree.name.isSome

/-- `open` of a table whose header file exists. -/
def opened (tree : Tree) (name : Text) (file : File S) : Tree where
  name := some name
  nodeslotmax := file.nSlots
  minnodeslots := file.nSlots / 2
  mRootId := file.store.header.rootPage
  mHeadleafId := file.store.header.headLeaf
  mTailleafId := file.store.header.tailLeaf
  mStats := tree.mStats

/-- The object with the files of its table. -/
def table (tree : Tree) (file : File S) : Tables.Table S where
  store := file.store
  nSlots := file.nSlots
  nodeslotmax := tree.nodeslotmax
  minnodeslots := tree.minnodeslots
  mRootId := tree.mRootId
  mHeadleafId := tree.mHeadleafId
  mTailleafId := tree.mTailleafId
  mStats := tree.mStats

def ofTable (name : Text) (table : Tables.Table S) : Tree where
  name := some name
  nodeslotmax := table.nodeslotmax
  minnodeslots := table.minnodeslots
  mRootId := table.mRootId
  mHeadleafId := table.mHeadleafId
  mTailleafId := table.mTailleafId
  mStats := table.mStats

end Tree

structure Session (S : Type) where
  heap : Heap
  files : Files S
  tree : Tree

namespace Session

/-- There are no tables yet. -/
def start (heap : Heap) : Session S := ⟨heap, .empty, .new⟩

def setFile (session : Session S) (name : Text) (short : name.length < 4096) (file : File S) :
    Session S where
  heap := session.heap
  tree := session.tree
  files.file other := if other = name then some file else session.files.file other
  files.short := by
    intro other found here
    split at here
    · next same => rwa [same]
    · exact session.files.short other found here

/-- The pages of a table are written. -/
def setStore (session : Session S) {name : Text} {file : File S}
    (present : session.files.file name = some file) (store : Pages.Store (Node S)) : Session S :=
  session.setFile name (session.files.short name file present) { file with store }

/-- The tables as a query finds them. -/
def disk (session : Session S) : Disk where
  table name := (session.files.file name).map fun file => ⟨file.keyStruct, file.dataStruct⟩
  short := by
    intro name found here
    obtain ⟨file, present, -⟩ := Option.map_eq_some_iff.mp here
    exact session.files.short name file present

end Session

/-- Why a step stops. -/
inductive Stop where
  | null
  | tree (fault : Tables.Fault)
  | query (fault : Fault)
  | header (fault : Header.Fault)
  deriving DecidableEq

/-- A null header or a null handle was used. -/
def Stop.IsNull (stop : Stop) : Prop :=
  stop = .null ∨ stop = .tree .nullHandle ∨ stop = .query .null

abbrev Stepping (S α : Type) := Program (Session S) Stop α

/-- What the files and the objects are used through: how records are compared and
stored in a page, how they are read from the memory, and which files can be made. -/
structure Platform (K D S : Type) where
  records : (keyStruct dataStruct : DataStructure) → Records K D S
  readKey : DataStructure → (memory : Nat → UInt8) → (address : Nat) → K
  readData : DataStructure → (memory : Nat → UInt8) → (address : Nat) → D
  zeroes : S
  canCreate : Text → Bool
  atof : Text → BitVec 64
  temporary : Nat

/-! ## Calls -/

section Calls

variable (platform : Platform K D S)

/-- A call of an object. One that is not open has no root to start from, and no header
to take a page from. -/
def callTree (tree : Tree) (call : (file : File S) → Records K D S → M S α) :
    Stepping S (α × Tree) := do
  let session ← get
  match tree.name with
  | none => throw .null
  | some name =>
      match present : session.files.file name with
      | none => throw .null
      | some file => do
          let records := platform.records file.keyStruct file.dataStruct
          let (result, table) ← runWith Stop.tree (call file records) (tree.table file)
          set (session.setStore present table.store)
          pure (result, .ofTable name table)

/-- `open`. `Open` leaves the header of a missing table null, and `GetNSlots` reads
from it. -/
def openTree (tree : Tree) (name : Text) : Stepping S Tree := do
  let session ← get
  match session.files.file name with
  | none => throw .null
  | some file => pure (tree.opened name file)

/-- `create`. The system makes files with some names only. -/
def createFiles (name : Text) (keyStruct dataStruct : DataStructure) : Stepping S Unit := do
  let session ← get
  if makes : platform.canCreate name = true ∧ name.length < 4096 then
    match session.files.file name with
    | some _ => throw (.header .assertion)
    | none =>
        match Header.initHeader keyStruct dataStruct Pages.limit .zero with
        | .error fault => throw (.header fault)
        | .ok header =>
            set (session.setFile name makes.2 {
              keyStruct, dataStruct
              nSlots := header.nSlots.toNat
              store := .created (Node.zero platform.zeroes) })
  else pure ()

variable (fuel : Nat)

/-- What a query does after its words have been read. -/
def performCall : Call → Stepping S Unit
  | .create name keyStruct dataStruct => createFiles platform name keyStruct dataStruct
  | .insert name key data => do
      let tree ← openTree .new name
      let session ← get
      let _ ← callTree platform tree fun file records =>
        Tables.insert records (platform.readKey file.keyStruct session.heap.memory key)
          (platform.readData file.dataStruct session.heap.memory data)
      pure ()
  | .find name key => do
      let tree ← openTree .new name
      let session ← get
      let _ ← callTree platform tree fun file records => do
        let (iter, _) ← Tables.find records fuel
          (platform.readKey file.keyStruct session.heap.memory key)
        iter.data records
      pure ()

/-- `Database::query`. -/
def performQuery (q : Text) : Stepping S Unit := do
  let session ← get
  let (call, heap) ← runWith Stop.query
    (query platform.atof platform.temporary session.disk q) session.heap
  modify fun session => { session with heap }
  match call with
  | none => pure ()
  | some call => performCall platform fuel call

/-- A call of the object of the program. -/
def onTree (call : Records K D S → M S α) : Stepping S α := do
  let session ← get
  let (result, tree) ← callTree platform session.tree fun _ => call
  modify fun session => { session with tree }
  pure result

end Calls

/-! ## Steps -/

/-- What the program does next; `renew` makes another object in the place of the old one. -/
inductive Step (K D : Type) where
  | renew
  | open_ (name : Text)
  | insert (key : K) (value : D)
  | existsKey (key : K)
  | find (key : K)
  | count (key : K)
  | lowerBound (key : K)
  | upperBound (key : K)
  | eraseOne (key : K)
  | query (q : Text)

/-- What a step returns. -/
inductive Answer where
  | nothing
  | flag (value : Bool)
  | iterator (iter : Iterator)
  | number (count : Nat)
  deriving DecidableEq

section Steps

variable (platform : Platform K D S) (fuel : Nat)

/-- The fuel bounds the loops of a lookup. -/
def Step.perform : Step K D → Stepping S Answer
  | .renew => do
      modify fun session => { session with tree := .new }
      pure .nothing
  | .open_ name => do
      let session ← get
      let tree ← openTree session.tree name
      modify fun session => { session with tree }
      pure .nothing
  | .insert key value => do
      let (iter, _) ← onTree platform fun records => Tables.insert records key value
      pure (.iterator iter)
  | .existsKey key => do
      let (present, _) ← onTree platform fun records => Tables.existsKey records fuel key
      pure (.flag present)
  | .find key => do
      let (iter, _) ← onTree platform fun records => Tables.find records fuel key
      pure (.iterator iter)
  | .count key => do
      let (num, _) ← onTree platform fun records => Tables.countKey records fuel key
      pure (.number num)
  | .lowerBound key => do
      let (iter, _) ← onTree platform fun records => Tables.lowerBound records fuel key
      pure (.iterator iter)
  | .upperBound key => do
      let (iter, _) ← onTree platform fun records => Tables.upperBound records fuel key
      pure (.iterator iter)
  | .eraseOne key => do
      let session ← get
      -- an object that is not open has no root, too
      if session.tree.mRootId = -1 then pure (.flag false)
      else
        let found ← onTree platform fun _ => Tables.eraseOne key
        pure (.flag found)
  | .query q => do
      performQuery platform fuel q
      pure .nothing

/-- The steps one after the other. -/
def performSteps : List (Step K D) → Stepping S Unit
  | [] => pure ()
  | step :: rest => do
      let _ ← step.perform platform fuel
      performSteps rest

end Steps

end PersistentBTree.Queries
