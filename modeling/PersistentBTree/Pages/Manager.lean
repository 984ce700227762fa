import Mathlib.Data.List.AList
import PersistentBTree.Imperative.Runs
import PersistentBTree.Pages.Store

/-! `MemoryPageManager` and the handles it gives out. A `MemoryNode` is a pointer
to a reference-counted `MemoryNodeImpl`, the mapping of one page; the cache of the
manager holds one handle for every page that is mapped. -/

set_option autoImplicit false

namespace PersistentBTree.Pages

open Imperative

/-- The address of a `MemoryNodeImpl`. -/
abbrev Address := Nat

/-- A `MemoryNode`, which may be null. -/
abbrev Handle := Option Address

/-- A `MemoryNodeImpl`: which page it maps and how many handles there are. -/
structure Mapping where
  page : Int
  count : Int
deriving DecidableEq

/-- What stops the program, or leaves it without a meaning. -/
inductive Fault where
  /-- A null handle or a null `m_header` is used. -/
  | null
  /-- A mapping is used after it was destroyed. -/
  | dangling
  | assertion
  /-- A byte count leaves the range of `int`. -/
  | overflow
  /-- A page is mapped that the file does not have. -/
  | unmapped
  /-- `ResizeFile` writes into a page. -/
  | overwritten
  /-- The cache is changed while it is being cleared. -/
  | reentered
  | outOfFuel
deriving DecidableEq

/-- A `MemoryPageManager` with its files. The mappings that were destroyed are
remembered; the program does not read that list. -/
structure Manager (α : Type) extends Store α where
  isOpen : Bool
  cache : AList fun _ : Int => Handle
  mappings : Address → Option Mapping
  brk : Address
  unmapped : List Address

/-- The computations of the page manager. -/
abbrev M (α : Type) := Program (Manager α) Fault

variable {α : Type}

namespace Manager

/-- The manager after `Create`, whose last step closes the header again. -/
def created (zero : α) : Manager α where
  toStore := .created zero
  isOpen := false
  cache := ∅
  mappings _ := none
  brk := 0
  unmapped := []

def setMapping (mgr : Manager α) (ptr : Address) (mapping : Option Mapping) : Manager α :=
  { mgr with mappings := Function.update mgr.mappings ptr mapping }

/-- A new mapping, without a handle. -/
def place (mgr : Manager α) (n : Int) : Manager α :=
  { mgr.setMapping mgr.brk (some ⟨n, 0⟩) with brk := mgr.brk + 1 }

/-- The mapping is destroyed. -/
def discard (mgr : Manager α) (ptr : Address) : Manager α :=
  { mgr.setMapping ptr none with unmapped := ptr :: mgr.unmapped }

def enter (mgr : Manager α) (id : Int) (handle : Handle) : Manager α :=
  { mgr with cache := mgr.cache.insert id handle }

def uncache (mgr : Manager α) (id : Int) : Manager α :=
  { mgr with cache := mgr.cache.erase id }

def setStore (mgr : Manager α) (store : Store α) : Manager α :=
  { mgr with toStore := store }

end Manager

/-- Reads through `m_header`. -/
def openManager : M α (Manager α) := do
  let mgr ← get
  if mgr.isOpen then return mgr else throw .null

/-! ## Handles -/

def getMapping (ptr : Address) : M α Mapping := do
  let mgr ← get
  orFault .dangling (mgr.mappings ptr)

def setMapping (ptr : Address) (mapping : Mapping) : M α Unit :=
  modify fun mgr => mgr.setMapping ptr (some mapping)

/-- `AddRef` through a handle. -/
def addRef (handle : Handle) : M α Unit := do
  let ptr ← orFault .null handle
  let mapping ← getMapping ptr
  setMapping ptr { mapping with count := mapping.count + 1 }

def release (ptr : Address) : M α Int := do
  let mapping ← getMapping ptr
  setMapping ptr { mapping with count := mapping.count - 1 }
  return mapping.count - 1

/-- The page a handle points at, with its index. -/
def readPage (handle : Handle) : M α (Page α) := do
  let ptr ← orFault .null handle
  let mapping ← getMapping ptr
  let mgr ← get
  return mgr.file mapping.page

/-- Writes to the page a handle points at. -/
def modifyPage (handle : Handle) (change : Page α → Page α) : M α Unit := do
  let ptr ← orFault .null handle
  let mapping ← getMapping ptr
  modify fun mgr => mgr.setStore (mgr.setPage mapping.page change)

/-- `DeleteFromCache`: the entry is taken out and then destroyed. -/
def deleteFromCache (destroy : Handle → M α Unit) (id : Int) : M α Unit := do
  let mgr ← get
  match mgr.cache.lookup id with
  | none => throw .assertion
  | some entry =>
      set (mgr.uncache id)
      destroy entry

/-- `munmap`, after which the mapping is freed. -/
def unmap (ptr : Address) : M α Unit :=
  modify fun mgr => mgr.discard ptr

/-- `delete m_memNodeImpl` with the destructor `~MemoryNodeImpl`. -/
def deleteImpl (destroy : Handle → M α Unit) (ptr : Address) : M α Unit := do
  let page ← readPage (some ptr)
  deleteFromCache destroy page.id
  unmap ptr

/-- `~MemoryNode`. The entry that a destroyed mapping has in the cache is a
handle of it, so that the destructor is entered again. -/
def destroyWith : Nat → Handle → M α Unit
  | 0, _ => throw .outOfFuel
  | _ + 1, none => pure ()
  | fuel + 1, some ptr => do
      let count ← release ptr
      if count = 0 then deleteImpl (destroyWith fuel) ptr

/-- `~MemoryNode`. Every destructor that it enters has taken an entry out of the
cache before. -/
def destroy (handle : Handle) : M α Unit := do
  let mgr ← get
  destroyWith (mgr.cache.entries.length + 1) handle

/-- `operator=` between two different handles: the value of the left one. -/
def assign (target source : Handle) : M α Handle := do
  destroy target
  addRef source
  return source

/-! ## Mapping pages -/

/-- The largest `int`. -/
def intMax : Int := 2 ^ 31 - 1

/-- `MemoryNodeImpl(this, params)`: page `n` of the file is mapped. -/
def mapPage (n : Int) : M α Address := do
  let mgr ← get
  if intMax < n * pageSize then throw .overflow
  if mgr.fileSize < (n + 1) * pageSize then throw .unmapped
  set (mgr.place n)
  return mgr.brk

/-- `MemoryNode(this, params)`. -/
def constructNode (n : Int) : M α Handle := do
  let ptr ← mapPage n
  addRef (some ptr)
  return some ptr

/-- `GetMemoryPage`. The count that the cache's own handle adds is taken back.
The returned handle is the local variable `nd` itself. -/
def getMemoryPage (n : Int) : M α Handle := do
  if n < 0 then return none
  let mgr ← openManager
  if ¬ (n < mgr.header.nPages ∧ n ∉ mgr.deletePages) then return none
  match mgr.cache.lookup n with
  | some entry => assign none entry
  | none => do
      let temporary ← constructNode n
      let nd ← assign none temporary
      destroy temporary
      let entry ← assign none nd
      modify fun mgr => mgr.enter n entry
      let ptr ← orFault .null nd
      let _ ← release ptr
      return nd

/-- `MemoryNode page; page = GetMemoryPage(n)`. -/
def assignMemoryPage (n : Int) : M α Handle := do
  let temporary ← getMemoryPage n
  let page ← assign none temporary
  destroy temporary
  return page

/-! ## Allocating pages -/

/-- `ResizeFile`, which writes a zero as the last byte of the file. -/
def resizeFile (nbytes : Int) : M α Unit := do
  let mgr ← get
  if nbytes ≤ mgr.fileSize then throw .overwritten
  set (mgr.setStore { mgr.toStore with fileSize := nbytes })

/-- `page = GetMemoryPage(n)`, after which fields of the page are set. -/
def takePage (n : Int) (change : Page α → Page α) : M α Handle := do
  let page ← assignMemoryPage n
  modifyPage page change
  return page

def insertPage : M α Handle := do
  let mgr ← get
  match mgr.lowest with
  | some nPage =>
      set (mgr.setStore (mgr.setDeletePages (mgr.deletePages.erase nPage)))
      takePage nPage fun page => { page with isInit := true }
  | none =>
      let mgr ← openManager
      let nPage := mgr.header.nPages
      let header := mgr.header.addPage (· + ·)
      if intMax < header.size then throw .overflow
      resizeFile header.size
      modify fun mgr => mgr.setStore { mgr.toStore with header }
      takePage nPage fun page => { page with isInit := true, id := nPage }

def deletePage (n : Int) : M α Unit := do
  let mgr ← openManager
  if n < mgr.header.nPages ∧ n ∉ mgr.deletePages then
    let page ← getMemoryPage n
    modifyPage page fun fields => { fields with isInit := false }
    modify fun mgr => mgr.setStore (mgr.setDeletePages (insert n mgr.deletePages))
    destroy page

/-! ## Opening and closing -/

/-- `m_memoryPageCache.clear()`: the entries are destroyed. A mapping that is
destroyed with its entry would erase the entry once more. -/
def clearEntries : List (Sigma fun _ : Int => Handle) → M α Unit
  | [] => modify fun mgr => { mgr with cache := ∅ }
  | ⟨_, none⟩ :: entries => clearEntries entries
  | ⟨_, some ptr⟩ :: entries => do
      let count ← release ptr
      if count = 0 then throw .reentered
      clearEntries entries

/-- `Close`. -/
def close : M α Unit := do
  modify fun mgr => mgr.setStore (mgr.setDeletePages ∅)
  let mgr ← get
  clearEntries mgr.cache.entries
  modify fun mgr => { mgr with isOpen := false }

/-- One round of the loop of `InitUsedPages`. -/
def initUsedPage (i : Int) : M α Unit := do
  let page ← getMemoryPage i
  let fields ← readPage page
  if ¬ fields.isInit then
    modify fun mgr => mgr.setStore (mgr.setDeletePages (insert i mgr.deletePages))
  destroy page

/-- The rounds that are `left`, from page `i` on. -/
def initUsedPages : Nat → Int → M α Unit
  | 0, _ => pure ()
  | left + 1, i => do
      initUsedPage i
      initUsedPages left (i + 1)

/-- `Open`, of a table whose header file exists. -/
def openTable : M α Unit := do
  modify fun mgr => { mgr with isOpen := true }
  let mgr ← openManager
  initUsedPages mgr.header.nPages.toNat 0

end PersistentBTree.Pages
