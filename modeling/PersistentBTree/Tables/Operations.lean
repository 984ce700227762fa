import PersistentBTree.Tables.Insert

/-! The calls that may change a table, and their runs. A table may be closed and opened
again, which makes a new `PersistentBTree`; closing and opening leave the files as
they are. -/

set_option autoImplicit false

namespace PersistentBTree.Tables

open Imperative Pages

variable {K D S : Type}

/-- `open`, in a new object: the ids are read from the header, and the statistics are
those of an empty tree. -/
def Table.opened (store : Store (Node S)) (nSlots : Nat) : Table S where
  store
  nSlots
  nodeslotmax := nSlots
  minnodeslots := nSlots / 2
  mRootId := store.header.rootPage
  mHeadleafId := store.header.headLeaf
  mTailleafId := store.header.tailLeaf
  mStats := {}

/-- A table that was created and opened. -/
def Table.created (zeroes : S) (nSlots : Nat) : Table S :=
  .opened (Store.created (Node.zero zeroes)) nSlots

/-- `size`. -/
def Table.size (table : Table S) : Nat := table.mStats.itemcount

/-- `erase_one_descend` and `erase_iter_descend`. Both begin with copies of the handles to
the siblings, and those of the root are null. -/
def eraseDescend (_root : Node S) : M S Bool := throw .nullHandle

/-- `erase_one` and `erase(iterator)`, up to the search. -/
def eraseRoot : M S Bool := do
  let table ← get
  if table.mRootId = -1 then pure false
  else
    let root ← getNode table.mRootId
    let found ← eraseDescend root
    modify fun table => if found then
      { table with mStats.itemcount := table.mStats.itemcount - 1 } else table
    pure found

def eraseOne (_key : K) : M S Bool := eraseRoot

/-- The loop of `erase`. -/
def eraseLoop (key : K) : (fuel count : Nat) → M S Nat
  | 0, _ => throw .outOfFuel
  | fuel + 1, count => do
      if ← eraseOne key then eraseLoop key fuel (count + 1) else pure count

/-- `erase(key)`. Every round but the last removes a pair. -/
def eraseKey (key : K) : M S Nat := do
  let table ← get
  eraseLoop key (table.mStats.itemcount + 1) 0

/-- `erase(iterator)`. -/
def eraseIter (_iter : Iterator) : M S Unit := do
  let _ ← eraseRoot
  pure ()

/-- Closes the table and opens it again. -/
def reopen : M S Unit :=
  modify fun table => .opened table.store table.nSlots

/-- A call that may change the table. -/
inductive Command (K D : Type) where
  | insert (key : K) (value : D)
  | eraseOne (key : K)
  | eraseKey (key : K)
  | eraseIter (iter : Iterator)
  | reopen

def Command.perform (records : Records K D S) : Command K D → M S Unit
  | .insert key value => do
      let _ ← Tables.insert records key value
      pure ()
  | .eraseOne key => do
      let _ ← Tables.eraseOne key
      pure ()
  | .eraseKey key => do
      let _ ← Tables.eraseKey key
      pure ()
  | .eraseIter iter => Tables.eraseIter iter
  | .reopen => Tables.reopen

/-- The calls one after the other. -/
def performAll (records : Records K D S) : List (Command K D) → M S Unit
  | [] => pure ()
  | command :: rest => do
      command.perform records
      performAll records rest

def Command.isInsert : Command K D → Bool
  | .insert _ _ => true
  | _ => false

/-- The number of insertions among some calls. -/
def insertions (commands : List (Command K D)) : Nat := commands.countP Command.isInsert

end PersistentBTree.Tables
