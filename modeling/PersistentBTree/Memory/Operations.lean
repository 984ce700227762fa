import Mathlib.Logic.Relation
import PersistentBTree.Memory.Erase
import PersistentBTree.Memory.Invariant

/-! The runs of an in-memory `btree`: sequences of calls that begin with an empty
tree whose node sizes are fixed. A run may be restricted to calls that search only in
trees of some kind; `erase(key)` searches once in every round. -/

set_option autoImplicit false

namespace PersistentBTree.Memory

open Imperative

variable {K D : Type}

/-- A call that may change the tree. Keys and data are values; the source takes
references, which must not be into the tree. -/
inductive Command (K D : Type) where
  | insert (key : K) (value : D)
  | eraseOne (key : K)
  | eraseKey (key : K)
  | eraseIter (iter : Iterator)
  | clear

/-- What a call returns. -/
inductive Reply where
  | inserted (iter : Iterator) (isNew : Bool)
  | found (found : Bool)
  | total (count : Nat)
  | done
  deriving DecidableEq

/-- A call with a key, which is valid whatever the tree is. -/
def Command.hasKey : Command K D → Bool
  | .insert _ _ | .eraseOne _ | .eraseKey _ => true
  | .eraseIter _ | .clear => false

variable [LinearOrder K] [Inhabited K]

def Command.perform : Command K D → M K D Reply
  | .insert key value => do
      let (iter, isNew) ← Memory.insert key value
      pure (.inserted iter isNew)
  | .eraseOne key => do
      let found ← Memory.eraseOne key
      pure (.found found)
  | .eraseKey key => do
      let count ← Memory.eraseKey key
      pure (.total count)
  | .eraseIter iter => do
      Memory.eraseIter iter
      pure .done
  | .clear => do
      Memory.clear
      pure .done

/-- The calls one after the other. -/
def performAll : List (Command K D) → M K D Unit
  | [] => pure ()
  | command :: rest => do
      let _ ← command.perform
      performAll rest

/-- `erase(iterator)` is called with an iterator to a stored pair. -/
def Command.Valid (tree : BTree K D) : Command K D → Prop
  | .eraseIter iter => ∃ front pair back, Denotes tree.leafBlocks iter front pair back
  | _ => True

/-- Rounds of `erase(key)` that find a pair. -/
def Rounds (key : K) : BTree K D → BTree K D → Prop :=
  Relation.ReflTransGen fun before after =>
    (Memory.eraseOne key).run before = .ok (true, after)

/-- The call only searches in trees of this kind. -/
def Command.SearchesIn (kind : BTree K D → Prop) (tree : BTree K D) : Command K D → Prop
  | .eraseKey key => ∀ after, Rounds key tree after → kind after
  | .clear => True
  | _ => kind tree

/-- A completed call that searches in trees of this kind. -/
def Step (kind : BTree K D → Prop) (before after : BTree K D) : Prop :=
  ∃ (command : Command K D) (reply : Reply), command.Valid before ∧
    command.SearchesIn kind before ∧ command.perform.run before = .ok (reply, after)

/-- The tree is the result of such calls on an empty one. -/
def ReachableIn (kind : BTree K D → Prop) (sizes : NodeSizes) (checks : Assertion → Bool) :
    BTree K D → Prop :=
  Relation.ReflTransGen (Step kind) (BTree.empty sizes checks)

/-- The tree is the result of any completed calls on an empty one. -/
def Reachable (sizes : NodeSizes) (checks : Assertion → Bool) : BTree K D → Prop :=
  ReachableIn (fun _ => True) sizes checks

end PersistentBTree.Memory
