import Mathlib.Data.List.ReduceOption
import Mathlib.Logic.Relation
import PersistentBTree.Pages.Manager

/-! A user of the page manager: it keeps handles in variables, copies, assigns and
destroys them, and inserts and deletes pages. The table may be closed and opened
again while no page is held. -/

set_option autoImplicit false

namespace PersistentBTree.Pages

open Imperative

variable {α : Type}

/-- The manager and the handles that are held in variables. -/
structure Client (α : Type) where
  manager : Manager α
  handles : List Handle

inductive Request (α : Type) where
  | getMemoryPage (n : Int)
  | copy (source : Nat)
  | assign (target source : Nat)
  | destroy (target : Nat)
  | insertPage
  | deletePage (n : Int)
  | write (target : Nat) (content : α)
  | reopen

/-- The handle in a variable. -/
def variableAt (handles : List Handle) (index : Nat) : Handle := handles.getD index none

/-- Runs the request; the result is what the variables hold after it. -/
def Request.perform (handles : List Handle) : Request α → M α (List Handle)
  | .getMemoryPage n => do
      let handle ← Pages.getMemoryPage n
      return handle :: handles
  | .copy source => do
      addRef (variableAt handles source)
      return variableAt handles source :: handles
  | .assign target source => do
      if target = source then return handles
      let handle ← Pages.assign (variableAt handles target) (variableAt handles source)
      return handles.set target handle
  | .destroy target => do
      Pages.destroy (variableAt handles target)
      return handles.eraseIdx target
  | .insertPage => do
      let handle ← Pages.insertPage
      return handle :: handles
  | .deletePage n => do
      Pages.deletePage n
      return handles
  | .write target content => do
      modifyPage (variableAt handles target) fun page => { page with content }
      return handles
  | .reopen => do
      close
      openTable
      return handles

/-- The requests that a program may make: no null handle is copied, assigned or
written through, and no page is held while the table is closed. -/
def Request.Valid (handles : List Handle) : Request α → Prop
  | .copy source | .write source _ => variableAt handles source ≠ none
  | .assign target source => target < handles.length ∧ variableAt handles source ≠ none
  | .destroy target => target < handles.length
  | .deletePage n => 0 ≤ n
  | .reopen => ∀ handle ∈ handles, handle = none
  | _ => True

/-- The requests one after the other. -/
def performAll : List (Request α) → List Handle → M α (List Handle)
  | [], handles => return handles
  | request :: rest, handles => do
      let handles ← request.perform handles
      performAll rest handles

/-- A completed request. -/
def Client.Step (before after : Client α) : Prop :=
  ∃ request : Request α, request.Valid before.handles ∧
    (request.perform before.handles).run before.manager = .ok (after.handles, after.manager)

/-- The client is the result of completed requests, beginning with a table that was
created and opened. -/
def Client.Reachable (zero : α) (client : Client α) : Prop :=
  ∃ opened, openTable.run (Manager.created zero) = .ok ((), opened) ∧
    Relation.ReflTransGen Client.Step ⟨opened, []⟩ client

/-! ## The promises -/

/-- The page that a handle refers to. -/
def Manager.pageOf (mgr : Manager α) (handle : Handle) : Option Int :=
  handle.bind fun ptr => (mgr.mappings ptr).map Mapping.page

/-- What the page allocator promises in one state: which pages are free, and what
each of its operations does. -/
structure Client.Allocates (client : Client α) : Prop where
  free : ∀ n, n ∈ client.manager.deletePages ↔
    0 ≤ n ∧ n < client.manager.header.nPages ∧ (client.manager.file n).isInit = false
  ids : ∀ n, 0 ≤ n → n < client.manager.header.nPages → (client.manager.file n).id = n
  get : ∀ n, Runs (getMemoryPage n) client.manager fun handle after =>
    after.toStore = client.manager.toStore ∧ (handle ≠ none ↔ client.manager.Allocated n) ∧
      (client.manager.Allocated n → after.pageOf handle = some n)
  insert : RunsUnless
    (client.manager.deletePages = ∅ ∧ intMax < client.manager.fileSize + pageSize)
    insertPage client.manager fun handle after => ∃ n, after.pageOf handle = some n ∧
      ¬ client.manager.Allocated n ∧
      (∀ other, after.Allocated other ↔ client.manager.Allocated other ∨ other = n) ∧
      (client.manager.deletePages ≠ ∅ → IsLeast client.manager.deletePages n ∧
        after.header.nPages = client.manager.header.nPages ∧
        after.fileSize = client.manager.fileSize) ∧
      (client.manager.deletePages = ∅ → n = client.manager.header.nPages ∧
        after.header.nPages = client.manager.header.nPages + 1 ∧
        after.fileSize = client.manager.fileSize + pageSize) ∧
      (∀ other, other ≠ n → after.file other = client.manager.file other) ∧
      (after.file n).content = (client.manager.file n).content
  delete : ∀ n, 0 ≤ n → Runs (deletePage n) client.manager fun _ after =>
    (∀ other, after.Allocated other ↔ client.manager.Allocated other ∧ other ≠ n) ∧
      after.header = client.manager.header ∧ after.fileSize = client.manager.fileSize ∧
      (∀ other, other ≠ n → after.file other = client.manager.file other) ∧
      (after.file n).content = (client.manager.file n).content
  reopen : (∀ handle ∈ client.handles, handle = none) →
    Runs (do close; openTable) client.manager fun _ after =>
      after.toStore = client.manager.toStore

/-- What the page cache promises in one state: the handles to a page share one
mapping, which counts them and is in the cache under the page's id; the mappings
without a handle are exactly those that were destroyed, once each. -/
structure Client.Counts (client : Client α) : Prop where
  shared : ∀ first second n, client.manager.pageOf (some first) = some n →
    client.manager.pageOf (some second) = some n → first = second
  counted : ∀ ptr mapping, client.manager.mappings ptr = some mapping →
    mapping.count = client.handles.count (some ptr) ∧ 0 < mapping.count
  live : ∀ ptr, some ptr ∈ client.handles → ∃ n, client.manager.pageOf (some ptr) = some n
  cached : ∀ n handle, client.manager.cache.lookup n = some handle ↔
    client.manager.pageOf handle = some n
  ids : ∀ n handle, client.manager.cache.lookup n = some handle → (client.manager.file n).id = n
  destroyed : ∀ ptr, ptr ∈ client.manager.unmapped ↔
    ptr < client.manager.brk ∧ some ptr ∉ client.handles
  once : client.manager.unmapped.Nodup

/-- A request leaves the mappings that still have a handle and destroys the others. -/
def Client.Releases (before : Client α) (handles : List Handle) (after : Manager α) : Prop :=
  ∀ ptr, some ptr ∈ before.handles → (ptr ∈ after.unmapped ↔ some ptr ∉ handles)

end PersistentBTree.Pages
