import Mathlib.Data.Finset.Range
import Mathlib.Data.Fintype.EquivFin
import Mathlib.Data.Nat.Find
import PersistentBTree.Pages.Client

/-! What the page manager is for: numbered pages, some of which are in use, and
variables that hold their numbers. Here are no mappings, no counts, no cache and no
file that is opened and closed. -/

set_option autoImplicit false

namespace PersistentBTree.Pages

open Imperative

variable {α : Type}

@[ext]
structure Volume (α : Type) where
  inUse : Finset Int
  content : Int → α
  held : List (Option Int)

theorem exists_notMem_natCast (pages : Finset Int) : ∃ n : Nat, (n : Int) ∉ pages := by
  obtain ⟨n, outside⟩ := Infinite.exists_notMem_finset (pages.image Int.toNat)
  exact ⟨n, fun inside => outside (Finset.mem_image.mpr ⟨n, inside, Int.toNat_natCast n⟩)⟩

namespace Volume

def empty (zero : α) : Volume α := ⟨∅, fun _ => zero, []⟩

/-- The lowest page that is not in use. -/
def lowest (volume : Volume α) : Int := Nat.find (exists_notMem_natCast volume.inUse)

def perform (volume : Volume α) : Request α → Volume α
  | .getMemoryPage n =>
      { volume with held := (if n ∈ volume.inUse then some n else none) :: volume.held }
  | .copy source => { volume with held := volume.held.getD source none :: volume.held }
  | .assign target source =>
      { volume with held := volume.held.set target (volume.held.getD source none) }
  | .destroy target => { volume with held := volume.held.eraseIdx target }
  | .insertPage =>
      { volume with
        inUse := insert volume.lowest volume.inUse
        held := some volume.lowest :: volume.held }
  | .deletePage n => { volume with inUse := volume.inUse.erase n }
  | .write target content =>
      match volume.held.getD target none with
      | some n => { volume with content := Function.update volume.content n content }
      | none => volume
  | .reopen => volume

/-- The greatest number of pages that are in use at a time. -/
def peak (volume : Volume α) : List (Request α) → Nat
  | [] => volume.inUse.card
  | request :: rest => max volume.inUse.card ((volume.perform request).peak rest)

end Volume

/-- The numbers of all pages of the file. -/
def Store.numbers (store : Store α) : Finset Int :=
  (Finset.range store.header.nPages.toNat).image Int.ofNat

/-- The pages of these files, with the numbers of those that variables hold. -/
def Store.volume (store : Store α) (held : List (Option Int)) : Volume α where
  inUse := store.numbers \ store.deletePages
  content n := (store.file n).content
  held := held

/-- The client without the mappings. -/
def Client.volume (client : Client α) : Volume α :=
  client.manager.toStore.volume (client.handles.map client.manager.pageOf)

/-- The client is the result of these requests, which were completed one after the
other, beginning with a table that was created and opened. -/
inductive Client.After (zero : α) : List (Request α) → Client α → Prop where
  | opened {mgr : Manager α} (returned : openTable.run (Manager.created zero) = .ok ((), mgr)) :
      After zero [] ⟨mgr, []⟩
  | request {requests : List (Request α)} {before after : Client α} {request : Request α}
      (earlier : After zero requests before) (valid : request.Valid before.handles)
      (returned : (request.perform before.handles).run before.manager =
        .ok (after.handles, after.manager)) :
      After zero (requests ++ [request]) after

end PersistentBTree.Pages
