import Mathlib.Data.Finset.Max
import Mathlib.Tactic.Common
import Mathlib.Tactic.Ring
import PersistentBTree.Pages.Layout

/-! The pages of a table by their ids: what is in the two files, and which pages
may be handed out again. The operations say what allocating and freeing a page
is for; how the manager's mappings come to it is the subject of `Manager`. -/

set_option autoImplicit false

namespace PersistentBTree.Pages

/-- The fields of a `MemoryPage` that the manager uses, with the rest of the
page as its content. -/
structure Page (α : Type) where
  isInit : Bool
  id : Int
  content : α

/-- A page of a file that has just grown: all its bytes are zero. -/
def Page.zero {α : Type} (zero : α) : Page α := ⟨false, 0, zero⟩

/-- The fields of a `MemoryHeader` that change while a table is used. -/
structure Header where
  nPages : Int
  size : Int
  usedPages : Int
  rootPage : Int
  headLeaf : Int
  tailLeaf : Int
deriving DecidableEq

/-- The header once the file has one page more. `add` adds values of type `int`. -/
def Header.addPage (add : Int → Int → Int) (header : Header) : Header :=
  { header with
    nPages := add header.nPages 1
    size := add header.size pageSize
    usedPages := add header.usedPages 1 }

/-- The header and the pages of a table, and the pages that were deleted. -/
structure Store (α : Type) where
  header : Header
  fileSize : Int
  file : Int → Page α
  deletePages : Finset Int

namespace Store

variable {α : Type}

/-- The header that `InitHeader` writes, and a file without any page. -/
def created (zero : α) : Store α where
  header := ⟨0, 0, 0, -1, -1, -1⟩
  fileSize := 0
  file _ := .zero zero
  deletePages := ∅

/-- The page was handed out and has not been deleted since. -/
def Allocated (store : Store α) (n : Int) : Prop :=
  0 ≤ n ∧ n < store.header.nPages ∧ n ∉ store.deletePages

instance (store : Store α) (n : Int) : Decidable (store.Allocated n) :=
  inferInstanceAs (Decidable (_ ∧ _ ∧ _))

/-- `*m_deletePages.begin()`, if there is any. -/
def lowest (store : Store α) : Option Int :=
  if some_ : store.deletePages.Nonempty then some (store.deletePages.min' some_) else none

def setPage (store : Store α) (n : Int) (change : Page α → Page α) : Store α :=
  { store with file := Function.update store.file n (change (store.file n)) }

def setDeletePages (store : Store α) (pages : Finset Int) : Store α :=
  { store with deletePages := pages }

/-- The deleted page `n` is taken into use again. -/
def reuse (store : Store α) (n : Int) : Store α :=
  (store.setPage n fun page => { page with isInit := true }).setDeletePages
    (store.deletePages.erase n)

/-- The file has one page more. -/
def grown (store : Store α) : Store α :=
  { store with
    header := store.header.addPage (· + ·)
    fileSize := store.header.size + pageSize }

/-- The file has one page more, which is taken into use. -/
def append (store : Store α) : Store α :=
  store.grown.setPage store.header.nPages fun page =>
    { page with isInit := true, id := store.header.nPages }

/-- A page is taken into use: the lowest one that was deleted, or a new one. -/
def allocate (store : Store α) : Int × Store α :=
  match store.lowest with
  | some n => (n, store.reuse n)
  | none => (store.header.nPages, store.append)

/-- Page `n` is deleted, if there is such a page. -/
def free (store : Store α) (n : Int) : Store α :=
  if n < store.header.nPages ∧ n ∉ store.deletePages then
    (store.setPage n fun page => { page with isInit := false }).setDeletePages
      (insert n store.deletePages)
  else store

/-- The pages that were deleted are those whose flag says so; every page has its
index as its id; and the sizes agree. -/
structure Sound (store : Store α) : Prop where
  deleted : ∀ n, n ∈ store.deletePages ↔
    0 ≤ n ∧ n < store.header.nPages ∧ (store.file n).isInit = false
  identified : ∀ n, 0 ≤ n → n < store.header.nPages → (store.file n).id = n
  counted : 0 ≤ store.header.nPages
  sized : store.header.size = store.header.nPages * pageSize
  resized : store.fileSize = store.header.size

@[simp] theorem setPage_header (store : Store α) (n : Int) (change : Page α → Page α) :
    (store.setPage n change).header = store.header := rfl

@[simp] theorem setPage_deletePages (store : Store α) (n : Int) (change : Page α → Page α) :
    (store.setPage n change).deletePages = store.deletePages := rfl

@[simp] theorem setPage_fileSize (store : Store α) (n : Int) (change : Page α → Page α) :
    (store.setPage n change).fileSize = store.fileSize := rfl

@[simp] theorem setDeletePages_header (store : Store α) (pages : Finset Int) :
    (store.setDeletePages pages).header = store.header := rfl

@[simp] theorem setDeletePages_fileSize (store : Store α) (pages : Finset Int) :
    (store.setDeletePages pages).fileSize = store.fileSize := rfl

@[simp] theorem setDeletePages_file (store : Store α) (pages : Finset Int) :
    (store.setDeletePages pages).file = store.file := rfl

@[simp] theorem setDeletePages_deletePages (store : Store α) (pages : Finset Int) :
    (store.setDeletePages pages).deletePages = pages := rfl

@[simp] theorem setPage_self (store : Store α) (n : Int) (change : Page α → Page α) :
    (store.setPage n change).file n = change (store.file n) :=
  Function.update_self ..

theorem setPage_of_ne (store : Store α) {n other : Int} (change : Page α → Page α)
    (apart : other ≠ n) : (store.setPage n change).file other = store.file other :=
  Function.update_of_ne apart ..

theorem file_reuse_of_ne (store : Store α) {n other : Int} (apart : other ≠ n) :
    (store.reuse n).file other = store.file other := by
  rw [reuse, setDeletePages_file, setPage_of_ne _ _ apart]

theorem file_append_of_ne (store : Store α) {other : Int} (apart : other ≠ store.header.nPages) :
    store.append.file other = store.file other := by
  rw [append, setPage_of_ne _ _ apart, grown]

theorem file_free_of_ne (store : Store α) {n other : Int} (apart : other ≠ n) :
    (store.free n).file other = store.file other := by
  unfold free
  split
  next => rw [setDeletePages_file, setPage_of_ne _ _ apart]
  next => rfl

theorem lowest_eq_none {store : Store α} : store.lowest = none ↔ store.deletePages = ∅ := by
  unfold lowest
  split
  next some_ => simp [Finset.nonempty_iff_ne_empty.mp some_]
  next none => simpa using none

theorem lowest_eq_some {store : Store α} {n : Int} (found : store.lowest = some n) :
    n ∈ store.deletePages ∧ ∀ other ∈ store.deletePages, n ≤ other := by
  unfold lowest at found
  split at found
  next some_ =>
    cases found
    exact ⟨Finset.min'_mem _ some_, fun other member => Finset.min'_le _ other member⟩
  next => cases found

/-! ## What the operations do -/

namespace Sound

variable {store : Store α} {n : Int}

theorem created (zero : α) : (Store.created zero).Sound where
  deleted n := by
    constructor
    · intro member
      cases Finset.notMem_empty n member
    · intro inside
      exact absurd inside.1 (not_le.mpr inside.2.1)
  identified n low high := absurd low (not_le.mpr high)
  counted := le_refl 0
  sized := rfl
  resized := rfl

theorem setPage (sound : store.Sound) {change : Page α → Page α}
    (isInit : (change (store.file n)).isInit = (store.file n).isInit)
    (id : (change (store.file n)).id = (store.file n).id) : (store.setPage n change).Sound where
  deleted other := by
    by_cases same : other = n
    · subst same
      simpa [isInit] using sound.deleted other
    · simpa [setPage_of_ne _ _ same] using sound.deleted other
  identified other low high := by
    by_cases same : other = n
    · subst same
      simpa [id] using sound.identified other low high
    · simpa [setPage_of_ne _ _ same] using sound.identified other low high
  counted := sound.counted
  sized := sound.sized
  resized := sound.resized

theorem reuse (sound : store.Sound) (free : n ∈ store.deletePages) : (store.reuse n).Sound where
  deleted other := by
    by_cases same : other = n
    · subst same
      simp [Store.reuse]
    · simpa [Store.reuse, same, setPage_of_ne _ _ same] using sound.deleted other
  identified other low high := by
    have before := sound.identified other low high
    by_cases same : other = n
    · subst same
      simpa [Store.reuse] using before
    · simpa [Store.reuse, setPage_of_ne _ _ same] using before
  counted := sound.counted
  sized := sound.sized
  resized := sound.resized

theorem append (sound : store.Sound) : store.append.Sound where
  deleted other := by
    by_cases same : other = store.header.nPages
    · subst same
      have outside : store.header.nPages ∉ store.deletePages := by
        rw [sound.deleted]
        omega
      simp [Store.append, Store.grown, Header.addPage, outside]
    · have before := sound.deleted other
      simp only [Store.append, setPage_of_ne _ _ same, setPage_deletePages, setPage_header,
        Store.grown, Header.addPage]
      rw [before]
      constructor
      · intro inside
        exact ⟨inside.1, by omega, inside.2.2⟩
      · intro inside
        exact ⟨inside.1, by omega, inside.2.2⟩
  identified other low high := by
    by_cases same : other = store.header.nPages
    · subst same
      simp [Store.append]
    · have before := sound.identified other low
      simp only [Store.append, Store.grown, Header.addPage, setPage_header] at high
      rw [Store.append, setPage_of_ne _ _ same]
      exact before (by omega)
  counted := by
    have before := sound.counted
    simp only [Store.append, Store.grown, Header.addPage, setPage_header]
    omega
  sized := by
    have before := sound.sized
    simp only [Store.append, Store.grown, Header.addPage, setPage_header]
    rw [before]
    ring
  resized := rfl

theorem free (sound : store.Sound) (low : 0 ≤ n) : (store.free n).Sound := by
  unfold Store.free
  split
  next present =>
    constructor
    · intro other
      by_cases same : other = n
      · subst same
        simp [low, present.1]
      · simpa [same, setPage_of_ne _ _ same] using sound.deleted other
    · intro other low high
      have before := sound.identified other low high
      by_cases same : other = n
      · subst same
        simpa using before
      · simpa [setPage_of_ne _ _ same] using before
    · exact sound.counted
    · exact sound.sized
    · exact sound.resized
  next => exact sound

theorem allocate (sound : store.Sound) : store.allocate.2.Sound := by
  unfold Store.allocate
  split
  next found => exact sound.reuse (lowest_eq_some found).1
  next => exact sound.append

end Sound

section Allocation

variable {store : Store α} {n other : Int}

theorem allocated_reuse (sound : store.Sound) (free : n ∈ store.deletePages) :
    (store.reuse n).Allocated other ↔ store.Allocated other ∨ other = n := by
  have inside := (sound.deleted n).mp free
  simp only [Allocated, reuse, setDeletePages_header, setPage_header, setDeletePages_deletePages,
    Finset.mem_erase, not_and, ne_eq]
  by_cases same : other = n
  · subst same
    simp [inside.1, inside.2.1]
  · simp [same]

theorem allocated_append (sound : store.Sound) (none : store.deletePages = ∅) :
    store.append.Allocated other ↔ store.Allocated other ∨ other = store.header.nPages := by
  have some_ := sound.counted
  simp only [Allocated, append, setPage_header, setPage_deletePages, grown, Header.addPage,
    none, Finset.notMem_empty, not_false_eq_true, and_true]
  omega

theorem allocated_free (low : 0 ≤ n) :
    (store.free n).Allocated other ↔ store.Allocated other ∧ other ≠ n := by
  unfold free
  split
  next =>
    simp only [Allocated, setDeletePages_header, setPage_header, setDeletePages_deletePages,
      Finset.mem_insert, not_or]
    tauto
  next missing =>
    constructor
    · intro allocated
      refine ⟨allocated, ?_⟩
      rintro rfl
      exact missing allocated.2
    · intro both
      exact both.1

theorem fresh_allocate : ¬ store.Allocated store.allocate.1 := by
  unfold allocate
  cases found : store.lowest with
  | none => exact fun inside => lt_irrefl _ inside.2.1
  | some n => exact fun inside => inside.2.2 (lowest_eq_some found).1

theorem allocated_allocate (sound : store.Sound) :
    store.allocate.2.Allocated other ↔ store.Allocated other ∨ other = store.allocate.1 := by
  unfold allocate
  cases found : store.lowest with
  | none => exact allocated_append sound (lowest_eq_none.mp found)
  | some n => exact allocated_reuse sound (lowest_eq_some found).1

@[simp] theorem content_allocate :
    (store.allocate.2.file other).content = (store.file other).content := by
  unfold allocate
  cases store.lowest with
  | none =>
      by_cases same : other = store.header.nPages
      · subst same
        simp [append, grown]
      · rw [file_append_of_ne _ same]
  | some n =>
      by_cases same : other = n
      · subst same
        simp [reuse]
      · rw [file_reuse_of_ne _ same]

theorem Sound.id_of_allocated (sound : store.Sound) (inUse : store.Allocated n) :
    (store.file n).id = n :=
  sound.identified n inUse.1 inUse.2.1

end Allocation

end Store

end PersistentBTree.Pages
