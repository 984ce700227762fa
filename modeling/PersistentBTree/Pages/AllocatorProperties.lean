import PersistentBTree.Pages.ManagerProperties

/-! Inserting and deleting pages, and closing and opening the table: every one of
them does to the files what the store's operation says. -/

set_option autoImplicit false

namespace PersistentBTree.Pages

open Imperative

variable {α : Type} {mgr : Manager α} {n : Int} {out : Multiset Reference}

/-- The manager is open, and its files are those of a sound store. -/
structure Manager.Healthy (mgr : Manager α) : Prop where
  isOpen : mgr.isOpen = true
  sound : mgr.Sound
  small : mgr.header.size ≤ intMax

namespace Manager

theorem Healthy.mappable (healthy : mgr.Healthy) : mgr.Mappable where
  isOpen := healthy.isOpen
  within := by rw [healthy.sound.resized, healthy.sound.sized]
  small := by
    rw [healthy.sound.resized]
    exact healthy.small

namespace Becomes

variable {before middle after : Manager α} {store : Store α} {more : Multiset Reference}

theorem trans (first : before.Becomes middle store more) {other : Store α}
    (second : middle.Becomes after other out) : before.Becomes after other out where
  balanced := second.balanced
  store := second.store
  isOpen := second.isOpen.trans first.isOpen
  brk := first.brk.trans second.brk

theorem healthy (becomes : before.Becomes after store out) (isOpen : before.isOpen = true)
    (sound : store.Sound) (small : store.header.size ≤ intMax) : after.Healthy where
  isOpen := becomes.isOpen.trans isOpen
  sound := by rwa [becomes.store]
  small := by rwa [becomes.store]

theorem mappable (becomes : before.Becomes after before.toStore out) (mappable : before.Mappable) :
    after.Mappable where
  isOpen := becomes.isOpen.trans mappable.isOpen
  within := by
    rw [becomes.store]
    exact mappable.within
  small := by
    rw [becomes.store]
    exact mappable.small

end Becomes

end Manager

/-- The page is in a variable, after the temporary handle was destroyed. -/
theorem assignMemoryPage_runs (balanced : mgr.Balanced out) (mappable : mgr.Mappable)
    (allocated : mgr.Allocated n) :
    Runs (assignMemoryPage n) mgr fun handle after =>
      ∃ ptr, handle = some ptr ∧ mgr.Becomes after mgr.toStore ((ptr, n) ::ₘ out) := by
  simp only [assignMemoryPage, runs_bind, runs_pure]
  refine (getMemoryPage_runs balanced mappable n).mono fun temporary first obtained => ?_
  rw [Manager.Obtained, if_pos allocated] at obtained
  obtain ⟨ptr, rfl, becomes⟩ := obtained
  have held : (ptr, n) ∈ (ptr, n) ::ₘ out := Multiset.mem_cons_self ..
  refine (assign_runs becomes.balanced held).mono ?_
  rintro page second ⟨rfl, twice⟩
  refine (destroy_runs twice.balanced fun alone => absurd held alone).mono fun _ third once => ?_
  have whole := (becomes.trans twice).trans once
  rw [twice.store, becomes.store] at whole
  exact ⟨ptr, rfl, whole⟩

theorem modifyPage_runs {ptr : Address} (balanced : mgr.Balanced out) (held : (ptr, n) ∈ out)
    (change : Page α → Page α) :
    Runs (modifyPage (some ptr) change) mgr fun _ after =>
      mgr.Becomes after (mgr.setPage n change) out := by
  rw [runs_modifyPage (balanced.mapping held)]
  exact ⟨balanced.setStore (le_refl _), rfl, rfl, le_refl _⟩

theorem takePage_runs (balanced : mgr.Balanced out) (mappable : mgr.Mappable)
    (allocated : mgr.Allocated n) (change : Page α → Page α) :
    Runs (takePage n change) mgr fun handle after => ∃ ptr, handle = some ptr ∧
      mgr.Becomes after (mgr.setPage n change) ((ptr, n) ::ₘ out) := by
  simp only [takePage, runs_bind, runs_pure]
  refine (assignMemoryPage_runs balanced mappable allocated).mono ?_
  rintro page middle ⟨ptr, rfl, becomes⟩
  have held : (ptr, n) ∈ (ptr, n) ::ₘ out := Multiset.mem_cons_self ..
  refine (modifyPage_runs becomes.balanced held change).mono fun _ after written => ?_
  rw [becomes.store] at written
  exact ⟨ptr, rfl, becomes.trans written⟩

/-- What `InsertPage` returns and leaves. -/
def Manager.Inserted (before : Manager α) (out : Multiset Reference) (handle : Handle)
    (after : Manager α) : Prop :=
  after.Healthy ∧ ∃ ptr, handle = some ptr ∧
    before.Becomes after before.allocate.2 ((ptr, before.allocate.1) ::ₘ out)

private theorem insertPage_reuse (balanced : mgr.Balanced out) (healthy : mgr.Healthy)
    (found : mgr.lowest = some n) : Runs insertPage mgr (mgr.Inserted out) := by
  have free := (healthy.sound.deleted n).mp (Store.lowest_eq_some found).1
  have mappable := healthy.mappable
  let taken := mgr.setStore (mgr.setDeletePages (mgr.deletePages.erase n))
  have still : taken.Balanced out := balanced.setStore (le_refl _)
  have allocated : taken.Allocated n := ⟨free.1, free.2.1, Finset.notMem_erase n _⟩
  have again : taken.Mappable := ⟨mappable.isOpen, mappable.within, mappable.small⟩
  simp only [insertPage, runs_bind, runs_get, found, runs_set]
  refine (takePage_runs still again allocated _).mono ?_
  rintro handle after ⟨ptr, rfl, becomes⟩
  have whole : mgr.Becomes after (mgr.reuse n) ((ptr, n) ::ₘ out) :=
    ⟨becomes.balanced, becomes.store, becomes.isOpen, becomes.brk⟩
  have reused : mgr.allocate = (n, mgr.reuse n) := by simp [Store.allocate, found]
  refine ⟨whole.healthy healthy.isOpen ?_ healthy.small, ptr, rfl, ?_⟩
  · exact healthy.sound.reuse (Store.lowest_eq_some found).1
  · rwa [reused]

private theorem insertPage_append (balanced : mgr.Balanced out) (healthy : mgr.Healthy)
    (nothing : mgr.lowest = none) (room : mgr.header.size + pageSize ≤ intMax) :
    Runs insertPage mgr (mgr.Inserted out) := by
  have sound := healthy.sound
  have some_ : (0 : Int) < pageSize := by decide
  have inInt : ¬ intMax < mgr.header.size + pageSize := not_lt.mpr room
  have longer : ¬ mgr.header.size + pageSize ≤ mgr.fileSize := by
    rw [sound.resized]
    omega
  have allocated : (mgr.setStore mgr.grown).Allocated mgr.header.nPages := by
    have isEmpty : (mgr.setStore mgr.grown).deletePages = ∅ := Store.lowest_eq_none.mp nothing
    refine ⟨sound.counted, Int.lt_succ _, ?_⟩
    rw [isEmpty]
    exact Finset.notMem_empty _
  have mappable : (mgr.setStore mgr.grown).Mappable := by
    refine ⟨healthy.isOpen, ?_, room⟩
    have sized := sound.sized
    simp only [Manager.setStore, Store.grown, Header.addPage, sized, add_mul, one_mul, le_refl]
  simp only [insertPage, runs_bind, runs_get, nothing, runs_openManager healthy.isOpen,
    Header.addPage, inInt, ↓reduceIte, resizeFile, longer, runs_set, runs_modify]
  have kept : mgr.header.nPages ≤ mgr.grown.header.nPages := Int.le_add_one (le_refl _)
  refine (takePage_runs (balanced.setStore kept) mappable allocated _).mono ?_
  rintro handle after ⟨ptr, rfl, becomes⟩
  have whole : mgr.Becomes after mgr.append ((ptr, mgr.header.nPages) ::ₘ out) :=
    ⟨becomes.balanced, becomes.store, becomes.isOpen, becomes.brk⟩
  have appended : mgr.allocate = (mgr.header.nPages, mgr.append) := by
    simp [Store.allocate, nothing]
  refine ⟨whole.healthy healthy.isOpen sound.append room, ptr, rfl, ?_⟩
  rwa [appended]

/-- `InsertPage` returns unless the size of the file leaves the range of `int`. -/
theorem insertPage_runs (balanced : mgr.Balanced out) (healthy : mgr.Healthy) :
    RunsUnless (mgr.deletePages = ∅ ∧ intMax < mgr.header.size + pageSize) insertPage mgr
      (mgr.Inserted out) := by
  cases found : mgr.lowest with
  | some n => exact .inl (insertPage_reuse balanced healthy found)
  | none =>
      by_cases room : mgr.header.size + pageSize ≤ intMax
      · exact .inl (insertPage_append balanced healthy found room)
      · have exceeds : intMax < mgr.header.size + pageSize := not_le.mp room
        refine .inr ⟨⟨Store.lowest_eq_none.mp found, exceeds⟩, ?_⟩
        refine Runs.faults_bind ((runs_get ..).mpr ?_)
        rw [found]
        refine Runs.faults_bind ((runs_openManager healthy.isOpen _).mpr ?_)
        have tooLarge : intMax < (mgr.header.addPage (· + ·)).size := exceeds
        change Faults (if intMax < (mgr.header.addPage (· + ·)).size then _ else _) mgr
        rw [if_pos tooLarge]
        exact (faults_throw ..).bind

theorem deletePage_runs (balanced : mgr.Balanced out) (healthy : mgr.Healthy) (low : 0 ≤ n) :
    Runs (deletePage n) mgr fun _ after =>
      after.Healthy ∧ mgr.Becomes after (mgr.free n) out := by
  have sound := healthy.sound.free low
  simp only [deletePage, runs_bind, runs_openManager healthy.isOpen]
  by_cases present : n < mgr.header.nPages ∧ n ∉ mgr.deletePages
  · have allocated : mgr.Allocated n := ⟨low, present⟩
    rw [if_pos present]
    refine (runs_bind ..).mpr ?_
    refine (getMemoryPage_runs balanced healthy.mappable n).mono fun page first obtained => ?_
    rw [Manager.Obtained, if_pos allocated] at obtained
    obtain ⟨ptr, rfl, becomes⟩ := obtained
    have held : (ptr, n) ∈ (ptr, n) ::ₘ out := Multiset.mem_cons_self ..
    refine (runs_bind ..).mpr ((modifyPage_runs becomes.balanced held _).mono ?_)
    intro _ second written
    have isFree : second.setDeletePages (insert n second.deletePages) =
        mgr.free n := by
      rw [written.store, becomes.store, Store.free, if_pos present]
      rfl
    have identified : ((mgr.free n).file n).id = n := by
      refine sound.identified n low ?_
      rw [Store.free, if_pos present]
      exact present.1
    simp only [runs_bind, runs_modify, isFree]
    have inserted : (second.setStore (mgr.free n)).Balanced ((ptr, n) ::ₘ out) := by
      refine written.balanced.setStore (le_of_eq ?_)
      rw [written.store, becomes.store, Store.free, if_pos present]
      rfl
    refine (destroy_runs inserted fun _ => identified).mono fun _ after destroyed => ?_
    have whole := (becomes.trans written).trans ⟨destroyed.balanced, destroyed.store,
      destroyed.isOpen, destroyed.brk⟩
    refine ⟨whole.healthy healthy.isOpen sound ?_, whole⟩
    rw [Store.free, if_pos present]
    exact healthy.small
  · rw [if_neg present, runs_pure, Store.free, if_neg present]
    exact ⟨healthy, balanced, rfl, rfl, le_refl _⟩

/-! ## Closing and opening -/

/-- `Close` while no handle is out: nothing is in the cache. -/
theorem close_runs (balanced : mgr.Balanced 0) :
    Runs close mgr fun _ after => after.isOpen = false ∧ after.Balanced 0 ∧ mgr.brk ≤ after.brk ∧
      after.toStore = mgr.setDeletePages ∅ := by
  have entries : mgr.cache.entries = [] := by
    refine List.eq_nil_iff_forall_not_mem.mpr fun entry member => ?_
    obtain ⟨page, handle⟩ := entry
    obtain ⟨ptr, -, held⟩ := (balanced.cached page handle).mp (AList.mem_lookup_iff.mpr member)
    exact Multiset.notMem_zero _ held
  have isEmpty : mgr.cache = ∅ := AList.ext entries
  have closed : (mgr.setStore (mgr.setDeletePages ∅)).cache.entries = [] := entries
  simp only [close, runs_bind, runs_modify, runs_get, closed, clearEntries, ← isEmpty]
  have still : ({ mgr.setStore (mgr.setDeletePages ∅) with
      isOpen := false } : Manager α).Balanced 0 := balanced.reopen (mgr.setDeletePages ∅) (le_refl _) false
  exact ⟨trivial, still, le_refl _, rfl⟩

/-- The store while `InitUsedPages` is at page `i`. -/
def Store.scanned (store : Store α) (i : Int) : Store α :=
  store.setDeletePages (store.deletePages.filter (· < i))

namespace Store

variable {store : Store α} {i : Int}

theorem Sound.scanned_zero (sound : store.Sound) :
    store.scanned 0 = store.setDeletePages ∅ := by
  rw [scanned, Finset.filter_false_of_mem]
  intro n member
  exact not_lt.mpr ((sound.deleted n).mp member).1

theorem Sound.scanned_all (sound : store.Sound) : store.scanned store.header.nPages = store := by
  have all : store.deletePages.filter (· < store.header.nPages) = store.deletePages :=
    Finset.filter_true_of_mem fun n member => ((sound.deleted n).mp member).2.1
  rw [scanned, all]
  rfl

theorem scanned_deleted (deleted : i ∈ store.deletePages) :
    insert i (store.scanned i).deletePages = (store.scanned (i + 1)).deletePages := by
  ext n
  simp only [scanned, setDeletePages_deletePages, Finset.mem_insert, Finset.mem_filter]
  constructor
  · rintro (rfl | inside)
    · exact ⟨deleted, Int.lt_succ _⟩
    · exact ⟨inside.1, Int.lt_add_one_of_le (le_of_lt inside.2)⟩
  · rintro ⟨member, below⟩
    rcases eq_or_lt_of_le (Int.le_of_lt_add_one below) with same | less
    · exact .inl same
    · exact .inr ⟨member, less⟩

theorem scanned_used (used : i ∉ store.deletePages) : store.scanned i = store.scanned (i + 1) := by
  have same : ∀ n ∈ store.deletePages, (n < i ↔ n < i + 1) := by
    intro n member
    constructor
    · intro below
      exact Int.lt_add_one_of_le (le_of_lt below)
    · intro below
      refine lt_of_le_of_ne (Int.le_of_lt_add_one below) ?_
      rintro rfl
      exact used member
  rw [scanned, scanned, Finset.filter_congr same]

end Store

/-- One round of `InitUsedPages`. -/
private theorem initUsedPage_runs {store : Store α} {i : Int} (sound : store.Sound)
    (isStore : mgr.toStore = store.scanned i) (balanced : mgr.Balanced 0) (mappable : mgr.Mappable)
    (low : 0 ≤ i) (high : i < store.header.nPages) :
    Runs (initUsedPage i) mgr fun _ after => mgr.Becomes after (store.scanned (i + 1)) 0 := by
  have allocated : mgr.Allocated i := by
    rw [isStore]
    exact ⟨low, high, by simp [Store.scanned]⟩
  simp only [initUsedPage, runs_bind]
  refine (getMemoryPage_runs balanced mappable i).mono fun page first obtained => ?_
  rw [Manager.Obtained, if_pos allocated, isStore] at obtained
  obtain ⟨ptr, rfl, becomes⟩ := obtained
  have held : (ptr, i) ∈ (ptr, i) ::ₘ 0 := Multiset.mem_cons_self ..
  have flag : (first.file i).isInit = (store.file i).isInit := by
    rw [becomes.store]
    rfl
  have deleted := sound.deleted i
  rw [runs_readPage (becomes.balanced.mapping held), flag]
  have destroys : ∀ second : Manager α, first.Becomes second (store.scanned (i + 1)) {(ptr, i)} →
      Runs (destroy (some ptr)) second fun _ after =>
        mgr.Becomes after (store.scanned (i + 1)) 0 := by
    intro second scanned
    have identified : (second.file i).id = i := by
      rw [scanned.store]
      exact sound.identified i low high
    refine (destroy_runs scanned.balanced fun _ => identified).mono fun _ after destroyed => ?_
    rw [scanned.store] at destroyed
    exact (becomes.trans scanned).trans destroyed
  cases isInit : (store.file i).isInit with
  | false =>
      rw [if_pos (by simp), runs_bind, runs_modify]
      refine destroys _ ⟨becomes.balanced.setStore (le_refl _), ?_, rfl, le_refl _⟩
      rw [Manager.setStore, becomes.store, Store.scanned_deleted (deleted.mpr ⟨low, high, isInit⟩)]
      rfl
  | true =>
      have used : i ∉ store.deletePages := by
        rw [deleted, isInit]
        simp
      rw [if_neg (by simp)]
      refine destroys _ ⟨becomes.balanced, ?_, rfl, le_refl _⟩
      rw [becomes.store, Store.scanned_used used]

/-- The loop of `InitUsedPages`. -/
private theorem initUsedPages_runs {store : Store α} {left : Nat} {i : Int} (sound : store.Sound)
    (isStore : mgr.toStore = store.scanned i) (balanced : mgr.Balanced 0) (mappable : mgr.Mappable)
    (low : 0 ≤ i) (rest : i + left = store.header.nPages) :
    Runs (initUsedPages left i) mgr fun _ after => mgr.Becomes after store 0 := by
  induction left generalizing mgr i with
  | zero =>
      have done : i = store.header.nPages := by simpa using rest
      rw [done, sound.scanned_all] at isStore
      exact (runs_pure ..).mpr ⟨balanced, isStore, rfl, le_refl _⟩
  | succ left ih =>
      have more : i < store.header.nPages := by
        push_cast at rest
        omega
      rw [initUsedPages, runs_bind]
      refine (initUsedPage_runs sound isStore balanced mappable low more).mono ?_
      intro _ middle becomes
      have again : middle.Mappable := by
        refine ⟨becomes.isOpen.trans mappable.isOpen, ?_, ?_⟩
        · have within := mappable.within
          rw [isStore] at within
          rw [becomes.store]
          exact within
        · have small := mappable.small
          rw [isStore] at small
          rw [becomes.store]
          exact small
      refine (ih becomes.store becomes.balanced again (Int.le_add_one low) ?_).mono ?_
      · push_cast at rest
        omega
      · intro _ after finished
        exact becomes.trans finished

theorem openTable_runs {store : Store α} (sound : store.Sound) (small : store.header.size ≤ intMax)
    (isStore : mgr.toStore = store.setDeletePages ∅) (balanced : mgr.Balanced 0) :
    Runs openTable mgr fun _ after => after.Healthy ∧ after.Balanced 0 ∧ after.toStore = store ∧
      mgr.brk ≤ after.brk := by
  let opened : Manager α := { mgr with isOpen := true }
  have isScanned : opened.toStore = store.scanned 0 := isStore.trans sound.scanned_zero.symm
  have header : opened.header = store.header := by
    rw [isScanned]
    rfl
  have fileSize : opened.fileSize = store.fileSize := by
    rw [isScanned]
    rfl
  have mappable : opened.Mappable := by
    refine ⟨rfl, ?_, ?_⟩
    · rw [header, fileSize, sound.resized, sound.sized]
    · rw [fileSize, sound.resized]
      exact small
  have reopened : opened.Balanced 0 := balanced.reopen mgr.toStore (le_refl _) true
  have pages : 0 + (opened.header.nPages.toNat : Int) = store.header.nPages := by
    rw [header, Int.toNat_of_nonneg sound.counted, zero_add]
  have loop := initUsedPages_runs sound isScanned reopened mappable (le_refl 0) pages
  simp only [openTable, runs_bind, runs_modify]
  rw [runs_openManager (show opened.isOpen = true from rfl)]
  refine loop.mono fun _ after becomes => ?_
  exact ⟨becomes.healthy rfl sound small, becomes.balanced, becomes.store, becomes.brk⟩

/-- `Close` and `Open` while no handle is out. -/
theorem reopen_runs (balanced : mgr.Balanced 0) (healthy : mgr.Healthy) :
    Runs (do close; openTable) mgr fun _ after =>
      after.Healthy ∧ mgr.Becomes after mgr.toStore 0 := by
  rw [runs_bind]
  refine (close_runs balanced).mono fun _ closed ⟨_, stillBalanced, brk, isStore⟩ => ?_
  refine (openTable_runs healthy.sound healthy.small isStore stillBalanced).mono ?_
  rintro _ after ⟨again, balancedAgain, store, brkAgain⟩
  exact ⟨again, balancedAgain, store, again.isOpen.trans healthy.isOpen.symm, brk.trans brkAgain⟩

end PersistentBTree.Pages
