import Mathlib.Data.Multiset.Count
import PersistentBTree.Pages.Manager

/-! The manager keeps one mapping for every page that some handle refers to, counts
the handles that are out, and does to the files what the operations of the store
say. -/

set_option autoImplicit false

namespace PersistentBTree.Pages

open Imperative

variable {α : Type} {mgr : Manager α} {ptr : Address} {n : Int}

/-! ## Single steps -/

@[simp] theorem runs_getMapping (post : Mapping → Manager α → Prop) :
    Runs (getMapping ptr) mgr post ↔
      ∃ mapping, mgr.mappings ptr = some mapping ∧ post mapping mgr := by
  simp [getMapping]

@[simp] theorem runs_setMapping (mapping : Mapping) (post : Unit → Manager α → Prop) :
    Runs (setMapping ptr mapping) mgr post ↔ post () (mgr.setMapping ptr (some mapping)) := by
  simp [setMapping]

theorem runs_addRef {mapping : Mapping} (found : mgr.mappings ptr = some mapping)
    (post : Unit → Manager α → Prop) :
    Runs (addRef (some ptr)) mgr post ↔
      post () (mgr.setMapping ptr (some { mapping with count := mapping.count + 1 })) := by
  simp [addRef, found]

theorem runs_release {mapping : Mapping} (found : mgr.mappings ptr = some mapping)
    (post : Int → Manager α → Prop) :
    Runs (release ptr) mgr post ↔ post (mapping.count - 1)
      (mgr.setMapping ptr (some { mapping with count := mapping.count - 1 })) := by
  simp [release, found]

theorem runs_readPage {mapping : Mapping} (found : mgr.mappings ptr = some mapping)
    (post : Page α → Manager α → Prop) :
    Runs (readPage (some ptr)) mgr post ↔ post (mgr.file mapping.page) mgr := by
  simp [readPage, found]

theorem runs_modifyPage {mapping : Mapping} (found : mgr.mappings ptr = some mapping)
    (change : Page α → Page α) (post : Unit → Manager α → Prop) :
    Runs (modifyPage (some ptr) change) mgr post ↔
      post () (mgr.setStore (mgr.setPage mapping.page change)) := by
  simp [modifyPage, found]

theorem runs_openManager (isOpen : mgr.isOpen = true) (post : Manager α → Manager α → Prop) :
    Runs openManager mgr post ↔ post mgr mgr := by
  simp [openManager, isOpen]

namespace Manager

@[simp] theorem mappings_setMapping_self (mgr : Manager α) (ptr : Address)
    (mapping : Option Mapping) : (mgr.setMapping ptr mapping).mappings ptr = mapping :=
  Function.update_self ..

theorem mappings_setMapping_of_ne (mgr : Manager α) {ptr other : Address}
    (mapping : Option Mapping) (apart : other ≠ ptr) :
    (mgr.setMapping ptr mapping).mappings other = mgr.mappings other :=
  Function.update_of_ne apart ..

@[simp] theorem setMapping_setMapping (mgr : Manager α) (ptr : Address)
    (first second : Option Mapping) :
    (mgr.setMapping ptr first).setMapping ptr second = mgr.setMapping ptr second := by
  simp [setMapping]

theorem discard_setMapping (mgr : Manager α) (ptr : Address) (mapping : Option Mapping) :
    (mgr.setMapping ptr mapping).discard ptr = mgr.discard ptr := by
  simp [discard, setMapping]

end Manager

/-! ## Balance -/

/-- A handle that is out: its mapping and the page. -/
abbrev Reference := Address × Int

/-- The handles `out` are those that some variable holds. Exactly their mappings
are there, each one counts its handles and is in the cache under its page, and the
others were destroyed once. -/
structure Manager.Balanced (mgr : Manager α) (out : Multiset Reference) : Prop where
  mapped : ∀ ptr mapping, mgr.mappings ptr = some mapping ↔
    (ptr, mapping.page) ∈ out ∧ mapping.count = out.count (ptr, mapping.page)
  cached : ∀ n handle, mgr.cache.lookup n = some handle ↔
    ∃ ptr, handle = some ptr ∧ (ptr, n) ∈ out
  ranged : ∀ ptr n, (ptr, n) ∈ out → 0 ≤ n ∧ n < mgr.header.nPages
  destroyed : ∀ ptr, ptr ∈ mgr.unmapped ↔ ptr < mgr.brk ∧ mgr.mappings ptr = none
  once : mgr.unmapped.Nodup
  unused : ∀ ptr, mgr.brk ≤ ptr → mgr.mappings ptr = none

/-- A part of the program that leaves these files and the handles `out`. -/
structure Manager.Becomes (before after : Manager α) (store : Store α) (out : Multiset Reference) :
    Prop where
  balanced : after.Balanced out
  store : after.toStore = store
  isOpen : after.isOpen = before.isOpen
  brk : before.brk ≤ after.brk

namespace Manager

namespace Balanced

variable {out : Multiset Reference}

theorem mapping (balanced : mgr.Balanced out) (held : (ptr, n) ∈ out) :
    mgr.mappings ptr = some ⟨n, out.count (ptr, n)⟩ :=
  (balanced.mapped ptr _).mpr ⟨held, rfl⟩

theorem lookup (balanced : mgr.Balanced out) (held : (ptr, n) ∈ out) :
    mgr.cache.lookup n = some (some ptr) :=
  (balanced.cached n _).mpr ⟨ptr, rfl, held⟩

theorem page_unique (balanced : mgr.Balanced out) {other : Int} (held : (ptr, n) ∈ out)
    (also : (ptr, other) ∈ out) : other = n := by
  have first := balanced.mapping held
  rw [balanced.mapping also] at first
  exact congrArg Mapping.page (Option.some.inj first)

theorem ptr_unique (balanced : mgr.Balanced out) {other : Address} (held : (ptr, n) ∈ out)
    (also : (other, n) ∈ out) : other = ptr := by
  have first := balanced.lookup held
  rw [balanced.lookup also] at first
  exact Option.some.inj (Option.some.inj first)

theorem lt_brk (balanced : mgr.Balanced out) (held : (ptr, n) ∈ out) : ptr < mgr.brk := by
  by_contra atLeast
  have free := balanced.unused ptr (Nat.le_of_not_lt atLeast)
  rw [balanced.mapping held] at free
  cases free

/-- Another number of handles to a mapping that stays. -/
theorem recount (balanced : mgr.Balanced out) {more : Multiset Reference}
    (held : (ptr, n) ∈ out) (still : (ptr, n) ∈ more)
    (same : ∀ reference, reference ≠ (ptr, n) → more.count reference = out.count reference) :
    (mgr.setMapping ptr (some ⟨n, more.count (ptr, n)⟩)).Balanced more := by
  have members : ∀ reference, reference ∈ more ↔ reference ∈ out := by
    intro reference
    by_cases this : reference = (ptr, n)
    · subst this
      exact iff_of_true still held
    · rw [← Multiset.count_pos, ← Multiset.count_pos, same reference this]
  constructor
  · intro other mapping
    by_cases this : other = ptr
    · subst this
      simp only [mappings_setMapping_self, Option.some.injEq]
      constructor
      · rintro rfl
        exact ⟨still, rfl⟩
      · rintro ⟨member, count⟩
        have page := balanced.page_unique held ((members _).mp member)
        cases mapping with
        | mk page' count' =>
            dsimp only at page count
            subst page
            rw [count]
    · rw [mappings_setMapping_of_ne _ _ this, balanced.mapped, members,
        same _ fun pair => this (congrArg Prod.fst pair)]
  · intro page handle
    simp only [setMapping, members]
    exact balanced.cached page handle
  · intro other page member
    exact balanced.ranged other page ((members _).mp member)
  · intro other
    by_cases this : other = ptr
    · subst this
      have absent : other ∉ mgr.unmapped := by
        rw [balanced.destroyed, balanced.mapping held]
        simp
      simp [setMapping, absent]
    · rw [mappings_setMapping_of_ne _ _ this]
      exact balanced.destroyed other
  · exact balanced.once
  · intro other high
    have low := balanced.lt_brk held
    rw [mappings_setMapping_of_ne _ _ (by rintro rfl; exact absurd low (Nat.not_lt.mpr high))]
    exact balanced.unused other high

/-- A mapping whose last handle goes, once it is out of the cache. -/
theorem destroy_last (balanced : mgr.Balanced ((ptr, n) ::ₘ out)) (last : (ptr, n) ∉ out) :
    ((mgr.uncache n).discard ptr).Balanced out := by
  have held : (ptr, n) ∈ (ptr, n) ::ₘ out := Multiset.mem_cons_self ..
  have absent : ∀ page, (ptr, page) ∉ out := by
    intro page member
    cases balanced.page_unique held (Multiset.mem_cons_of_mem member)
    exact last member
  have gone : ((mgr.uncache n).discard ptr).mappings ptr = none := mappings_setMapping_self ..
  have others : ∀ other, other ≠ ptr →
      ((mgr.uncache n).discard ptr).mappings other = mgr.mappings other :=
    fun other apart => mappings_setMapping_of_ne _ _ apart
  have cache : ((mgr.uncache n).discard ptr).cache = mgr.cache.erase n := rfl
  have unmapped : ((mgr.uncache n).discard ptr).unmapped = ptr :: mgr.unmapped := rfl
  have live : ptr ∉ mgr.unmapped := by
    rw [balanced.destroyed, balanced.mapping held]
    simp
  constructor
  · intro other mapping
    by_cases this : other = ptr
    · subst this
      simp [gone, absent]
    · have before := balanced.mapped other mapping
      have apart : (other, mapping.page) ≠ (ptr, n) := fun pair => this (congrArg Prod.fst pair)
      rw [Multiset.mem_cons, Multiset.count_cons_of_ne apart, or_iff_right apart] at before
      rw [others other this, before]
  · intro page handle
    rw [cache]
    by_cases this : page = n
    · subst this
      rw [AList.lookup_erase]
      constructor
      · intro found
        cases found
      · rintro ⟨other, rfl, member⟩
        cases balanced.ptr_unique held (Multiset.mem_cons_of_mem member)
        exact absurd member last
    · have before := balanced.cached page handle
      simp only [Multiset.mem_cons, Prod.mk.injEq, this, and_false, false_or] at before
      rw [AList.lookup_erase_ne this]
      exact before
  · intro other page member
    exact balanced.ranged other page (Multiset.mem_cons_of_mem member)
  · intro other
    rw [unmapped, List.mem_cons]
    by_cases this : other = ptr
    · subst this
      exact iff_of_true (.inl rfl) ⟨balanced.lt_brk held, gone⟩
    · rw [others other this, or_iff_right this]
      exact balanced.destroyed other
  · exact List.nodup_cons.mpr ⟨live, balanced.once⟩
  · intro other high
    have low := balanced.lt_brk held
    rw [others other (by rintro rfl; exact absurd low (Nat.not_lt.mpr high))]
    exact balanced.unused other high

/-- A page that was not mapped gets a mapping with one handle. -/
theorem create (balanced : mgr.Balanced out) (absent : mgr.cache.lookup n = none)
    (low : 0 ≤ n) (high : n < mgr.header.nPages) :
    (((mgr.place n).setMapping mgr.brk (some ⟨n, 1⟩)).enter n (some mgr.brk)).Balanced
      ((mgr.brk, n) ::ₘ out) := by
  have fresh : ∀ page, (mgr.brk, page) ∉ out := fun page member =>
    absurd (balanced.lt_brk member) (lt_irrefl _)
  have unmapped : ∀ other, (other, n) ∉ out := by
    intro other member
    rw [balanced.lookup member] at absent
    cases absent
  generalize isAfter :
    ((mgr.place n).setMapping mgr.brk (some ⟨n, 1⟩)).enter n (some mgr.brk) = after
  have placed : after.mappings mgr.brk = some ⟨n, 1⟩ := by
    rw [← isAfter]
    exact mappings_setMapping_self ..
  have others : ∀ other, other ≠ mgr.brk → after.mappings other = mgr.mappings other := by
    intro other apart
    rw [← isAfter]
    exact (mappings_setMapping_of_ne _ _ apart).trans (mappings_setMapping_of_ne _ _ apart)
  have cache : after.cache = mgr.cache.insert n (some mgr.brk) := by
    rw [← isAfter]
    rfl
  have kept : after.unmapped = mgr.unmapped ∧ after.brk = mgr.brk + 1 ∧
      after.header = mgr.header := by
    rw [← isAfter]
    exact ⟨rfl, rfl, rfl⟩
  constructor
  · intro other mapping
    by_cases this : other = mgr.brk
    · subst this
      obtain ⟨page, count⟩ := mapping
      by_cases same : page = n
      · subst same
        simp [placed, Multiset.count_eq_zero_of_notMem (fresh page), eq_comm]
      · simp [placed, fresh, same, Ne.symm same]
    · have apart : (other, mapping.page) ≠ (mgr.brk, n) := fun pair => this (congrArg Prod.fst pair)
      rw [others other this, Multiset.mem_cons, Multiset.count_cons_of_ne apart,
        or_iff_right apart, ← balanced.mapped]
  · intro page handle
    rw [cache]
    by_cases this : page = n
    · subst this
      simp only [AList.lookup_insert, Option.some.injEq, Multiset.mem_cons, Prod.mk.injEq, and_true]
      constructor
      · rintro rfl
        exact ⟨mgr.brk, rfl, .inl rfl⟩
      · rintro ⟨other, rfl, rfl | member⟩
        · rfl
        · exact absurd member (unmapped other)
    · simp only [AList.lookup_insert_ne this, Multiset.mem_cons, Prod.mk.injEq, this, and_false,
        false_or]
      exact balanced.cached page handle
  · intro other page member
    rw [kept.2.2]
    rcases Multiset.mem_cons.mp member with isNew | old
    · cases isNew
      exact ⟨low, high⟩
    · exact balanced.ranged other page old
  · intro other
    rw [kept.1, kept.2.1]
    by_cases this : other = mgr.brk
    · subst this
      have notYet : mgr.brk ∉ mgr.unmapped := by
        rw [balanced.destroyed]
        exact fun below => lt_irrefl _ below.1
      simp [placed, notYet]
    · have below : other < mgr.brk + 1 ↔ other < mgr.brk :=
        ⟨fun le => lt_of_le_of_ne (Nat.lt_succ_iff.mp le) this, fun lt => Nat.lt_succ_of_lt lt⟩
      rw [others other this, balanced.destroyed, below]
  · rw [kept.1]
    exact balanced.once
  · intro other atLeast
    rw [kept.2.1] at atLeast
    rw [others other fun same => absurd (same ▸ atLeast) (Nat.not_succ_le_self _)]
    exact balanced.unused other (Nat.le_of_succ_le atLeast)

/-- The files do not matter, as long as no mapped page goes, nor whether the manager
is open. -/
theorem reopen (balanced : mgr.Balanced out) (store : Store α)
    (kept : mgr.header.nPages ≤ store.header.nPages) (isOpen : Bool) :
    ({ mgr.setStore store with isOpen := isOpen } : Manager α).Balanced out where
  mapped := balanced.mapped
  cached := balanced.cached
  ranged ptr n member := by
    have within := balanced.ranged ptr n member
    exact ⟨within.1, within.2.trans_le kept⟩
  destroyed := balanced.destroyed
  once := balanced.once
  unused := balanced.unused

theorem setStore (balanced : mgr.Balanced out) {store : Store α}
    (kept : mgr.header.nPages ≤ store.header.nPages) : (mgr.setStore store).Balanced out :=
  balanced.reopen store kept mgr.isOpen

end Balanced

end Manager

/-! ## Handles -/

section Handles

open Manager

variable {out : Multiset Reference}

theorem addRef_runs (balanced : mgr.Balanced out) (held : (ptr, n) ∈ out) :
    Runs (addRef (some ptr)) mgr fun _ after => mgr.Becomes after mgr.toStore ((ptr, n) ::ₘ out) := by
  rw [runs_addRef (balanced.mapping held)]
  refine ⟨?_, rfl, rfl, le_refl _⟩
  have counted := balanced.recount held (Multiset.mem_cons_self (ptr, n) out)
    fun reference apart => Multiset.count_cons_of_ne apart out
  rwa [Multiset.count_cons_self, Nat.cast_succ] at counted

private theorem destroy_one (balanced : mgr.Balanced ((ptr, n) ::ₘ out)) (others : (ptr, n) ∈ out) :
    Runs (destroy (some ptr)) mgr fun _ after => mgr.Becomes after mgr.toStore out := by
  have held : (ptr, n) ∈ (ptr, n) ::ₘ out := Multiset.mem_cons_self ..
  have count := Multiset.count_cons_self (ptr, n) out
  have positive : 0 < out.count (ptr, n) := Multiset.count_pos.mpr others
  simp only [destroy, runs_bind, runs_get, destroyWith,
    runs_release (balanced.mapping held), count]
  rw [if_neg (by push_cast; omega), runs_pure]
  refine ⟨?_, rfl, rfl, le_refl _⟩
  have counted := balanced.recount held others
    fun reference apart => (Multiset.count_cons_of_ne apart out).symm
  rwa [Nat.cast_succ, add_sub_cancel_right]

/-- The last handle goes: its mapping is destroyed. The entry of the cache, whose
count was taken back, does not destroy it again. -/
private theorem destroy_only (balanced : mgr.Balanced ((ptr, n) ::ₘ out)) (last : (ptr, n) ∉ out)
    (identified : (mgr.file n).id = n) :
    Runs (destroy (some ptr)) mgr fun _ after => mgr.Becomes after mgr.toStore out := by
  have held : (ptr, n) ∈ (ptr, n) ::ₘ out := Multiset.mem_cons_self ..
  have count : ((ptr, n) ::ₘ out).count (ptr, n) = 1 := by
    rw [Multiset.count_cons_self, Multiset.count_eq_zero_of_notMem last]
  have entry := balanced.lookup held
  obtain ⟨deeper, fuel⟩ : ∃ deeper, mgr.cache.entries.length = deeper + 1 := by
    refine Nat.exists_eq_succ_of_ne_zero fun empty => ?_
    have found := AList.mem_lookup_iff.mp entry
    rw [List.eq_nil_of_length_eq_zero empty] at found
    cases found
  simp only [destroy, runs_bind, runs_get, fuel, destroyWith,
    runs_release (balanced.mapping held), count]
  rw [if_pos (by decide)]
  have erased : Runs (deleteFromCache (destroyWith (deeper + 1)) n)
      (mgr.setMapping ptr (some ⟨n, 0⟩)) fun _ after =>
        after = (mgr.uncache n).setMapping ptr (some ⟨n, -1⟩) := by
    have uncached : ((mgr.setMapping ptr (some ⟨n, 0⟩)).uncache n).mappings ptr = some ⟨n, 0⟩ :=
      mappings_setMapping_self ..
    have cached : (mgr.setMapping ptr (some ⟨n, 0⟩)).cache.lookup n = some (some ptr) := entry
    simp only [deleteFromCache, runs_bind, runs_get, cached, runs_set, destroyWith]
    refine (runs_release uncached _).mpr ?_
    rw [if_neg (show ¬ (0 : Int) - 1 = 0 by decide), runs_pure]
    exact setMapping_setMapping (mgr.uncache n) ptr ..
  have mapped : (mgr.setMapping ptr (some ⟨n, 0⟩)).mappings ptr = some ⟨n, 0⟩ :=
    mappings_setMapping_self ..
  have read : (mgr.setMapping ptr (some ⟨n, 0⟩)).file n = mgr.file n := rfl
  have destroyed : Runs (deleteImpl (destroyWith (deeper + 1)) ptr)
      (mgr.setMapping ptr (some ⟨n, 0⟩)) fun _ after => mgr.Becomes after mgr.toStore out := by
    simp only [deleteImpl, runs_bind, runs_readPage mapped, read, identified]
    refine erased.mono fun _ after same => ?_
    subst same
    rw [unmap, runs_modify]
    refine ⟨?_, rfl, rfl, le_refl _⟩
    rw [discard_setMapping]
    exact balanced.destroy_last last
  exact destroyed

/-- `~MemoryNode`, for a handle that is out. -/
theorem destroy_runs (balanced : mgr.Balanced ((ptr, n) ::ₘ out))
    (identified : (ptr, n) ∉ out → (mgr.file n).id = n) :
    Runs (destroy (some ptr)) mgr fun _ after => mgr.Becomes after mgr.toStore out := by
  by_cases last : (ptr, n) ∈ out
  · exact destroy_one balanced last
  · exact destroy_only balanced last (identified last)

theorem destroy_null (mgr : Manager α) (post : Unit → Manager α → Prop) :
    Runs (destroy none) mgr post ↔ post () mgr := by
  simp [destroy, destroyWith]

/-- `operator=` to a handle that is null. -/
theorem assign_runs (balanced : mgr.Balanced out) (held : (ptr, n) ∈ out) :
    Runs (assign none (some ptr)) mgr fun handle after =>
      handle = some ptr ∧ mgr.Becomes after mgr.toStore ((ptr, n) ::ₘ out) := by
  simp only [assign, runs_bind, destroy_null, runs_pure, true_and]
  exact addRef_runs balanced held

/-! ## Mapping pages -/

/-- The pages of the file can all be mapped. -/
structure Manager.Mappable (mgr : Manager α) : Prop where
  isOpen : mgr.isOpen = true
  within : mgr.header.nPages * pageSize ≤ mgr.fileSize
  small : mgr.fileSize ≤ intMax

/-- The handle is null, or it is one more handle of page `n`. -/
def Manager.Obtained (before after : Manager α) (out : Multiset Reference) (n : Int)
    (handle : Handle) : Prop :=
  if before.Allocated n then
    ∃ ptr, handle = some ptr ∧ before.Becomes after before.toStore ((ptr, n) ::ₘ out)
  else handle = none ∧ after = before

private theorem mapPage_runs (mappable : mgr.Mappable)
    (high : n < mgr.header.nPages) :
    Runs (mapPage n) mgr fun ptr after => ptr = mgr.brk ∧ after = mgr.place n := by
  have within := mappable.within
  have small := mappable.small
  have next : (n + 1) * (pageSize : Int) ≤ mgr.header.nPages * pageSize :=
    Int.mul_le_mul_of_nonneg_right high (Int.natCast_nonneg _)
  have some_ : (0 : Int) ≤ pageSize := Int.natCast_nonneg _
  have inInt : ¬ intMax < n * pageSize := by
    rw [add_mul] at next
    omega
  have inFile : ¬ mgr.fileSize < (n + 1) * pageSize := by omega
  simp only [mapPage, runs_bind, runs_get, inInt, inFile, ↓reduceIte, runs_pure, runs_set, and_self]

/-- The page has no mapping yet. Two temporary handles come and go, and the count
of the cache's handle is taken back. -/
private theorem getMemoryPage_new (mappable : mgr.Mappable) (allocated : mgr.Allocated n)
    (absent : mgr.cache.lookup n = none) :
    Runs (getMemoryPage n) mgr fun handle after => handle = some mgr.brk ∧
      after = ((mgr.place n).setMapping mgr.brk (some ⟨n, 1⟩)).enter n (some mgr.brk) := by
  obtain ⟨low, high, isIn⟩ := allocated
  have counting : ∀ count : Int,
      ((mgr.place n).setMapping mgr.brk (some ⟨n, count⟩)).mappings mgr.brk = some ⟨n, count⟩ :=
    fun count => Manager.mappings_setMapping_self ..
  have placed : (mgr.place n).mappings mgr.brk = some ⟨n, 0⟩ := Manager.mappings_setMapping_self ..
  have released : Runs (destroy (some mgr.brk))
      ((mgr.place n).setMapping mgr.brk (some ⟨n, 2⟩)) fun _ after =>
        after = (mgr.place n).setMapping mgr.brk (some ⟨n, 1⟩) := by
    simp only [destroy, runs_bind, runs_get, destroyWith, runs_release (counting 2)]
    rw [if_neg (show ¬ (2 : Int) - 1 = 0 by decide), runs_pure, Manager.setMapping_setMapping]
    rfl
  have constructed : Runs (constructNode n) mgr fun handle after =>
      handle = some mgr.brk ∧ after = (mgr.place n).setMapping mgr.brk (some ⟨n, 1⟩) := by
    simp only [constructNode, runs_bind]
    refine (mapPage_runs mappable high).mono ?_
    rintro ptr after ⟨rfl, rfl⟩
    exact (runs_addRef placed _).mpr ((runs_pure ..).mpr ⟨rfl, rfl⟩)
  have assigned : Runs (assign none (some mgr.brk))
      ((mgr.place n).setMapping mgr.brk (some ⟨n, 1⟩)) fun handle after =>
        handle = some mgr.brk ∧ after = (mgr.place n).setMapping mgr.brk (some ⟨n, 2⟩) := by
    simp only [assign, runs_bind, destroy_null, runs_addRef (counting 1), runs_pure, true_and,
      Manager.setMapping_setMapping]
    rfl
  rw [getMemoryPage, if_neg (not_lt.mpr low)]
  simp only [runs_bind, runs_pure, runs_openManager mappable.isOpen, high, isIn, not_false_eq_true,
    and_self, not_true_eq_false, ↓reduceIte, absent]
  refine constructed.mono ?_
  rintro temporary _ ⟨rfl, rfl⟩
  refine assigned.mono ?_
  rintro nd _ ⟨rfl, rfl⟩
  refine released.mono ?_
  rintro _ _ rfl
  refine assigned.mono ?_
  rintro entry _ ⟨rfl, rfl⟩
  refine (runs_modify ..).mpr ((runs_orFault ..).mpr ⟨mgr.brk, rfl, ?_⟩)
  have entered : (((mgr.place n).setMapping mgr.brk (some ⟨n, 2⟩)).enter n
      (some mgr.brk)).mappings mgr.brk = some ⟨n, 2⟩ := counting 2
  rw [runs_release entered]
  refine ⟨rfl, ?_⟩
  exact congrArg (Manager.enter · n (some mgr.brk)) (Manager.setMapping_setMapping ..)

theorem getMemoryPage_runs (balanced : mgr.Balanced out) (mappable : mgr.Mappable) (n : Int) :
    Runs (getMemoryPage n) mgr fun handle after => mgr.Obtained after out n handle := by
  unfold Manager.Obtained
  split
  next allocated =>
    cases found : mgr.cache.lookup n with
    | none =>
        refine (getMemoryPage_new mappable allocated found).mono ?_
        rintro handle _ ⟨rfl, rfl⟩
        refine ⟨mgr.brk, rfl, ?_, rfl, rfl, Nat.le_succ _⟩
        exact balanced.create found allocated.1 allocated.2.1
    | some entry =>
        obtain ⟨ptr, rfl, held⟩ := (balanced.cached n entry).mp found
        obtain ⟨low, high, isIn⟩ := allocated
        rw [getMemoryPage, if_neg (not_lt.mpr low)]
        simp only [runs_bind, runs_openManager mappable.isOpen, high, isIn, not_false_eq_true,
          and_self, not_true_eq_false, ↓reduceIte, found]
        refine (assign_runs balanced held).mono ?_
        rintro handle after ⟨rfl, becomes⟩
        exact ⟨ptr, rfl, becomes⟩
  next missing =>
    by_cases low : n < 0
    · rw [getMemoryPage, if_pos low]
      exact (runs_pure ..).mpr ⟨rfl, rfl⟩
    · rw [getMemoryPage, if_neg low]
      have outside : ¬ (n < mgr.header.nPages ∧ n ∉ mgr.deletePages) := by
        intro inside
        exact missing ⟨not_lt.mp low, inside⟩
      simp only [runs_bind, runs_pure, runs_openManager mappable.isOpen, outside,
        not_false_eq_true, ↓reduceIte, and_self]

end Handles

end PersistentBTree.Pages
