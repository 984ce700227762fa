import PersistentBTree.Pages.ClientProperties
import PersistentBTree.Pages.Volume

/-! Every request does to the mappings, the counts, the cache and the files what it
does to the pages that the variables hold. -/

set_option autoImplicit false

namespace PersistentBTree.Pages

open Imperative

variable {α : Type} {store : Store α} {held : List (Option Int)}

/-! ## Pages -/

theorem Volume.lowest_eq {volume : Volume α} {n : Int} (low : 0 ≤ n) (free : n ∉ volume.inUse)
    (least : ∀ other, 0 ≤ other → other < n → other ∈ volume.inUse) : volume.lowest = n := by
  obtain ⟨number, rfl⟩ := Int.eq_ofNat_of_zero_le low
  have found : Nat.find (exists_notMem_natCast volume.inUse) = number := by
    rw [Nat.find_eq_iff]
    refine ⟨free, fun other below outside => ?_⟩
    exact outside (least other (Int.natCast_nonneg other) (by exact_mod_cast below))
  rw [Volume.lowest, found]

namespace Store

@[simp] theorem mem_numbers {n : Int} : n ∈ store.numbers ↔ 0 ≤ n ∧ n < store.header.nPages := by
  simp only [numbers, Finset.mem_image, Finset.mem_range]
  constructor
  · rintro ⟨number, below, rfl⟩
    exact ⟨Int.natCast_nonneg number, Int.lt_toNat.mp below⟩
  · rintro ⟨low, high⟩
    exact ⟨n.toNat, by omega, Int.toNat_of_nonneg low⟩

theorem card_numbers (store : Store α) : store.numbers.card = store.header.nPages.toNat := by
  rw [numbers, Finset.card_image_of_injective _ fun _ _ same => Int.ofNat.inj same,
    Finset.card_range]

@[simp] theorem mem_inUse {n : Int} : n ∈ (store.volume held).inUse ↔ store.Allocated n := by
  simp [volume, Allocated, and_assoc]

theorem Sound.lowest_volume (sound : store.Sound) :
    (store.volume held).lowest = store.allocate.1 := by
  have free : store.allocate.1 ∉ (store.volume held).inUse := by
    rw [mem_inUse]
    exact fresh_allocate
  unfold Store.allocate at free ⊢
  cases found : store.lowest with
  | none =>
      rw [found] at free
      have nothing := lowest_eq_none.mp found
      apply Volume.lowest_eq sound.counted free
      intro other low below
      rw [mem_inUse]
      exact ⟨low, below, by simp [nothing]⟩
  | some n =>
      rw [found] at free
      obtain ⟨member, least⟩ := lowest_eq_some found
      obtain ⟨low, high, -⟩ := (sound.deleted n).mp member
      apply Volume.lowest_eq low free
      intro other otherLow below
      rw [mem_inUse]
      exact ⟨otherLow, below.trans high, fun deleted => absurd below (not_lt.mpr (least other deleted))⟩

theorem volume_getMemoryPage (store : Store α) (held : List (Option Int)) (n : Int) :
    store.volume ((if store.Allocated n then some n else none) :: held) =
      (store.volume held).perform (.getMemoryPage n) := by
  have same : n ∈ (store.volume held).inUse ↔ store.Allocated n := mem_inUse
  simp only [Volume.perform, same]
  rfl

theorem Sound.volume_allocate (sound : store.Sound) :
    store.allocate.2.volume (some store.allocate.1 :: held) =
      (store.volume held).perform .insertPage := by
  rw [Volume.perform, sound.lowest_volume]
  ext n
  · rw [mem_inUse, allocated_allocate sound, Finset.mem_insert, mem_inUse, or_comm]
  · exact congrFun (funext fun n => content_allocate) n
  · rfl

theorem volume_free {n : Int} (low : 0 ≤ n) :
    (store.free n).volume held = (store.volume held).perform (.deletePage n) := by
  have content : ∀ other, ((store.free n).file other).content = (store.file other).content := by
    intro other
    by_cases same : other = n
    · subst same
      unfold free
      split <;> simp
    · rw [file_free_of_ne _ same]
  ext other
  · rw [mem_inUse, allocated_free low]
    simp [Volume.perform, and_comm]
  · exact content other
  · rfl

theorem volume_setContent (store : Store α) {n : Int} (index : Nat) (isHeld : held.getD index none = some n)
    (content : α) :
    (store.setPage n fun page => { page with content }).volume held =
      (store.volume held).perform (.write index content) := by
  have found : (store.volume held).held.getD index none = some n := isHeld
  simp only [Volume.perform, found]
  ext other
  · rfl
  · by_cases same : other = n
    · subst same
      simp [volume]
    · simp [volume, setPage_of_ne _ _ same, same]
  · rfl

/-- No more pages are in use than the file has. -/
theorem Sound.card_inUse_le (sound : store.Sound) :
    ((store.volume held).inUse.card : Int) ≤ store.header.nPages := by
  have counted := sound.counted
  have within : (store.volume held).inUse.card ≤ store.numbers.card :=
    Finset.card_le_card Finset.sdiff_subset
  rw [card_numbers] at within
  omega

/-- The file grows only when all its pages are in use. -/
theorem Sound.nPages_allocate (sound : store.Sound) :
    store.allocate.2.header.nPages =
      max store.header.nPages (store.allocate.2.volume held).inUse.card := by
  have most : ((store.allocate.2.volume held).inUse.card : Int) ≤ store.allocate.2.header.nPages :=
    sound.allocate.card_inUse_le
  have counted := sound.counted
  cases found : store.lowest with
  | none =>
      have nothing := lowest_eq_none.mp found
      have appended : store.allocate = (store.header.nPages, store.append) := by
        simp [Store.allocate, found]
      have all : (store.append.volume held).inUse = store.append.numbers := by
        simp [Store.volume, Store.append, Store.grown, Header.addPage, nothing]
      rw [appended, all, card_numbers]
      simp only [Store.append, Store.grown, Header.addPage, setPage_header]
      omega
  | some n =>
      have reused : store.allocate = (n, store.reuse n) := by simp [Store.allocate, found]
      rw [reused] at most ⊢
      have same : (store.reuse n).header = store.header := rfl
      rw [same] at most ⊢
      omega

end Store

/-! ## Handles -/

/-- The handles are those of these references, and there are no others. -/
structure Client.Tracks (client : Client α) (references : List (Option Reference)) : Prop where
  healthy : client.manager.Healthy
  handles : client.handles = references.map (Option.map Prod.fst)
  balanced : client.manager.Balanced references.reduceOption

/-- The pages that the handles refer to. -/
def pagesOf (references : List (Option Reference)) : List (Option Int) :=
  references.map (Option.map Prod.snd)

namespace Client

variable {client : Client α} {references : List (Option Reference)}

theorem Tracks.volume_eq (tracks : client.Tracks references) :
    client.volume = client.manager.toStore.volume (pagesOf references) := by
  have pages : client.handles.map client.manager.pageOf = pagesOf references := by
    rw [tracks.handles, List.map_map, pagesOf]
    apply List.map_congr_left
    intro reference member
    cases reference with
    | none => rfl
    | some reference =>
        have inOut : reference ∈ (references.reduceOption : Multiset Reference) :=
          Multiset.mem_coe.mpr (List.reduceOption_mem_iff.mpr member)
        exact tracks.balanced.pageOf_iff.mpr inOut
  rw [volume, pages]

/-- The request does to the pages what it does to the volume, and the file has as many
pages as were in use at a time. -/
structure Performs (before : Client α) (request : Request α) (handles : List Handle)
    (after : Manager α) : Prop where
  tracks : ∃ references, (Client.mk after handles).Tracks references
  volume : (Client.mk after handles).volume = before.volume.perform request
  nPages : after.header.nPages =
    max before.manager.header.nPages (Client.mk after handles).volume.inUse.card

/-- What is left to show of a request: its references and its store. -/
theorem Tracks.performs {request : Request α} {handles : List Handle} {after : Manager α}
    {store : Store α} {more : List (Option Reference)} (tracks : client.Tracks references)
    (becomes : client.manager.Becomes after store more.reduceOption) (healthy : after.Healthy)
    (isHandles : handles = more.map (Option.map Prod.fst))
    (isVolume : store.volume (pagesOf more) =
      (client.manager.toStore.volume (pagesOf references)).perform request)
    (nPages : store.header.nPages =
      max client.manager.header.nPages (store.volume (pagesOf more)).inUse.card) :
    client.Performs request handles after := by
  have tracksAfter : (Client.mk after handles).Tracks more := ⟨healthy, isHandles, becomes.balanced⟩
  have volume : (Client.mk after handles).volume = store.volume (pagesOf more) := by
    rw [tracksAfter.volume_eq, becomes.store]
  refine ⟨⟨more, tracksAfter⟩, ?_, ?_⟩
  · rw [volume, isVolume, tracks.volume_eq]
  · rw [volume, becomes.store, nPages]

/-- A request that leaves the files as they are. -/
theorem Tracks.performs_same {request : Request α} {handles : List Handle} {after : Manager α}
    {more : List (Option Reference)} (tracks : client.Tracks references)
    (becomes : client.manager.Becomes after client.manager.toStore more.reduceOption)
    (isHandles : handles = more.map (Option.map Prod.fst))
    (isVolume : client.manager.toStore.volume (pagesOf more) =
      (client.manager.toStore.volume (pagesOf references)).perform request) :
    client.Performs request handles after := by
  have healthy := tracks.healthy
  refine tracks.performs becomes
    (becomes.healthy healthy.isOpen healthy.sound healthy.small) isHandles isVolume ?_
  exact (max_eq_left healthy.sound.card_inUse_le).symm

end Client

/-! ## Requests -/

section Requests

variable {client : Client α} {references : List (Option Reference)}

theorem coe_reduceOption_middle (front back : List (Option Reference)) (reference : Reference) :
    ((front ++ some reference :: back).reduceOption : Multiset Reference) =
      reference ::ₘ ((front ++ back).reduceOption : Multiset Reference) := by
  rw [List.reduceOption_append, List.reduceOption_append, List.reduceOption_cons_of_some,
    Multiset.cons_coe]
  exact Multiset.coe_eq_coe.mpr List.perm_middle

private theorem getMemoryPage_performs (tracks : client.Tracks references) (n : Int) :
    Runs ((Request.getMemoryPage n).perform client.handles) client.manager
      (client.Performs (.getMemoryPage n)) := by
  have healthy := tracks.healthy
  have isVolume := client.manager.toStore.volume_getMemoryPage (pagesOf references) n
  simp only [Request.perform, runs_bind, runs_pure]
  apply (getMemoryPage_runs tracks.balanced healthy.mappable n).mono
  intro handle after obtained
  rw [Manager.Obtained] at obtained
  split at obtained
  next allocated =>
    obtain ⟨ptr, rfl, becomes⟩ := obtained
    rw [if_pos allocated] at isVolume
    have more : client.manager.Becomes after client.manager.toStore
        ((some (ptr, n) :: references).reduceOption : List Reference) := by
      rwa [List.reduceOption_cons_of_some, ← Multiset.cons_coe]
    exact tracks.performs_same more (by rw [tracks.handles]; rfl) isVolume
  next missing =>
    obtain ⟨rfl, rfl⟩ := obtained
    rw [if_neg missing] at isVolume
    have same : client.manager.Becomes client.manager client.manager.toStore
        ((none :: references).reduceOption : List Reference) :=
      ⟨tracks.balanced, rfl, rfl, le_refl _⟩
    exact tracks.performs_same same (by rw [tracks.handles]; rfl) isVolume

/-- The reference in a variable that is not null. -/
private theorem Client.Tracks.exists_reference (tracks : client.Tracks references) {index : Nat}
    (notNull : variableAt client.handles index ≠ none) :
    ∃ ptr n, variableAt client.handles index = some ptr ∧ references[index]? = some (some (ptr, n)) ∧
      (pagesOf references).getD index none = some n ∧
      (ptr, n) ∈ (references.reduceOption : Multiset Reference) := by
  rw [tracks.handles, variableAt, List.getD_eq_getElem?_getD, List.getElem?_map] at notNull ⊢
  rw [pagesOf, List.getD_eq_getElem?_getD, List.getElem?_map]
  cases found : references[index]? with
  | none => simp [found] at notNull
  | some reference =>
      cases reference with
      | none => simp [found] at notNull
      | some reference =>
          obtain ⟨ptr, n⟩ := reference
          have member := List.reduceOption_mem_iff.mpr (List.mem_of_getElem? found)
          exact ⟨ptr, n, rfl, rfl, rfl, Multiset.mem_coe.mpr member⟩

private theorem copy_performs (tracks : client.Tracks references) {source : Nat}
    (notNull : variableAt client.handles source ≠ none) :
    Runs ((Request.copy source).perform client.handles) client.manager
      (client.Performs (.copy source)) := by
  obtain ⟨ptr, n, atSource, -, isPage, member⟩ := tracks.exists_reference notNull
  simp only [Request.perform, runs_bind, runs_pure, atSource]
  apply (addRef_runs tracks.balanced member).mono
  intro _ after becomes
  have more : client.manager.Becomes after client.manager.toStore
      ((some (ptr, n) :: references).reduceOption : List Reference) := by
    rwa [List.reduceOption_cons_of_some, ← Multiset.cons_coe]
  refine tracks.performs_same more (by rw [tracks.handles]; rfl) ?_
  simp only [Volume.perform, Store.volume, isPage]
  rfl

private theorem write_performs (tracks : client.Tracks references) {target : Nat} (content : α)
    (notNull : variableAt client.handles target ≠ none) :
    Runs ((Request.write target content).perform client.handles) client.manager
      (client.Performs (.write target content)) := by
  obtain ⟨ptr, n, atTarget, -, isPage, member⟩ := tracks.exists_reference notNull
  have healthy := tracks.healthy
  have sound : (client.manager.setPage n fun page => { page with content }).Sound :=
    healthy.sound.setPage rfl rfl
  simp only [Request.perform, runs_bind, runs_pure, atTarget]
  apply (modifyPage_runs tracks.balanced member _).mono
  intro _ after becomes
  have isVolume := client.manager.toStore.volume_setContent target isPage content
  refine tracks.performs becomes (becomes.healthy healthy.isOpen sound healthy.small)
    tracks.handles isVolume ?_
  exact (max_eq_left sound.card_inUse_le).symm

private theorem insertPage_performs (tracks : client.Tracks references) :
    RunsUnless (client.manager.deletePages = ∅ ∧
        intMax < client.manager.header.size + pageSize)
      (Request.insertPage.perform client.handles) client.manager (client.Performs .insertPage) := by
  apply RunsUnless.bind (insertPage_runs tracks.balanced tracks.healthy)
  rintro handle after ⟨healthy, ptr, rfl, becomes⟩
  have more : client.manager.Becomes after client.manager.allocate.2
      ((some (ptr, client.manager.allocate.1) :: references).reduceOption : List Reference) := by
    rwa [List.reduceOption_cons_of_some, ← Multiset.cons_coe]
  refine .inl ((runs_pure ..).mpr ?_)
  exact tracks.performs more healthy (by rw [tracks.handles]; rfl)
    tracks.healthy.sound.volume_allocate tracks.healthy.sound.nPages_allocate

private theorem deletePage_performs (tracks : client.Tracks references) {n : Int} (low : 0 ≤ n) :
    Runs ((Request.deletePage n).perform client.handles) client.manager
      (client.Performs (.deletePage n)) := by
  have sound := tracks.healthy.sound.free low
  have same : (client.manager.free n).header = client.manager.header := by
    unfold Store.free
    split <;> rfl
  simp only [Request.perform, runs_bind, runs_pure]
  apply (deletePage_runs tracks.balanced tracks.healthy low).mono
  rintro _ after ⟨healthy, becomes⟩
  refine tracks.performs becomes healthy tracks.handles (Store.volume_free low) ?_
  have most : (((client.manager.free n).volume (pagesOf references)).inUse.card : Int) ≤
      (client.manager.free n).header.nPages := sound.card_inUse_le
  rw [same] at most ⊢
  exact (max_eq_left most).symm

private theorem reopen_performs (tracks : client.Tracks references)
    (allNull : ∀ handle ∈ client.handles, handle = none) :
    Runs (Request.reopen.perform client.handles) client.manager (client.Performs .reopen) := by
  have nothing : references.reduceOption = [] := by
    apply List.eq_nil_iff_forall_not_mem.mpr
    intro reference member
    have isHandle : some reference.1 ∈ client.handles := by
      rw [tracks.handles]
      exact List.mem_map_of_mem (List.reduceOption_mem_iff.mp member)
    cases allNull _ isHandle
  have balanced := tracks.balanced
  rw [nothing] at balanced
  have reopens := reopen_runs balanced tracks.healthy
  simp only [Request.perform, runs_bind, runs_pure] at reopens ⊢
  apply reopens.mono
  intro _ closed opens
  apply opens.mono
  rintro _ after ⟨healthy, becomes⟩
  have more : client.manager.Becomes after client.manager.toStore
      (references.reduceOption : List Reference) := by rwa [nothing]
  exact tracks.performs_same more tracks.handles rfl

private theorem exists_reference_at {target : Nat} (bound : target < references.length) :
    ∃ front reference back, references = front ++ reference :: back ∧ front.length = target :=
  ⟨references.take target, references[target], references.drop (target + 1),
    by rw [List.getElem_cons_drop, List.take_append_drop], List.length_take_of_le bound.le⟩

/-- What is left when the handle in a variable is destroyed. -/
private theorem destroy_reference {front back : List (Option Reference)}
    {reference : Option Reference} (tracks : client.Tracks (front ++ reference :: back)) :
    Runs (destroy (reference.map Prod.fst)) client.manager fun _ after =>
      client.manager.Becomes after client.manager.toStore
        ((front ++ back).reduceOption : List Reference) := by
  cases reference with
  | none =>
      have balanced := tracks.balanced
      rw [List.reduceOption_append, List.reduceOption_cons_of_none,
        ← List.reduceOption_append] at balanced
      exact (destroy_null ..).mpr ⟨balanced, rfl, rfl, le_refl _⟩
  | some reference =>
      obtain ⟨ptr, n⟩ := reference
      have balanced := tracks.balanced
      rw [coe_reduceOption_middle] at balanced
      have within := balanced.ranged ptr n (Multiset.mem_cons_self ..)
      have identified := tracks.healthy.sound.identified n within.1 within.2
      exact destroy_runs balanced fun _ => identified

private theorem destroy_performs (tracks : client.Tracks references) {target : Nat}
    (bound : target < client.handles.length) :
    Runs ((Request.destroy target).perform client.handles) client.manager
      (client.Performs (.destroy target)) := by
  rw [tracks.handles, List.length_map] at bound
  obtain ⟨front, reference, back, rfl, rfl⟩ := exists_reference_at bound
  have atTarget : variableAt client.handles front.length = reference.map Prod.fst := by
    simp [variableAt, tracks.handles]
  simp only [Request.perform, runs_bind, runs_pure, atTarget]
  apply (destroy_reference tracks).mono
  intro _ after becomes
  refine tracks.performs_same becomes ?_ ?_
  · simp [tracks.handles, List.eraseIdx_append_of_length_le]
  · simp [Volume.perform, Store.volume, pagesOf, List.eraseIdx_append_of_length_le]

private theorem mem_beside {front back : List (Option Reference)}
    {reference found : Option Reference} {source : Nat} (apart : source ≠ front.length)
    (present : (front ++ reference :: back)[source]? = some found) : found ∈ front ++ back := by
  rcases Nat.lt_or_gt_of_ne apart with before | behind
  · rw [List.getElem?_append_left before] at present
    exact List.mem_append_left _ (List.mem_of_getElem? present)
  · obtain ⟨offset, rfl⟩ := Nat.exists_eq_add_of_lt behind
    rw [List.getElem?_append_right (by omega),
      show front.length + offset + 1 - front.length = offset + 1 by omega,
      List.getElem?_cons_succ] at present
    exact List.mem_append_right _ (List.mem_of_getElem? present)

private theorem assign_performs (tracks : client.Tracks references) {target source : Nat}
    (bound : target < client.handles.length)
    (notNull : variableAt client.handles source ≠ none) :
    Runs ((Request.assign target source).perform client.handles) client.manager
      (client.Performs (.assign target source)) := by
  obtain ⟨ptr, n, atSource, present, isPage, -⟩ := tracks.exists_reference notNull
  rw [tracks.handles, List.length_map] at bound
  rw [Request.perform]
  by_cases same : target = source
  · subst same
    rw [if_pos rfl, runs_pure]
    refine tracks.performs_same ⟨tracks.balanced, rfl, rfl, le_refl _⟩ tracks.handles ?_
    have unchanged : (pagesOf references).set target (some n) = pagesOf references := by
      have atPage : (pagesOf references)[target]? = some (some n) := by
        rw [pagesOf, List.getElem?_map, present]
        rfl
      obtain ⟨inside, isHere⟩ := List.getElem?_eq_some_iff.mp atPage
      rw [← isHere, List.set_getElem_self]
    simp only [Volume.perform, Store.volume, isPage, unchanged]
  · rw [if_neg same, atSource, assign]
    obtain ⟨front, reference, back, rfl, rfl⟩ := exists_reference_at bound
    have among : (ptr, n) ∈ ((front ++ back).reduceOption : Multiset Reference) :=
      Multiset.mem_coe.mpr (List.reduceOption_mem_iff.mpr (mem_beside (Ne.symm same) present))
    have atTarget : variableAt client.handles front.length = reference.map Prod.fst := by
      simp [variableAt, tracks.handles]
    simp only [runs_bind, runs_pure, atTarget]
    apply (destroy_reference tracks).mono
    intro _ middle becomes
    apply (addRef_runs becomes.balanced among).mono
    intro _ after more
    have whole := becomes.trans more
    rw [becomes.store, ← coe_reduceOption_middle] at whole
    refine tracks.performs_same whole ?_ ?_
    · simp [tracks.handles]
    · simp only [Volume.perform, Store.volume, isPage]
      simp [pagesOf]

/-- Every request returns, unless the file would grow too large, and does to the pages
what it does to the volume. -/
theorem Request.performs (tracks : client.Tracks references) (request : Request α)
    (valid : request.Valid client.handles) :
    RunsUnless (request = .insertPage ∧ client.manager.deletePages = ∅ ∧
        intMax < client.manager.header.size + pageSize)
      (request.perform client.handles) client.manager (client.Performs request) := by
  cases request with
  | getMemoryPage n => exact .inl (getMemoryPage_performs tracks n)
  | copy source => exact .inl (copy_performs tracks valid)
  | assign target source => exact .inl (assign_performs tracks valid.1 valid.2)
  | destroy target => exact .inl (destroy_performs tracks valid)
  | insertPage =>
      exact (insertPage_performs tracks).mono (fun full => ⟨rfl, full⟩) fun _ _ performs => performs
  | deletePage n => exact .inl (deletePage_performs tracks valid)
  | write target content => exact .inl (write_performs tracks content valid)
  | reopen => exact .inl (reopen_performs tracks valid)

end Requests

end PersistentBTree.Pages
