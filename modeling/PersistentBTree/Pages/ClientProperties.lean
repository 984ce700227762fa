import Mathlib.Data.List.GetD
import PersistentBTree.Pages.AllocatorProperties
import PersistentBTree.Pages.Client

/-! What every program that uses the page manager may rely on: the allocator hands
out every page once, and the cache counts the handles exactly. -/

set_option autoImplicit false

namespace PersistentBTree.Pages

open Imperative

variable {α : Type} {mgr : Manager α} {handles : List Handle} {out : Multiset Reference}
  {ptr : Address} {n : Int}

/-! ## Handles in variables -/

/-- The references `out` are those of the handles that are held. -/
def Held (handles : List Handle) (out : Multiset Reference) : Prop :=
  out.map Prod.fst = handles.reduceOption

namespace Held

theorem nil : Held [] 0 := rfl

theorem cons (held : Held handles out) (ptr : Address) (n : Int) :
    Held (some ptr :: handles) ((ptr, n) ::ₘ out) := by
  rw [Held, Multiset.map_cons, held, List.reduceOption_cons_of_some, Multiset.cons_coe]

theorem cons_none (held : Held handles out) : Held (none :: handles) out := by
  rw [Held, held, List.reduceOption_cons_of_none]

theorem exists_reference (held : Held handles out) (member : some ptr ∈ handles) :
    ∃ n, (ptr, n) ∈ out := by
  have inMap : ptr ∈ out.map Prod.fst := by
    rw [held]
    exact Multiset.mem_coe.mpr (List.reduceOption_mem_iff.mpr member)
  obtain ⟨⟨_, n⟩, inOut, rfl⟩ := Multiset.mem_map.mp inMap
  exact ⟨n, inOut⟩

theorem mem_handles (held : Held handles out) (inOut : (ptr, n) ∈ out) : some ptr ∈ handles := by
  have inMap : ptr ∈ out.map Prod.fst := Multiset.mem_map_of_mem Prod.fst inOut
  rw [held] at inMap
  exact List.reduceOption_mem_iff.mp (Multiset.mem_coe.mp inMap)

theorem of_none (held : Held handles out) (allNone : ∀ handle ∈ handles, handle = none) :
    out = 0 := by
  refine Multiset.eq_zero_of_forall_notMem fun reference member => ?_
  cases allNone _ (held.mem_handles member)

theorem middle {front back : List Handle} (held : Held (front ++ some ptr :: back) out) :
    ∃ n rest, out = (ptr, n) ::ₘ rest ∧ Held (front ++ back) rest := by
  have consed : ptr ::ₘ ((front ++ back).reduceOption : Multiset Address) = out.map Prod.fst := by
    rw [held, Multiset.cons_coe, List.reduceOption_append, List.reduceOption_append,
      List.reduceOption_cons_of_some]
    exact Multiset.coe_eq_coe.mpr List.perm_middle.symm
  obtain ⟨⟨_, n⟩, member, rfl, rest⟩ := (Multiset.map_eq_cons ..).mpr consed.symm
  exact ⟨n, _, (Multiset.cons_erase member).symm, rest⟩

theorem insert {front back : List Handle} (held : Held (front ++ back) out) (ptr : Address)
    (n : Int) : Held (front ++ some ptr :: back) ((ptr, n) ::ₘ out) := by
  rw [Held, Multiset.map_cons, held, Multiset.cons_coe, List.reduceOption_append,
    List.reduceOption_append, List.reduceOption_cons_of_some]
  exact Multiset.coe_eq_coe.mpr List.perm_middle.symm

theorem middle_none {front back : List Handle} (held : Held (front ++ none :: back) out) :
    Held (front ++ back) out := by
  rw [Held, held, List.reduceOption_append, List.reduceOption_append,
    List.reduceOption_cons_of_none]

private theorem count_reduceOption (handles : List Handle) (ptr : Address) :
    handles.reduceOption.count ptr = handles.count (some ptr) := by
  induction handles with
  | nil => rfl
  | cons handle handles ih =>
      cases handle with
      | none => rw [List.reduceOption_cons_of_none, ih, List.count_cons_of_ne (by simp)]
      | some other =>
          rw [List.reduceOption_cons_of_some]
          by_cases same : other = ptr
          · subst same
            rw [List.count_cons_self, List.count_cons_self, ih]
          · rw [List.count_cons_of_ne same, List.count_cons_of_ne (by simpa using same), ih]

theorem count_eq (held : Held handles out) (balanced : mgr.Balanced out) (member : (ptr, n) ∈ out) :
    out.count (ptr, n) = handles.count (some ptr) := by
  have onlyPage : ∀ reference ∈ out, ((ptr, n) = reference ↔ ptr = reference.1) := by
    rintro ⟨other, page⟩ inOut
    constructor
    · intro same
      exact congrArg Prod.fst same
    · rintro rfl
      rw [balanced.page_unique member inOut]
  calc out.count (ptr, n)
      = (out.filter ((ptr, n) = ·)).card := Multiset.count_eq_card_filter_eq ..
    _ = (out.filter fun reference => ptr = reference.1).card := by
        rw [Multiset.filter_congr onlyPage]
    _ = (out.map Prod.fst).count ptr := (Multiset.count_map ..).symm
    _ = handles.reduceOption.count ptr := by rw [held, Multiset.coe_count]
    _ = handles.count (some ptr) := count_reduceOption handles ptr

end Held

theorem variableAt_of_some {index : Nat} (found : variableAt handles index = some ptr) :
    handles[index]? = some (some ptr) := by
  rw [variableAt, List.getD_eq_getElem?_getD] at found
  cases present : handles[index]? with
  | none => simp [present] at found
  | some handle => simpa [present] using found

theorem mem_of_variableAt {index : Nat} (found : variableAt handles index = some ptr) :
    some ptr ∈ handles :=
  List.mem_of_getElem? (variableAt_of_some found)

theorem exists_around {target : Nat} (bound : target < handles.length) :
    ∃ front back, handles = front ++ variableAt handles target :: back ∧
      front.length = target ∧ (∀ handle, handles.set target handle = front ++ handle :: back) ∧
      handles.eraseIdx target = front ++ back := by
  refine ⟨handles.take target, handles.drop (target + 1), ?_, ?_, fun handle => ?_, ?_⟩
  · rw [variableAt, List.getD_eq_getElem _ _ bound, List.getElem_cons_drop, List.take_append_drop]
  · exact List.length_take_of_le (Nat.le_of_lt bound)
  · exact List.set_eq_take_append_cons_drop .. |>.trans (if_pos bound)
  · exact List.eraseIdx_eq_take_drop_succ ..

theorem mem_around {front back : List Handle} (handle : Handle) {source : Nat}
    (apart : source ≠ front.length)
    (found : variableAt (front ++ handle :: back) source = some ptr) :
    some ptr ∈ front ++ back := by
  have present := variableAt_of_some found
  rcases Nat.lt_or_gt_of_ne apart with before | behind
  · rw [List.getElem?_append_left before] at present
    exact List.mem_append_left _ (List.mem_of_getElem? present)
  · obtain ⟨offset, rfl⟩ := Nat.exists_eq_add_of_lt behind
    rw [List.getElem?_append_right (by omega),
      show front.length + offset + 1 - front.length = offset + 1 by omega,
      List.getElem?_cons_succ] at present
    exact List.mem_append_right _ (List.mem_of_getElem? present)

/-! ## Runs -/

/-- The manager is healthy and balanced by the handles in the variables. -/
def Client.Sound (client : Client α) : Prop :=
  client.manager.Healthy ∧ ∃ out, Held client.handles out ∧ client.manager.Balanced out

/-- `operator=`, whatever the left side holds. -/
theorem assign_handle {target : Handle} {front back : List Handle} (healthy : mgr.Healthy)
    (balanced : mgr.Balanced out) (held : Held (front ++ target :: back) out)
    (source : some ptr ∈ front ++ back) :
    Runs (assign target (some ptr)) mgr fun handle after => handle = some ptr ∧
      mgr.brk ≤ after.brk ∧ (Client.mk after (front ++ some ptr :: back)).Sound := by
  have added : ∀ {middle : Manager α} {rest : Multiset Reference}, Held (front ++ back) rest →
      mgr.Becomes middle mgr.toStore rest →
      Runs (do addRef (some ptr); pure (some ptr)) middle fun handle after => handle = some ptr ∧
        mgr.brk ≤ after.brk ∧ (Client.mk after (front ++ some ptr :: back)).Sound := by
    intro middle rest heldRest becomes
    obtain ⟨n, member⟩ := heldRest.exists_reference source
    simp only [runs_bind, runs_pure]
    refine (addRef_runs becomes.balanced member).mono fun _ after more => ?_
    have whole := becomes.trans more
    rw [becomes.store] at whole
    exact ⟨trivial, whole.brk, whole.healthy healthy.isOpen healthy.sound healthy.small, _,
      heldRest.insert ptr n, whole.balanced⟩
  rw [assign, runs_bind]
  cases target with
  | none =>
      rw [destroy_null]
      exact added held.middle_none ⟨balanced, rfl, rfl, le_refl _⟩
  | some old =>
      obtain ⟨page, rest, rfl, heldRest⟩ := held.middle
      have within := balanced.ranged old page (Multiset.mem_cons_self ..)
      have identified := healthy.sound.identified page within.1 within.2
      refine (destroy_runs balanced fun _ => identified).mono fun _ middle becomes => ?_
      exact added heldRest becomes

/-- Every request returns, unless the file would grow too large, and keeps the
handles balanced. -/
theorem Request.perform_runs {client : Client α} (sound : client.Sound) (request : Request α)
    (valid : request.Valid client.handles) :
    RunsUnless (client.manager.deletePages = ∅ ∧
        intMax < client.manager.header.size + pageSize)
      (request.perform client.handles) client.manager fun handles after =>
        client.manager.brk ≤ after.brk ∧ (Client.mk after handles).Sound := by
  obtain ⟨mgr, handles⟩ := client
  obtain ⟨healthy, out, held, balanced⟩ := sound
  dsimp only at held balanced healthy valid ⊢
  cases request with
  | getMemoryPage n =>
      refine .inl ?_
      simp only [perform, runs_bind, runs_pure]
      refine (getMemoryPage_runs balanced healthy.mappable n).mono fun handle after obtained => ?_
      rw [Manager.Obtained] at obtained
      split at obtained
      next =>
        obtain ⟨ptr, rfl, becomes⟩ := obtained
        exact ⟨becomes.brk, becomes.healthy healthy.isOpen healthy.sound healthy.small, _,
          held.cons ptr n, becomes.balanced⟩
      next =>
        obtain ⟨rfl, rfl⟩ := obtained
        exact ⟨le_refl _, healthy, out, held.cons_none, balanced⟩
  | copy source =>
      refine .inl ?_
      obtain ⟨ptr, found⟩ := Option.ne_none_iff_exists'.mp valid
      obtain ⟨n, member⟩ := held.exists_reference (mem_of_variableAt found)
      simp only [perform, runs_bind, runs_pure, found]
      refine (addRef_runs balanced member).mono fun _ after becomes => ?_
      exact ⟨becomes.brk, becomes.healthy healthy.isOpen healthy.sound healthy.small, _,
        held.cons ptr n, becomes.balanced⟩
  | assign target source =>
      refine .inl ?_
      simp only [perform]
      by_cases same : target = source
      · rw [if_pos same, runs_pure]
        exact ⟨le_refl _, healthy, out, held, balanced⟩
      · rw [if_neg same]
        obtain ⟨ptr, found⟩ := Option.ne_none_iff_exists'.mp valid.2
        obtain ⟨front, back, isHandles, size, sets, -⟩ := exists_around valid.1
        rw [isHandles] at held
        have among : some ptr ∈ front ++ back := by
          refine mem_around (variableAt handles target) ?_ (isHandles ▸ found)
          rw [size]
          exact Ne.symm same
        simp only [runs_bind, runs_pure, found]
        refine (assign_handle healthy balanced held among).mono ?_
        rintro handle after ⟨rfl, brk, sound⟩
        rw [sets]
        exact ⟨brk, sound⟩
  | destroy target =>
      refine .inl ?_
      obtain ⟨front, back, isHandles, -, -, erases⟩ := exists_around valid
      simp only [perform, runs_bind, runs_pure, erases]
      cases gone : variableAt handles target with
      | none =>
          rw [isHandles, gone] at held
          rw [destroy_null]
          exact ⟨le_refl _, healthy, out, held.middle_none, balanced⟩
      | some ptr =>
          rw [isHandles, gone] at held
          obtain ⟨page, rest, rfl, heldRest⟩ := held.middle
          have within := balanced.ranged ptr page (Multiset.mem_cons_self ..)
          have identified := healthy.sound.identified page within.1 within.2
          refine (destroy_runs balanced fun _ => identified).mono fun _ after becomes => ?_
          exact ⟨becomes.brk, becomes.healthy healthy.isOpen healthy.sound healthy.small, rest,
            heldRest, becomes.balanced⟩
  | insertPage =>
      refine RunsUnless.bind (insertPage_runs balanced healthy) fun handle after inserted => ?_
      obtain ⟨again, ptr, rfl, becomes⟩ := inserted
      exact .inl ((runs_pure ..).mpr ⟨becomes.brk, again, _, held.cons ptr _, becomes.balanced⟩)
  | deletePage n =>
      refine .inl ?_
      simp only [perform, runs_bind, runs_pure]
      refine (deletePage_runs balanced healthy valid).mono fun _ after reached => ?_
      obtain ⟨again, becomes⟩ := reached
      exact ⟨becomes.brk, again, out, held, becomes.balanced⟩
  | write target content =>
      refine .inl ?_
      obtain ⟨ptr, found⟩ := Option.ne_none_iff_exists'.mp valid
      obtain ⟨n, member⟩ := held.exists_reference (mem_of_variableAt found)
      simp only [perform, runs_bind, runs_pure, found]
      refine (modifyPage_runs balanced member _).mono fun _ after becomes => ?_
      exact ⟨becomes.brk, becomes.healthy healthy.isOpen (healthy.sound.setPage rfl rfl)
        healthy.small, out, held, becomes.balanced⟩
  | reopen =>
      refine .inl ?_
      cases held.of_none valid
      have reopens := reopen_runs balanced healthy
      simp only [perform, runs_bind, runs_pure] at reopens ⊢
      refine reopens.mono fun _ closed opens => opens.mono fun _ after reached => ?_
      obtain ⟨again, becomes⟩ := reached
      exact ⟨becomes.brk, again, 0, held, becomes.balanced⟩

/-- No page is mapped in a manager that was just created. -/
theorem Manager.balanced_created (zero : α) : (Manager.created zero).Balanced 0 where
  mapped ptr mapping := by simp [created]
  cached n handle := by simp [created]
  ranged ptr n member := absurd member (Multiset.notMem_zero _)
  destroyed ptr := by simp [created]
  once := List.nodup_nil
  unused _ _ := rfl

theorem Client.Reachable.sound {zero : α} {client : Client α} (reached : client.Reachable zero) :
    client.Sound := by
  obtain ⟨opened, returned, steps⟩ := reached
  induction steps with
  | refl =>
      have opens : Runs openTable (Manager.created zero) _ :=
        openTable_runs (.created zero) (show (0 : Int) ≤ intMax by decide) rfl
          (Manager.balanced_created zero)
      have after := opens.holds returned
      exact ⟨after.1, 0, Held.nil, after.2.1⟩
  | tail _ step sound =>
      obtain ⟨request, valid, performed⟩ := step
      exact ((request.perform_runs sound valid).holds performed).2

/-- A run of requests that are valid whatever the handles are. -/
theorem Client.Reachable.performAll {zero : α} {client : Client α} {requests : List (Request α)}
    (reached : client.Reachable zero)
    (valid : ∀ request ∈ requests, ∀ handles, request.Valid handles)
    (returned : (performAll requests client.handles).run client.manager = .ok (handles, mgr)) :
    (Client.mk mgr handles).Reachable zero := by
  induction requests generalizing client with
  | nil =>
      cases returned
      exact reached
  | cons request rest ih =>
      have runs : Runs (Pages.performAll (request :: rest) client.handles) client.manager
          fun result final => result = handles ∧ final = mgr := ⟨handles, mgr, returned, rfl, rfl⟩
      rw [Pages.performAll, runs_bind] at runs
      obtain ⟨middle, state, first, _, _, second, rfl, rfl⟩ := runs
      have step : client.Step ⟨state, middle⟩ :=
        ⟨request, valid request (by simp) _, first⟩
      obtain ⟨opened, isOpened, steps⟩ := reached
      exact ih ⟨opened, isOpened, steps.tail step⟩
        (fun other member => valid other (by simp [member])) second

/-- Two pages are inserted, the first one is deleted and taken into use again. -/
def reinserting : List (Request Nat) :=
  [.insertPage, .insertPage, .deletePage 0, .insertPage, .getMemoryPage 1]

private theorem exists_reinserting : ∃ client : Client Nat,
    (do openTable; performAll reinserting []).run (Manager.created 0) =
      .ok (client.handles, client.manager) ∧ client.Reachable 0 := by
  have returns : ((do openTable; performAll reinserting []).run
      (Manager.created 0)).isOk = true := by decide +kernel
  cases result : (do openTable; performAll reinserting []).run (Manager.created 0) with
  | error fault =>
      rw [result] at returns
      cases returns
  | ok outcome =>
      obtain ⟨handles, mgr⟩ := outcome
      have runs : Runs (do openTable; performAll reinserting []) (Manager.created 0)
          fun final state => final = handles ∧ state = mgr := ⟨handles, mgr, result, rfl, rfl⟩
      rw [runs_bind] at runs
      obtain ⟨_, opened, isOpened, _, _, rest, rfl, rfl⟩ := runs
      have start : (Client.mk opened []).Reachable 0 := ⟨opened, isOpened, .refl⟩
      refine ⟨⟨_, _⟩, rfl, start.performAll ?_ rest⟩
      simp [reinserting, Request.Valid]

/-! ## The allocator -/

/-- What `InsertPage` does to the store. -/
private theorem Client.Sound.insert {client : Client α} (sound : client.Sound) :
    RunsUnless (client.manager.deletePages = ∅ ∧ intMax < client.manager.fileSize + pageSize)
      insertPage client.manager fun handle after => ∃ n, after.pageOf handle = some n ∧
        ¬ client.manager.Allocated n ∧
        (∀ other, after.Allocated other ↔ client.manager.Allocated other ∨ other = n) ∧
        (client.manager.deletePages ≠ ∅ → IsLeast client.manager.deletePages n ∧
          after.header.nPages = client.manager.header.nPages ∧
          after.fileSize = client.manager.fileSize) ∧
        (client.manager.deletePages = ∅ → n = client.manager.header.nPages ∧
          after.header.nPages = client.manager.header.nPages + 1 ∧
          after.fileSize = client.manager.fileSize + pageSize) ∧
        (∀ other, other ≠ n → after.file other = client.manager.file other) ∧
        (after.file n).content = (client.manager.file n).content := by
  obtain ⟨healthy, out, held, balanced⟩ := sound
  have resized := healthy.sound.resized
  rw [resized]
  refine (insertPage_runs balanced healthy).mono (fun excuse => excuse) fun handle after => ?_
  rintro ⟨-, ptr, rfl, becomes⟩
  have page : after.pageOf (some ptr) = some client.manager.allocate.1 := by
    simp [Manager.pageOf, becomes.balanced.mapping (Multiset.mem_cons_self ..)]
  refine ⟨_, page, ?_⟩
  rw [becomes.store]
  cases found : client.manager.lowest with
  | none =>
      have appended : client.manager.allocate = (client.manager.header.nPages,
          client.manager.append) := by simp [Store.allocate, found]
      rw [appended]
      have nothing := Store.lowest_eq_none.mp found
      refine ⟨fun allocated => lt_irrefl _ allocated.2.1,
        fun other => Store.allocated_append healthy.sound nothing,
        fun some_ => absurd nothing some_, fun _ => ⟨rfl, rfl, rfl⟩,
        fun other apart => Store.file_append_of_ne _ apart, ?_⟩
      simp [Store.append, Store.grown, Header.addPage]
  | some n =>
      have reused : client.manager.allocate = (n, client.manager.reuse n) := by
        simp [Store.allocate, found]
      rw [reused]
      obtain ⟨member, least⟩ := Store.lowest_eq_some found
      have some_ : client.manager.deletePages ≠ ∅ := Finset.ne_empty_of_mem member
      refine ⟨fun allocated => allocated.2.2 member,
        fun other => Store.allocated_reuse healthy.sound member,
        fun _ => ⟨⟨member, fun other inside => least other inside⟩, rfl, resized⟩,
        fun nothing => absurd nothing some_,
        fun other apart => Store.file_reuse_of_ne _ apart, ?_⟩
      simp [Store.reuse]

/-- What `DeletePage` does to the store. -/
private theorem Client.Sound.delete {client : Client α} (sound : client.Sound) (low : 0 ≤ n) :
    Runs (deletePage n) client.manager fun _ after =>
      (∀ other, after.Allocated other ↔ client.manager.Allocated other ∧ other ≠ n) ∧
        after.header = client.manager.header ∧ after.fileSize = client.manager.fileSize ∧
        (∀ other, other ≠ n → after.file other = client.manager.file other) ∧
        (after.file n).content = (client.manager.file n).content := by
  obtain ⟨healthy, out, held, balanced⟩ := sound
  refine (deletePage_runs balanced healthy low).mono fun _ after ⟨_, becomes⟩ => ?_
  rw [becomes.store]
  have others : ∀ other, other ≠ n →
      (client.manager.free n).file other = client.manager.file other :=
    fun other apart => Store.file_free_of_ne _ apart
  have kept : (client.manager.free n).header = client.manager.header ∧
      (client.manager.free n).fileSize = client.manager.fileSize ∧
      ((client.manager.free n).file n).content = (client.manager.file n).content := by
    unfold Store.free
    split <;> simp
  exact ⟨fun other => Store.allocated_free low, kept.1, kept.2.1, others, kept.2.2⟩

/-- In every state of every run the allocator keeps its promises. -/
theorem reachable_allocates {zero : α} {client : Client α} (reached : client.Reachable zero) :
    client.Allocates := by
  have sound := reached.sound
  obtain ⟨healthy, out, held, balanced⟩ := id sound
  constructor
  · exact healthy.sound.deleted
  · exact healthy.sound.identified
  · intro n
    refine (getMemoryPage_runs balanced healthy.mappable n).mono fun handle after obtained => ?_
    unfold Manager.Obtained at obtained
    split at obtained
    next allocated =>
      obtain ⟨ptr, rfl, becomes⟩ := obtained
      refine ⟨becomes.store, iff_of_true (by simp) allocated, fun _ => ?_⟩
      simp [Manager.pageOf, becomes.balanced.mapping (Multiset.mem_cons_self ..)]
    next missing =>
      obtain ⟨rfl, rfl⟩ := obtained
      exact ⟨rfl, iff_of_false (by simp) missing, fun allocated => absurd allocated missing⟩
  · exact sound.insert
  · intro n low
    exact sound.delete low
  · intro allNone
    cases held.of_none allNone
    refine (reopen_runs balanced healthy).mono fun _ after ⟨_, becomes⟩ => ?_
    exact becomes.store

theorem reachable_allocates_reinserting : ∃ client : Client Nat,
    (do openTable; performAll reinserting []).run (Manager.created 0) =
      .ok (client.handles, client.manager) ∧ client.Allocates := by
  obtain ⟨client, returned, reached⟩ := exists_reinserting
  exact ⟨client, returned, reachable_allocates reached⟩

/-! ## The cache -/

theorem Manager.Balanced.pageOf_iff (balanced : mgr.Balanced out) :
    mgr.pageOf (some ptr) = some n ↔ (ptr, n) ∈ out := by
  simp only [pageOf, Option.bind_some, Option.map_eq_some_iff]
  constructor
  · rintro ⟨mapping, found, rfl⟩
    exact ((balanced.mapped ptr mapping).mp found).1
  · intro member
    exact ⟨_, balanced.mapping member, rfl⟩

/-- The counts that balance the handles are those of the handles. -/
private theorem Client.Sound.counts {client : Client α} (sound : client.Sound) :
    client.Counts := by
  obtain ⟨healthy, out, held, balanced⟩ := sound
  have live : ∀ ptr, client.manager.mappings ptr = none ↔ some ptr ∉ client.handles := by
    intro ptr
    constructor
    · intro gone inHandles
      obtain ⟨n, member⟩ := held.exists_reference inHandles
      rw [balanced.mapping member] at gone
      cases gone
    · intro notHeld
      by_contra mapped
      obtain ⟨mapping, found⟩ := Option.ne_none_iff_exists'.mp mapped
      exact notHeld (held.mem_handles ((balanced.mapped ptr mapping).mp found).1)
  constructor
  · intro first second n atFirst atSecond
    exact (balanced.ptr_unique (balanced.pageOf_iff.mp atFirst)
      (balanced.pageOf_iff.mp atSecond)).symm
  · intro ptr mapping found
    obtain ⟨member, count⟩ := (balanced.mapped ptr mapping).mp found
    rw [count]
    refine ⟨by rw [held.count_eq balanced member], ?_⟩
    exact Int.natCast_pos.mpr (Multiset.count_pos.mpr member)
  · intro ptr inHandles
    obtain ⟨n, member⟩ := held.exists_reference inHandles
    exact ⟨n, balanced.pageOf_iff.mpr member⟩
  · intro n handle
    rw [balanced.cached]
    cases handle with
    | none => simp [Manager.pageOf]
    | some ptr => simp [balanced.pageOf_iff]
  · intro n handle found
    obtain ⟨ptr, -, member⟩ := (balanced.cached n handle).mp found
    have within := balanced.ranged ptr n member
    exact healthy.sound.identified n within.1 within.2
  · intro ptr
    rw [balanced.destroyed, live]
  · exact balanced.once

/-- In every state of every run the cache keeps its promises, and every request
returns, unless the file would grow too large, and destroys a mapping exactly when
it takes its last handle. -/
theorem reachable_counts {zero : α} {client : Client α} (reached : client.Reachable zero) :
    client.Counts ∧ ∀ request : Request α, request.Valid client.handles →
      RunsUnless (client.manager.deletePages = ∅ ∧
          intMax < client.manager.header.size + pageSize)
        (request.perform client.handles) client.manager client.Releases := by
  have sound := reached.sound
  refine ⟨sound.counts, fun request valid => ?_⟩
  refine (request.perform_runs sound valid).mono (fun excuse => excuse) ?_
  intro handles after performed ptr inHandles
  have counts := performed.2.counts
  obtain ⟨-, out, held, balanced⟩ := sound
  obtain ⟨n, member⟩ := held.exists_reference inHandles
  rw [counts.destroyed]
  exact and_iff_right ((balanced.lt_brk member).trans_le performed.1)

theorem reachable_counts_reinserting : ∃ client : Client Nat,
    (do openTable; performAll reinserting []).run (Manager.created 0) =
      .ok (client.handles, client.manager) ∧ client.Counts := by
  obtain ⟨client, returned, reached⟩ := exists_reinserting
  exact ⟨client, returned, (reachable_counts reached).1⟩

end PersistentBTree.Pages
