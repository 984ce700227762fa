import PersistentBTree.Pages.VolumeProperties

/-! What users of the page manager may rely on over whole runs: its mappings, its
cache and its restarts do not show, and the file is no longer than it must be. -/

set_option autoImplicit false

namespace PersistentBTree.Pages

open Imperative

variable {α : Type} {zero : α} {client : Client α} {requests : List (Request α)}

theorem Volume.peak_append (volume : Volume α) (requests : List (Request α))
    (request : Request α) :
    volume.peak (requests ++ [request]) = max (volume.peak requests)
      ((requests ++ [request]).foldl Volume.perform volume).inUse.card := by
  induction requests generalizing volume with
  | nil => simp [peak]
  | cons first requests ih =>
      rw [List.cons_append, peak, peak, ih, List.foldl_cons, max_assoc]

/-- What a run of requests keeps. -/
theorem Client.After.kept (after : client.After zero requests) :
    (∃ references, client.Tracks references) ∧
      client.volume = requests.foldl Volume.perform (.empty zero) ∧
      client.manager.header.nPages = (Volume.empty zero).peak requests := by
  induction after with
  | opened returned =>
      have opens : Runs openTable (Manager.created zero) _ :=
        openTable_runs (.created zero) (show (0 : Int) ≤ intMax by decide) rfl
          (Manager.balanced_created zero)
      obtain ⟨healthy, balanced, store, -⟩ := opens.holds returned
      have tracks : (Client.mk _ []).Tracks [] := ⟨healthy, rfl, balanced⟩
      refine ⟨⟨[], tracks⟩, ?_, ?_⟩
      · rw [tracks.volume_eq]
        simp only [store]
        rfl
      · simp only [store]
        rfl
  | @request requests before after request earlier valid returned ih =>
      obtain ⟨⟨references, tracks⟩, volume, nPages⟩ := ih
      have performs := (request.performs tracks valid).holds returned
      have volumeAfter : after.volume =
          (requests ++ [request]).foldl Volume.perform (.empty zero) := by
        rw [List.foldl_append, ← volume]
        exact performs.volume
      refine ⟨performs.tracks, volumeAfter, ?_⟩
      have nPagesAfter : after.manager.header.nPages =
          max before.manager.header.nPages after.volume.inUse.card := performs.nPages
      rw [Volume.peak_append, ← volumeAfter, nPagesAfter, nPages]
      omega

theorem Client.After.performAll {mgr : Manager α} {handles : List Handle}
    {more : List (Request α)} (after : client.After zero requests)
    (valid : ∀ request ∈ more, ∀ handles, request.Valid handles)
    (returned : (performAll more client.handles).run client.manager = .ok (handles, mgr)) :
    (Client.mk mgr handles).After zero (requests ++ more) := by
  induction more generalizing client requests with
  | nil =>
      cases returned
      rwa [List.append_nil]
  | cons request more ih =>
      have runs : Runs (Pages.performAll (request :: more) client.handles) client.manager
          fun result final => result = handles ∧ final = mgr := ⟨handles, mgr, returned, rfl, rfl⟩
      rw [Pages.performAll, runs_bind] at runs
      obtain ⟨middle, state, first, _, _, second, rfl, rfl⟩ := runs
      have next : (Client.mk state middle).After zero (requests ++ [request]) :=
        .request after (valid request (by simp) _) first
      rw [List.append_cons]
      exact ih next (fun other member => valid other (by simp [member])) second

private theorem exists_after_reinserting : ∃ client : Client Nat,
    (do openTable; performAll reinserting []).run (Manager.created 0) =
      .ok (client.handles, client.manager) ∧ client.After 0 reinserting := by
  have returns : ((do openTable; performAll reinserting []).run
      (Manager.created 0)).isOk = true := by decide +kernel
  cases result : (do openTable; performAll reinserting []).run (Manager.created 0) with
  | error fault =>
      rw [result] at returns
      cases returns
  | ok outcome =>
      obtain ⟨handles, mgr⟩ := outcome
      have runs : Runs (do openTable; performAll reinserting []) (Manager.created 0)
          fun final state => final = handles ∧ state = mgr := ⟨handles, mgr, result, rfl, rfl⟩
      rw [runs_bind] at runs
      obtain ⟨_, opened, isOpened, _, _, rest, rfl, rfl⟩ := runs
      have start : (Client.mk opened []).After 0 [] := .opened isOpened
      refine ⟨⟨_, _⟩, rfl, start.performAll ?_ rest⟩
      simp [Request.Valid]

/-- After every run of requests the pages and the variables are those of the volume,
and every valid request returns, unless the file would grow too large. -/
theorem volume_of_requests (after : client.After zero requests) :
    client.volume = requests.foldl Volume.perform (.empty zero) ∧
      ∀ request : Request α, request.Valid client.handles →
        RunsUnless (request = .insertPage ∧ client.manager.deletePages = ∅ ∧
            intMax < client.manager.header.size + pageSize)
          (request.perform client.handles) client.manager fun handles mgr =>
            (Client.mk mgr handles).volume =
              (requests ++ [request]).foldl Volume.perform (.empty zero) := by
  obtain ⟨⟨references, tracks⟩, volume, -⟩ := after.kept
  refine ⟨volume, fun request valid => ?_⟩
  apply (request.performs tracks valid).mono fun full => full
  intro handles mgr performs
  rw [List.foldl_append, ← volume]
  exact performs.volume

theorem volume_of_requests_reinserting : ∃ client : Client Nat,
    (do openTable; performAll reinserting []).run (Manager.created 0) =
      .ok (client.handles, client.manager) ∧
        client.volume = reinserting.foldl Volume.perform (.empty 0) := by
  obtain ⟨client, returned, after⟩ := exists_after_reinserting
  exact ⟨client, returned, (volume_of_requests after).1⟩

/-- After every run of requests the file has as many pages as were in use at a time,
and those that are not in use are kept for later. -/
theorem nPages_of_requests (after : client.After zero requests) :
    client.manager.header.nPages = (Volume.empty zero).peak requests ∧
      client.manager.fileSize = (Volume.empty zero).peak requests * pageSize ∧
      (client.manager.deletePages.card : Int) + client.volume.inUse.card =
        (Volume.empty zero).peak requests := by
  obtain ⟨⟨references, tracks⟩, volume, nPages⟩ := after.kept
  have sound := tracks.healthy.sound
  have within : client.manager.deletePages ⊆ client.manager.toStore.numbers := by
    intro n deleted
    obtain ⟨low, high, -⟩ := (sound.deleted n).mp deleted
    exact Store.mem_numbers.mpr ⟨low, high⟩
  have parts : client.volume.inUse.card + client.manager.deletePages.card = _ :=
    Finset.card_sdiff_add_card_eq_card within
  rw [Store.card_numbers] at parts
  refine ⟨nPages, by rw [sound.resized, sound.sized, nPages], ?_⟩
  omega

theorem nPages_of_requests_reinserting : ∃ client : Client Nat,
    (do openTable; performAll reinserting []).run (Manager.created 0) =
      .ok (client.handles, client.manager) ∧
        client.manager.header.nPages = (Volume.empty 0).peak reinserting := by
  obtain ⟨client, returned, after⟩ := exists_after_reinserting
  exact ⟨client, returned, (nPages_of_requests after).1⟩

end PersistentBTree.Pages
