import PersistentBTree.Coroutines.StepProperties

/-! Whole runs of the threads. Every trade keeps the ownership of the coroutines, so that
every event is possible in every state reached, and a property of the states reached
follows from what the trades keep. -/

set_option autoImplicit false

namespace PersistentBTree.Coroutines

open Imperative
open List (Perm)

variable {Code Error : Type} {behaviour : Behaviour Code Error}

/-! ## Ownership -/

section Exchange

variable {parties parties' old new rest : List (Party Code Error)} {store store' : Store Code}

private theorem Store.put_of_ne (store : Store Code) {id other : CoroId} (differ : other ≠ id)
    (cell : Option (Coro Code)) : (store.put id cell).cells other = store.cells other :=
  Function.update_of_ne differ ..

@[simp] theorem Store.put_self (store : Store Code) (id : CoroId) (cell : Option (Coro Code)) :
    (store.put id cell).cells id = cell :=
  Function.update_self ..

private theorem owned_put {id : CoroId} {cell : Option (Coro Code)}
    (owned : Imperative.Owned (ownership Code Error) parties store.cells)
    (before : Perm parties (old ++ rest)) (after : Perm parties' (new ++ rest))
    (had : old.filterMap Party.coro = [id])
    (has : new.filterMap Party.coro = [id] ∨
      new.filterMap Party.coro = [] ∧ ∀ coro, cell = some coro → coro.exc = true)
    (suits : ∀ party ∈ new, Suits party (party.coro.bind (store.put id cell).cells)) :
    Imperative.Owned (ownership Code Error) parties' (store.put id cell).cells := by
  have held : old.filterMap (ownership Code Error).holds = [id] := had
  have kept : ∀ token, token ∉ [id] → (store.put id cell).cells token = store.cells token :=
    fun token differs => Store.put_of_ne store (fun same => differs (List.mem_singleton.mpr same)) cell
  cases has with
  | inl has =>
      have holds : new.filterMap (ownership Code Error).holds = [id] := has
      refine owned.exchange before after ?_ ?_ suits ?_ ?_
      · exact fun token notOld _ => kept token (held ▸ notOld)
      · exact fun token isNew => .inl (held.symm ▸ holds ▸ isNew)
      · exact holds.symm ▸ List.nodup_singleton id
      · exact fun token isOld _ _ _ => holds.symm ▸ held ▸ isOld
  | inr gone =>
      obtain ⟨has, raised⟩ := gone
      have holds : new.filterMap (ownership Code Error).holds = [] := has
      refine owned.exchange before after ?_ ?_ suits ?_ ?_
      · exact fun token notOld _ => kept token (held ▸ notOld)
      · exact fun token isNew => absurd (holds ▸ isNew) List.not_mem_nil
      · exact holds.symm ▸ List.nodup_nil
      · intro token isOld coro found lives
        rw [held, List.mem_singleton] at isOld
        subst isOld
        rw [Store.put_self] at found
        have none_ : coro.exc = false := lives
        rw [raised coro found] at none_
        cases none_

private theorem owned_same
    (owned : Imperative.Owned (ownership Code Error) parties store.cells)
    (before : Perm parties (old ++ rest)) (after : Perm parties' (new ++ rest))
    (same : new.filterMap Party.coro = old.filterMap Party.coro)
    (suits : ∀ party ∈ new, Suits party (party.coro.bind store.cells)) :
    Imperative.Owned (ownership Code Error) parties' store.cells := by
  have holds : new.filterMap (ownership Code Error).holds =
      old.filterMap (ownership Code Error).holds := same
  have distinct := (owned.perm before).exclusive
  rw [List.filterMap_append, List.nodup_append'] at distinct
  refine owned.exchange before after (fun _ _ _ => rfl) ?_ suits ?_ ?_
  · exact fun token isNew => .inl (holds ▸ isNew)
  · exact holds.symm ▸ distinct.1
  · exact fun token isOld _ _ _ => holds.symm ▸ isOld

/-- A coroutine is created for a party that had none. -/
private theorem owned_fresh {id : CoroId} {cell : Option (Coro Code)}
    (owned : Imperative.Owned (ownership Code Error) parties store.cells)
    (before : Perm parties (old ++ rest)) (after : Perm parties' (new ++ rest))
    (had : old.filterMap Party.coro = []) (has : new.filterMap Party.coro = [id])
    (fresh : store.cells id = none)
    (suits : ∀ party ∈ new, Suits party (party.coro.bind (store.put id cell).cells)) :
    Imperative.Owned (ownership Code Error) parties' (store.put id cell).cells := by
  have held : old.filterMap (ownership Code Error).holds = [] := had
  have holds : new.filterMap (ownership Code Error).holds = [id] := has
  refine owned.exchange before after ?_ ?_ suits ?_ ?_
  · intro token _ notNew
    rw [holds, List.mem_singleton] at notNew
    exact Store.put_of_ne store notNew cell
  · intro token isNew
    rw [holds, List.mem_singleton] at isNew
    exact .inr (isNew ▸ fresh)
  · exact holds.symm ▸ List.nodup_singleton id
  · exact fun token isOld => absurd (held ▸ isOld) List.not_mem_nil

/-- The coroutine of a thread passes to the operation that it starts. -/
private theorem owned_begin {thread : Thread Error} {id : CoroId} {pending : Pending Code}
    {coro : Coro Code} {call : Call Code}
    (owned : Imperative.Owned (ownership Code Error) parties store.cells)
    (place : thread.place = .deferring id) (found : store.cells id = some coro)
    (called : coro.call = some call) (waits : pending.coro = id)
    (starts : Starts call.handler pending)
    (before : Perm parties ([.thread thread] ++ rest))
    (after : Perm parties' ([.thread { thread with place := .deferred }, .pending pending] ++ rest)) :
    Imperative.Owned (ownership Code Error) parties' store.cells := by
  have suits := owned.suits (.thread thread) (before.mem_iff.mpr List.mem_cons_self)
  change SuitsThread thread (thread.place.coro.bind store.cells) at suits
  simp only [SuitsThread, place, Place.coro, Option.bind_some, found] at suits
  obtain ⟨outside, call', -, coro', same, suspended⟩ := suits
  cases same
  have had : List.filterMap Party.coro [(.thread thread : Party Code Error)] = [pending.coro] := by
    simp [Party.coro, place, Place.coro, waits]
  refine owned_same owned before after had.symm ?_
  intro party member
  cases List.mem_cons.mp member with
  | inl same =>
      subst same
      exact outside
  | inr begun =>
      rw [List.mem_singleton.mp begun]
      refine ⟨coro, by rw [Party.coro, waits]; exact found, call, ?_, starts⟩
      exact ⟨suspended.started, suspended.running, suspended.noException, called⟩

/-- A trade keeps every coroutine with exactly one party. -/
theorem Trades.owned {label : Option (Label Code Error)}
    (trades : Trades behaviour label old store new store')
    (owned : Imperative.Owned (ownership Code Error) parties store.cells)
    (before : Perm parties (old ++ rest)) (after : Perm parties' (new ++ rest)) :
    Imperative.Owned (ownership Code Error) parties' store'.cells := by
  have suited : ∀ party ∈ old, Suits party (party.coro.bind store.cells) :=
    fun party member => owned.suits party (before.mem_iff.mpr (List.mem_append_left rest member))
  cases trades with
  | @create thread handler store id place fresh =>
      have idle := suited (.thread thread) List.mem_cons_self
      simp only [Suits, SuitsThread, place] at idle
      refine owned_fresh owned before after (by simp [Party.coro, place, Place.coro, Task.coro]) rfl
        fresh ?_
      simp only [List.forall_mem_singleton, Suits, SuitsThread, Party.coro, Place.coro]
      exact ⟨trivial, idle.2, _, store.put_self .., rfl, rfl, rfl, true, by rw [idle.1]⟩
  | @resume thread task posted error store id coro place found completes =>
      have idle := suited (.thread thread) List.mem_cons_self
      simp only [Suits, SuitsThread, place] at idle
      have waits := suited (.task task) (List.mem_cons_of_mem _ List.mem_cons_self)
      have holds : task.coro = some id ∧ Suits (.task task : Party Code Error) (store.cells id) ∧
          Waiting (store.cells id) ∧ ∀ item ∈ posted, ∃ handler, item = .create handler := by
        cases completes with
        | inl plain =>
            obtain ⟨rfl, rfl⟩ := plain
            exact ⟨rfl, waits, waits, by simp⟩
        | inr accepts =>
            obtain ⟨handler, rfl, rfl⟩ := accepts
            refine ⟨rfl, waits, waits, ?_⟩
            split <;> simp
      obtain ⟨holds, -, ⟨coro', found', call, suspended⟩, created⟩ := holds
      rw [found] at found'
      cases found'
      have noCoro : (posted.map Party.task).filterMap (@Party.coro Code Error) = [] := by
        apply List.filterMap_eq_nil_iff.mpr
        intro party member
        obtain ⟨item, inside, rfl⟩ := List.mem_map.mp member
        obtain ⟨handler, rfl⟩ := created item inside
        rfl
      refine owned_put owned before after ?_ (.inl ?_) ?_
      · simp [Party.coro, place, Place.coro, holds]
      · rw [List.filterMap_cons_some (by rfl : Party.coro _ = some id), noCoro]
      · intro party member
        cases List.mem_cons.mp member with
        | inl same =>
            subst same
            simp only [Suits, SuitsThread, Party.coro, Place.coro]
            exact ⟨trivial, idle.2, _, store.put_self .., suspended.started, rfl, suspended.noException,
              false, by rw [idle.1]⟩
        | inr member =>
            obtain ⟨item, inside, rfl⟩ := List.mem_map.mp member
            obtain ⟨handler, rfl⟩ := created item inside
            trivial
  | @deferReturns thread store id coro call place found called =>
      have suits := suited (.thread thread) List.mem_cons_self
      have holds : List.filterMap Party.coro [(.thread thread : Party Code Error)] = [id] := by
        simp [Party.coro, place, Place.coro]
      simp only [Suits, SuitsThread, Party.coro, place, Place.coro, Option.bind_some, found] at suits
      refine owned_put owned before after holds (.inl holds) ?_
      simp only [List.forall_mem_singleton, Suits, SuitsThread, Party.coro, place, Place.coro]
      obtain ⟨current, noHandler, coro', found', inside⟩ := suits
      cases found'
      exact ⟨current, noHandler, _, store.put_self .., inside.started, inside.running, inside.noException,
        inside.context⟩
  | @finish thread store id coro place found idle acts =>
      have suits := suited (.thread thread) List.mem_cons_self
      simp only [Suits, SuitsThread, Party.coro, place, Place.coro, Option.bind_some, found] at suits
      obtain ⟨current, noHandler, coro', found', inside⟩ := suits
      cases found'
      refine owned_put owned before after (by simp [Party.coro, place, Place.coro]) (.inl rfl) ?_
      simp only [List.forall_mem_singleton, Suits, SuitsThread, Party.coro, Place.coro]
      exact ⟨trivial, .inl ⟨noHandler, _, store.put_self .., rfl, rfl, inside.noException⟩⟩
  | @raise thread store id coro constructing place found idle acts =>
      refine owned_put owned before after (by simp [Party.coro, place, Place.coro])
        (.inr ⟨rfl, ?_⟩) (by simp [Suits, SuitsThread])
      intro left remains
      cases constructing with
      | true => cases remains
      | false =>
          cases remains
          rfl
  | @go thread store id coro handler next place found idle acts =>
      have suits := suited (.thread thread) List.mem_cons_self
      simp only [Suits, SuitsThread, Party.coro, place, Place.coro, Option.bind_some, found] at suits
      obtain ⟨current, noHandler, coro', found', inside⟩ := suits
      cases found'
      refine owned_put owned before after (by simp [Party.coro, place, Place.coro])
        (.inl (by simp [Party.coro, place, Place.coro, Task.coro])) ?_
      intro party member
      cases List.mem_cons.mp member with
      | inl same =>
          subst same
          simp only [Suits, SuitsThread, Party.coro, place, Place.coro]
          exact ⟨current, noHandler, _, store.put_self .., inside.started, inside.running,
            inside.noException, inside.context⟩
      | inr posted =>
          rw [List.mem_singleton.mp posted]
          trivial
  | @defer thread store id coro operation place found idle acts =>
      have suits := suited (.thread thread) List.mem_cons_self
      simp only [Suits, SuitsThread, Party.coro, place, Place.coro, Option.bind_some, found] at suits
      obtain ⟨current, noHandler, coro', found', inside⟩ := suits
      cases found'
      refine owned_put owned before after (by simp [Party.coro, place, Place.coro]) (.inl rfl) ?_
      simp only [List.forall_mem_singleton, Suits, SuitsThread, Party.coro, Place.coro]
      exact ⟨trivial, .inr ⟨⟨coro.calls, operation⟩, rfl, _, store.put_self .., inside.started, rfl,
        inside.noException, rfl⟩⟩
  | @completeDeferred thread store id pointer place pointed =>
      have suits := suited (.thread thread) List.mem_cons_self
      refine owned_same owned before after (by simp [Party.coro, place, Place.coro]) ?_
      simp only [Suits, SuitsThread, Party.coro, place, Place.coro, pointed] at suits
      simp only [List.forall_mem_singleton, Suits, SuitsThread, Party.coro, Place.coro, pointed]
      obtain ⟨outside, finished | suspended⟩ := suits
      · cases finished.1
      · exact ⟨outside, suspended⟩
  | @completeFinished thread store id place pointed =>
      have suits := suited (.thread thread) List.mem_cons_self
      simp only [Suits, SuitsThread, Party.coro, place, Place.coro, pointed] at suits
      refine owned_put owned before after (by simp [Party.coro, place, Place.coro])
        (.inr ⟨rfl, fun coro absent => by cases absent⟩) ?_
      simp only [List.forall_mem_singleton, Suits, SuitsThread]
      exact ⟨suits.1, pointed⟩
  | transfer place found called handler =>
      exact owned_begin owned place found called rfl (by rw [handler]; exact rfl) before after
  | accept place found called accepts =>
      exact owned_begin owned place found called rfl (by rw [accepts]; exact ⟨_, rfl⟩) before after
  | @deferHandlerReturns thread store place =>
      have suits := suited (.thread thread) List.mem_cons_self
      simp only [Suits, SuitsThread, place] at suits
      refine owned_same owned before after (by simp [Party.coro, place, Place.coro]) ?_
      simp only [List.forall_mem_singleton, Suits, SuitsThread]
      exact ⟨suits, trivial⟩
  | @ended pending error store =>
      have suits := suited (.pending pending) List.mem_cons_self
      refine owned_same owned before after (by simp [Party.coro]) ?_
      rw [List.forall_mem_singleton]
      obtain ⟨coro, found, call, suspended, -⟩ := suits
      cases pending <;> exact ⟨coro, found, call, suspended⟩

end Exchange

/-! ## Every event is possible -/

theorem Machine.Trades.owned {label : Option (Label Code Error)}
    {machine machine' : Machine Code Error}
    (trades : machine.Trades behaviour label machine') (owned : machine.Owned) :
    machine'.Owned := by
  obtain ⟨old, new, rest, before, after, trades⟩ := trades
  exact Coroutines.Trades.owned trades owned before after

private theorem trade_append {label : Option (Label Code Error)}
    {parties parties' rest : List (Party Code Error)} {store store' : Store Code}
    (trade : Trade behaviour label parties store parties' store') :
    Trade behaviour label (parties ++ rest) store (parties' ++ rest) store' := by
  obtain ⟨old, new, others, before, after, trades⟩ := trade
  refine ⟨old, new, others ++ rest, ?_, ?_, trades⟩
  · exact List.append_assoc .. ▸ before.append_right rest
  · exact List.append_assoc .. ▸ after.append_right rest

private theorem parties_set {threads : List (Thread Error)} {index : Nat} {thread : Thread Error}
    (chosen : threads[index]? = some thread) (shared : Shared Code Error) :
    Perm (Machine.mk threads shared).parties
      ((View.mk thread shared).parties ++ (threads.eraseIdx index).map .thread) ∧
    ∀ view : View Code Error, Perm (Machine.mk (threads.set index view.thread) view.shared).parties
      (view.parties ++ (threads.eraseIdx index).map .thread) := by
  obtain ⟨inside, rfl⟩ := List.getElem?_eq_some_iff.mp chosen
  constructor
  · have split := (List.getElem_cons_eraseIdx_perm inside).symm.map (@Party.thread Code Error)
    exact (split.append_right _).trans (List.perm_append_comm.cons _)
  · intro view
    have split := (List.set_perm_cons_eraseIdx inside view.thread).map (@Party.thread Code Error)
    exact (split.append_right _).trans (List.perm_append_comm.cons _)

private theorem withThread_trades {label : Option (Label Code Error)}
    {machine : Machine Code Error} {index : Nat} {step : Step Code Error Unit}
    (absent : machine.threads[index]? = none → label = none)
    (runs : ∀ thread, machine.threads[index]? = some thread →
      Runs step ⟨thread, machine.shared⟩ fun _ after =>
        after = ⟨thread, machine.shared⟩ ∧ label = none ∨
          Trade behaviour label (View.mk thread machine.shared).parties machine.shared.store
            after.parties after.shared.store) :
    ∃ machine', machine.withThread index step = .ok machine' ∧
      (machine' = machine ∧ label = none ∨ machine.Trades behaviour label machine') := by
  unfold Machine.withThread
  cases chosen : machine.threads[index]? with
  | none => exact ⟨machine, rfl, .inl ⟨rfl, absent chosen⟩⟩
  | some thread =>
      obtain ⟨result, view, returned, changed⟩ := runs thread chosen
      refine ⟨⟨machine.threads.set index view.thread, view.shared⟩, ?_, ?_⟩
      · change step.run _ >>= _ = _
        rw [returned]
        rfl
      · cases changed with
        | inl unchanged =>
            obtain ⟨same, unseen⟩ := unchanged
            left
            rw [same]
            obtain ⟨inside, rfl⟩ := List.getElem?_eq_some_iff.mp chosen
            rw [List.set_getElem_self]
            exact ⟨rfl, unseen⟩
        | inr traded =>
            right
            obtain ⟨before, after⟩ := parties_set chosen machine.shared
            obtain ⟨old, new, rest, before', after', trades⟩ :=
              trade_append traded
            exact ⟨old, new, rest, before.trans before', (after view).trans after', trades⟩

private theorem shared_ended {shared : Shared Code Error} {index : Nat} {pending : Pending Code}
    (chosen : shared.pending[index]? = some pending) (error : Option Error) :
    ∃ rest, Perm shared.parties (.pending pending :: rest) ∧
      Perm (shared.ended index error).parties (.task (pending.task error) :: rest) ∧
      (shared.ended index error).store = shared.store := by
  obtain ⟨inside, same⟩ := List.getElem?_eq_some_iff.mp chosen
  have split : Perm shared.pending (pending :: shared.pending.eraseIdx index) :=
    same ▸ (List.getElem_cons_eraseIdx_perm inside).symm
  simp only [Shared.ended, chosen]
  refine ⟨(shared.pending.eraseIdx index).map .pending ++ shared.ready.map .task, ?_, ?_, rfl⟩
  · exact (split.map Party.pending).append_right _
  · rw [Shared.parties, List.map_append, ← List.append_assoc]
    exact List.perm_append_singleton _ _

/-- In a state in which every coroutine is held by one party, every event is possible: it
changes nothing, or some parties trade. -/
theorem Machine.Owned.step {machine : Machine Code Error} (owned : machine.Owned)
    (behaviour : Behaviour Code Error) (event : Event Error) :
    ∃ machine', machine.step behaviour event = .ok machine' ∧
      (machine' = machine ∧ machine.label event = none ∨
        machine.Trades behaviour (machine.label event) machine') := by
  have thread : ∀ (index : Nat) (thread : Thread Error), machine.threads[index]? = some thread →
      SuitsThread thread (thread.place.coro.bind machine.shared.cell) := by
    intro index thread chosen
    apply owned.suits (.thread thread)
    exact List.mem_append_left _ (List.mem_map_of_mem (List.mem_of_getElem? chosen))
  cases event with
  | run index =>
      apply withThread_trades
      · exact fun absent => by rw [Machine.label, absent, Option.bind_none]
      · intro chosen found
        rw [Machine.label, found, Option.bind_some]
        exact runs_runThread (thread index chosen found)
  | take index task =>
      apply withThread_trades
      · exact fun _ => rfl
      · intro chosen found
        have takes := @runs_takeTask _ _ behaviour ⟨chosen, machine.shared⟩ task
          (thread index chosen found) fun posted member => ?_
        · exact takes.mono fun _ _ => Or.imp_left fun same => ⟨same, rfl⟩
        · apply owned.suits (.task posted)
          exact List.mem_append_right _ (List.mem_append_right _ (List.mem_map_of_mem member))
  | ended index error =>
      refine ⟨_, rfl, ?_⟩
      cases chosen : machine.shared.pending[index]? with
      | none =>
          left
          simp only [Shared.ended, Machine.label, chosen, Option.bind_none, and_self]
      | some pending =>
          right
          have waiting : Party.pending pending ∈ machine.parties :=
            List.mem_append_right _ (List.mem_append_left _
              (List.mem_map_of_mem (List.mem_of_getElem? chosen)))
          obtain ⟨coro, found, -⟩ := owned.suits (.pending pending) waiting
          have found' : machine.shared.cell pending.coro = some coro := found
          rw [Machine.label, chosen, Option.bind_some, found', Option.map_some]
          obtain ⟨rest, before, after, same⟩ := shared_ended chosen error
          have threadsLast : ∀ shared : Shared Code Error,
              Perm (Machine.mk machine.threads shared).parties
                (shared.parties ++ machine.threads.map .thread) :=
            fun _ => List.perm_append_comm
          refine ⟨[.pending pending], [.task (pending.task error)],
            rest ++ machine.threads.map .thread, ?_, ?_, ?_⟩
          · exact (threadsLast _).trans (before.append_right _)
          · exact (threadsLast _).trans (after.append_right _)
          · rw [same]
            exact .ended found'

/-! ## Runs -/

theorem Machine.run_cons (behaviour : Behaviour Code Error) (machine : Machine Code Error)
    (event : Event Error) (events : List (Event Error)) :
    machine.run behaviour (event :: events) =
      (machine.step behaviour event).bind fun next => next.run behaviour events := by
  rw [Machine.run, List.foldlM_cons]
  rfl

/-- What is seen of a run. -/
def Machine.labels (behaviour : Behaviour Code Error) (machine : Machine Code Error) :
    List (Event Error) → List (Label Code Error)
  | [] => []
  | event :: events => (machine.label event).toList ++
      match machine.step behaviour event with
      | .ok next => next.labels behaviour events
      | .error _ => []

/-- Every run goes on to its end, and what every trade keeps holds of the state it reaches. -/
theorem Machine.Owned.run_labels {holds : List (Label Code Error) → Machine Code Error → Prop}
    {machine : Machine Code Error} {seen : List (Label Code Error)} (owned : machine.Owned)
    (start : holds seen machine)
    (keeps : ∀ (seen : List (Label Code Error)) (label : Option (Label Code Error))
      (before after : Machine Code Error), before.Owned → before.Trades behaviour label after →
        holds seen before → holds (seen ++ label.toList) after) (events : List (Event Error)) :
    ∃ reached, machine.run behaviour events = .ok reached ∧ reached.Owned ∧
      holds (seen ++ machine.labels behaviour events) reached := by
  induction events generalizing machine seen with
  | nil => exact ⟨machine, rfl, owned, by rwa [Machine.labels, List.append_nil]⟩
  | cons event events ih =>
      obtain ⟨next, stepped, moved⟩ := owned.step behaviour event
      rw [Machine.run_cons, Machine.labels, stepped, ← List.append_assoc]
      cases moved with
      | inl unchanged =>
          obtain ⟨same, unseen⟩ := unchanged
          rw [same, unseen, Option.toList_none, List.append_nil]
          exact ih owned start
      | inr trades => exact ih (trades.owned owned) (keeps seen _ machine next owned trades start)

theorem Machine.Owned.run {holds : Machine Code Error → Prop} {machine : Machine Code Error}
    (owned : machine.Owned) (start : holds machine)
    (keeps : ∀ (label : Option (Label Code Error)) (before after : Machine Code Error),
      before.Owned → before.Trades behaviour label after → holds before → holds after)
    (events : List (Event Error)) :
    ∃ reached, machine.run behaviour events = .ok reached ∧ reached.Owned ∧ holds reached :=
  @Machine.Owned.run_labels _ _ behaviour (fun _ => holds) machine [] owned start
    (fun _ => keeps) events

theorem dispatched_owned (handlers : List Code) (threadCount : Int) (hardwareConcurrency : Nat) :
    (dispatched handlers threadCount hardwareConcurrency : Machine Code Error).Owned := by
  let start : Machine Code Error := dispatched handlers threadCount hardwareConcurrency
  have idle : ∀ party ∈ start.parties, party = .thread ⟨none, none, none, .run⟩ ∨
      ∃ handler, party = .task (.create handler) := by
    intro party member
    cases List.mem_append.mp member with
    | inl worker =>
        obtain ⟨thread, inside, rfl⟩ := List.mem_map.mp worker
        rw [(List.mem_replicate.mp inside).2]
        exact .inl rfl
    | inr posted =>
        obtain ⟨task, inside, rfl⟩ := List.mem_map.mp posted
        obtain ⟨handler, -, rfl⟩ := List.mem_map.mp inside
        exact .inr ⟨handler, rfl⟩
  have noCoro : start.parties.filterMap Party.coro = [] := by
    apply List.filterMap_eq_nil_iff.mpr
    intro party member
    rcases idle party member with rfl | ⟨handler, rfl⟩ <;> rfl
  refine ⟨?_, ?_, ?_⟩
  · intro party member
    rcases idle party member with rfl | ⟨handler, rfl⟩
    · exact ⟨rfl, rfl⟩
    · trivial
  · exact (show start.parties.filterMap (ownership Code Error).holds = [] from noCoro) ▸
      List.nodup_nil
  · intro id coro found
    cases found

end PersistentBTree.Coroutines
