import PersistentBTree.Coroutines.Parties

/-! A step in a state in which every coroutine is held by one party: no `VERIFY` fails, no
coroutine is used that was deleted, and the step is one of the trades. -/

set_option autoImplicit false

namespace PersistentBTree.Coroutines

open Imperative
open List (Perm)

variable {Code Error : Type}

/-! ## The shared state -/

def Shared.put (shared : Shared Code Error) (id : CoroId) (cell : Option (Coro Code)) :
    Shared Code Error :=
  { shared with coros := shared.coros.set id cell }

section Put

variable (shared : Shared Code Error) (id : CoroId) (cell cell' : Option (Coro Code))

@[simp] theorem Shared.put_pending : (shared.put id cell).pending = shared.pending := rfl
@[simp] theorem Shared.put_ready : (shared.put id cell).ready = shared.ready := rfl
@[simp] theorem Shared.put_sockets : (shared.put id cell).sockets = shared.sockets := rfl
@[simp] theorem Shared.parties_put : (shared.put id cell).parties = shared.parties := rfl

@[simp] theorem Shared.put_put : (shared.put id cell).put id cell' = shared.put id cell' := by
  simp [put]

theorem Shared.lt_of_cell {shared : Shared Code Error} {id : CoroId} {coro : Coro Code}
    (found : shared.cell id = some coro) : id < shared.coros.length := by
  rw [cell, Option.join_eq_some_iff, List.getElem?_eq_some_iff] at found
  exact found.1

theorem Shared.cell_put {shared : Shared Code Error} {id : CoroId} {coro : Coro Code}
    (found : shared.cell id = some coro) (cell : Option (Coro Code)) :
    (shared.put id cell).cell = Function.update shared.cell id cell := by
  funext other
  by_cases same : other = id
  · subst same
    rw [Function.update_self, Shared.cell, put, List.getElem?_set_self (Shared.lt_of_cell found),
      Option.join_some]
  · rw [Function.update_of_ne same, Shared.cell, put,
      List.getElem?_set_ne fun equal => same equal.symm]
    rfl

@[simp] theorem Shared.cell_put_self {shared : Shared Code Error} {id : CoroId} {coro : Coro Code}
    (found : shared.cell id = some coro) (cell : Option (Coro Code)) :
    (shared.put id cell).cell id = cell := by
  rw [Shared.cell_put found, Function.update_self]

theorem Shared.store_put {shared : Shared Code Error} {id : CoroId} {coro : Coro Code}
    (found : shared.cell id = some coro) (cell : Option (Coro Code)) :
    (shared.put id cell).store = shared.store.put id cell := by
  rw [store, Shared.cell_put found]
  rfl

end Put

/-! ## The functions that the steps are made of -/

section Runs

variable {view : View Code Error} {post : PUnit → View Code Error → Prop}

@[simp] theorem runs_verify (condition : Bool) (text : String) :
    Runs (verify condition text) view post ↔ condition = true ∧ post ⟨⟩ view := by
  cases condition <;> simp [verify]

@[simp] theorem runs_verifyInsideCoro (inside : Bool) (text : String) :
    Runs (verifyInsideCoro inside text) view post ↔
      view.thread.coro.isSome = inside ∧ post ⟨⟩ view := by
  simp [verifyInsideCoro]

@[simp] theorem runs_readCoro (id : CoroId) (post : Coro Code → View Code Error → Prop) :
    Runs (readCoro id) view post ↔ ∃ coro, view.shared.cell id = some coro ∧ post coro view := by
  simp [readCoro]

@[simp] theorem runs_writeCoro (id : CoroId) (cell : Option (Coro Code)) :
    Runs (writeCoro id cell) view post ↔
      post ⟨⟩ { view with shared := view.shared.put id cell } := by
  rw [writeCoro, runs_modify]
  rfl

@[simp] theorem runs_writeThread (change : Thread Error → Thread Error) :
    Runs (writeThread change) view post ↔ post ⟨⟩ { view with thread := change view.thread } := by
  rw [writeThread, runs_modify]

@[simp] theorem runs_go (handler : Code) :
    Runs (go handler) view post ↔ post ⟨⟩ { view with
      shared := { view.shared with ready := view.shared.ready ++ [.create handler] } } := by
  rw [go, Coroutines.post, runs_modify]

theorem runs_jump0 {id : CoroId} {coro : Coro Code} (found : view.shared.cell id = some coro)
    (constructing : Bool) : Runs (jump0 id constructing) view post ↔
      post ⟨⟩ ⟨{ view.thread with coro := some id, place := .inside id },
        view.shared.put id (some { coro with
          running := true, savedContext := some ⟨view.thread.coro, constructing⟩ })⟩ := by
  simp [jump0, found]

/-- The coroutine goes back to where it was entered. -/
theorem runs_yield0 {id : CoroId} {coro : Coro Code} {context : SavedContext}
    (found : view.shared.cell id = some coro) (saved : coro.savedContext = some context)
    (noException : coro.exc = false)
    (reached : post ⟨⟩ ⟨{ view.thread with coro := context.old, place := .completing id },
      view.shared.put id (some { coro with running := false })⟩) :
    Runs (yield0 id) view post := by
  simpa [yield0, found, saved, noException] using reached

theorem runs_yield0_exc {id : CoroId} {coro : Coro Code} {context : SavedContext}
    (found : view.shared.cell id = some coro) (saved : coro.savedContext = some context)
    (exception : coro.exc = true)
    (reached : post ⟨⟩ ⟨{ view.thread with coro := context.old, place := .ended },
      view.shared.put id (if context.constructing then none
        else some { coro with running := false })⟩) :
    Runs (yield0 id) view post := by
  simpa [yield0, found, saved, exception] using reached

end Runs

/-! ## The steps -/

def View.parties (view : View Code Error) : List (Party Code Error) :=
  .thread view.thread :: view.shared.parties

section Steps

variable {behaviour : Behaviour Code Error} {view : View Code Error}

/-- What is seen of the next step of the thread. -/
def View.label (view : View Code Error) : Option (Label Code Error) :=
  view.thread.label (view.thread.place.coro.bind view.shared.cell)

private theorem label_outside (outside : ∀ id, view.thread.place ≠ .inside id) :
    view.label = none := by
  unfold View.label Thread.label
  split
  · rename_i id coro place found
    exact absurd place (outside id)
  · rfl

private theorem trade_thread {label : Option (Label Code Error)} {thread : Thread Error}
    {shared : Shared Code Error} (same : shared.parties = view.shared.parties)
    (trades : Trades behaviour label [.thread view.thread] view.shared.store [.thread thread]
      shared.store) :
    Trade behaviour label view.parties view.shared.store (View.mk thread shared).parties shared.store := by
  refine ⟨_, _, view.shared.parties, Perm.refl _, ?_, trades⟩
  rw [View.parties, same]
  exact Perm.refl _

private theorem parties_post (shared : Shared Code Error) (task : Task Code Error) :
    Perm ({ shared with ready := shared.ready ++ [task] } : Shared Code Error).parties
      (.task task :: shared.parties) := by
  rw [Shared.parties, List.map_append, ← List.append_assoc]
  exact List.perm_append_singleton _ _

private theorem parties_begin (shared : Shared Code Error) (pending : Pending Code) (sockets : Nat) :
    Perm ({ shared with pending := shared.pending ++ [pending], sockets := sockets } :
        Shared Code Error).parties (.pending pending :: shared.parties) := by
  rw [Shared.parties, List.map_append, List.append_assoc]
  exact List.perm_middle

theorem runs_runInside {id : CoroId} (place : view.thread.place = .inside id)
    (suits : SuitsThread view.thread (view.shared.cell id)) :
    Runs (runInside behaviour id) view fun _ after =>
      Trade behaviour view.label view.parties view.shared.store after.parties after.shared.store := by
  simp only [SuitsThread, place] at suits
  obtain ⟨current, noHandler, coro, found, inside⟩ := suits
  obtain ⟨constructing, context⟩ := inside.context
  have found' : view.shared.store.cells id = some coro := found
  rw [runInside, runs_bind, runs_readCoro]
  refine ⟨coro, found, ?_⟩
  cases called : coro.call with
  | some call =>
      have unseen : view.label = none := by
        simp [View.label, Thread.label, place, Place.coro, found, called]
      rw [unseen]
      simp only [deferReturns, runs_bind, runs_get, runs_readCoro, runs_writeCoro]
      refine ⟨coro, found, trade_thread rfl ?_⟩
      rw [Shared.store_put found]
      exact .deferReturns place found' called
  | none =>
      have acting : view.label = some (.acts coro.code) := by
        simp [View.label, Thread.label, place, Place.coro, found, called]
      rw [acting]
      cases acts : behaviour.act coro.code with
      | finish =>
          simp only [runs_bind, runs_writeCoro]
          refine runs_yield0 (Shared.cell_put_self found _) context inside.noException ?_
          refine trade_thread rfl ?_
          rw [Shared.put_put, Shared.store_put found]
          simpa only [called] using Trades.finish place found' called acts
      | raise =>
          simp only [runs_bind, runs_writeCoro]
          refine runs_yield0_exc (Shared.cell_put_self found _) context rfl ?_
          refine trade_thread rfl ?_
          rw [Shared.put_put, Shared.store_put found]
          simpa only [called] using Trades.raise place found' called acts
      | go handler next =>
          simp only [runs_bind, runs_writeCoro, runs_go]
          refine ⟨[.thread view.thread], [.thread view.thread, .task (.create handler)],
            view.shared.parties, Perm.refl _, ?_, ?_⟩
          · exact (parties_post (view.shared.put id _) _).cons _
          · change Trades behaviour _ _ _ _ (view.shared.put id _).store
            rw [Shared.store_put found]
            simpa only [called] using Trades.go place found' called acts
      | defer operation =>
          simp only [request, defer, yield, runs_bind, runs_verifyInsideCoro, runs_verify, runs_get,
            runs_readCoro, runs_writeCoro, runs_writeThread, current, noHandler]
          refine ⟨rfl, rfl, rfl, coro, found, rfl, ?_⟩
          refine runs_yield0 (Shared.cell_put_self found _) context inside.noException ?_
          refine trade_thread rfl ?_
          rw [Shared.put_put, Shared.store_put found]
          simpa only [called] using Trades.defer place found' called acts

theorem runs_onCoroComplete {id : CoroId} (place : view.thread.place = .completing id)
    (suits : SuitsThread view.thread (view.shared.cell id)) :
    Runs (onCoroComplete id) view fun _ after =>
      Trade behaviour none view.parties view.shared.store after.parties after.shared.store := by
  simp only [SuitsThread, place] at suits
  obtain ⟨outside, cases_⟩ := suits
  simp only [onCoroComplete, runs_bind, runs_verifyInsideCoro, runs_verify, runs_get,
    runs_readCoro, outside]
  cases cases_ with
  | inl finished =>
      obtain ⟨noHandler, coro, found, finished⟩ := finished
      refine ⟨rfl, coro, found, ?_, ?_⟩
      · rw [noHandler, Coro.isStarted, finished.started, finished.running]
        rfl
      · simp only [noHandler, runs_bind, runs_writeCoro, runs_writeThread]
        refine trade_thread rfl ?_
        rw [Shared.store_put found]
        have trades : Trades behaviour none _ view.shared.store _ _ := .completeFinished place noHandler
        simpa only [noHandler] using trades
  | inr suspended =>
      obtain ⟨call, pointed, coro, found, suspended⟩ := suspended
      refine ⟨rfl, coro, found, ?_, ?_⟩
      · rw [pointed, Coro.isStarted, suspended.started]
        rfl
      · simp only [pointed, runs_writeThread]
        refine trade_thread rfl ?_
        have trades : Trades behaviour none _ view.shared.store _ _ := .completeDeferred place pointed
        simpa only [pointed] using trades

theorem runs_callDeferHandler {id : CoroId} (place : view.thread.place = .deferring id)
    (suits : SuitsThread view.thread (view.shared.cell id)) :
    Runs (callDeferHandler id) view fun _ after =>
      Trade behaviour none view.parties view.shared.store after.parties after.shared.store := by
  simp only [SuitsThread, place] at suits
  obtain ⟨outside, call, pointed, coro, found, suspended⟩ := suits
  have parameter : coro.parameter call.number = some call.handler := by
    simp [Coro.parameter, suspended.called]
  simp only [callDeferHandler, runs_bind, runs_get, pointed, runs_readCoro, runs_orFault,
    runs_verifyInsideCoro, outside]
  refine ⟨coro, found, call.handler, parameter, rfl, ?_⟩
  cases handler : call.handler with
  | transfer socket request =>
      simp only [begin_, runs_modify, runs_writeThread]
      refine ⟨_, _, view.shared.parties, Perm.refl _, ?_,
        .transfer place found suspended.called handler⟩
      exact (parties_begin view.shared _ _).cons _
  | goAccept handler' =>
      simp only [begin_, runs_modify, runs_writeThread]
      refine ⟨_, _, view.shared.parties, Perm.refl _, ?_,
        .accept place found suspended.called handler⟩
      exact (parties_begin view.shared _ _).cons _

/-- A thread does what it does next. -/
theorem runs_runThread
    (suits : SuitsThread view.thread (view.thread.place.coro.bind view.shared.cell)) :
    Runs (runThread behaviour) view fun _ after => after = view ∧ view.label = none ∨
      Trade behaviour view.label view.parties view.shared.store after.parties after.shared.store := by
  rw [runThread, runs_bind, runs_get]
  have outside : (∀ id, view.thread.place ≠ .inside id) → view.label = none := label_outside
  cases place : view.thread.place with
  | run => exact (runs_pure ..).mpr (.inl ⟨rfl, outside (by simp [place])⟩)
  | ended => exact (runs_pure ..).mpr (.inl ⟨rfl, outside (by simp [place])⟩)
  | inside id =>
      rw [place] at suits
      exact (runs_runInside place suits).mono fun _ _ => .inr
  | completing id =>
      rw [place] at suits
      rw [outside (by simp [place])]
      exact (runs_onCoroComplete place suits).mono fun _ _ => .inr
  | deferring id =>
      rw [place] at suits
      rw [outside (by simp [place])]
      exact (runs_callDeferHandler place suits).mono fun _ _ => .inr
  | deferred =>
      rw [outside (by simp [place])]
      simp only [deferHandlerReturns, runs_writeThread]
      exact .inr (trade_thread rfl (.deferHandlerReturns place))

/-! ## The tasks -/

private theorem parties_take {shared : Shared Code Error} {index : Nat} {task : Task Code Error}
    (chosen : shared.ready[index]? = some task) :
    Perm shared.parties
      (.task task :: ({ shared with ready := shared.ready.eraseIdx index } : Shared _ _).parties) := by
  obtain ⟨inside, rfl⟩ := List.getElem?_eq_some_iff.mp chosen
  have split := (List.getElem_cons_eraseIdx_perm inside).symm.map (@Party.task Code Error)
  exact (split.append_left _).trans List.perm_middle

theorem runs_resume {id : CoroId} (waiting : Waiting (view.shared.cell id))
    {post : PUnit → View Code Error → Prop}
    (reached : ∀ coro, view.shared.cell id = some coro →
      post ⟨⟩ ⟨{ view.thread with coro := some id, place := .inside id },
        view.shared.put id (some { coro with
          running := true, savedContext := some ⟨view.thread.coro, false⟩ })⟩) :
    Runs (resume id) view post := by
  obtain ⟨coro, found, call, suspended⟩ := waiting
  simp only [resume, runs_bind, runs_readCoro, runs_verify]
  refine ⟨coro, found, suspended.started, ?_, ?_⟩
  · rw [suspended.running]
    rfl
  · exact (runs_jump0 found false).mpr (reached coro found)

private theorem cell_append (shared : Shared Code Error) (coro : Coro Code) :
    ({ shared with coros := shared.coros ++ [some coro] } : Shared Code Error).cell =
      Function.update shared.cell shared.coros.length (some coro) := by
  funext other
  unfold Shared.cell
  by_cases same : other = shared.coros.length
  · subst same
    rw [Function.update_self, List.getElem?_concat_length, Option.join_some]
  · rw [Function.update_of_ne same]
    by_cases inside : other < shared.coros.length
    · rw [List.getElem?_append_left inside]
    · rw [List.getElem?_eq_none, List.getElem?_eq_none] <;> grind

private theorem cell_length (shared : Shared Code Error) : shared.cell shared.coros.length = none := by
  rw [Shared.cell, List.getElem?_eq_none (Nat.le_refl _), Option.join_none]

theorem runs_create (handler : Code) (place : view.thread.place = .run) :
    Runs (perform (.create handler)) view fun _ after =>
      Trade behaviour none (.task (.create handler) :: view.parties) view.shared.store
        after.parties after.shared.store := by
  simp only [perform, runs_bind, runs_get, runs_modify, start, runs_readCoro, runs_verify,
    runs_writeCoro]
  let id := view.shared.coros.length
  let fresh : Coro Code := ⟨false, false, false, none, handler, none, 0⟩
  let created : Shared Code Error := { view.shared with coros := view.shared.coros ++ [some fresh] }
  have cells : created.cell = Function.update view.shared.cell id (some fresh) :=
    cell_append view.shared fresh
  have found : created.cell id = some fresh := by rw [cells, Function.update_self]
  refine ⟨fresh, found, rfl, ?_⟩
  refine (runs_jump0 (Shared.cell_put_self found _) true).mpr ?_
  refine ⟨[.thread view.thread, .task (.create handler)],
    [.thread { view.thread with coro := some id, place := .inside id }], view.shared.parties,
    List.Perm.swap _ _ _, Perm.refl _, ?_⟩
  have stored : ∀ cell, (created.put id cell).store = view.shared.store.put id cell := by
    intro cell
    rw [Shared.store_put found, Shared.store, cells, Store.put, Function.update_idem]
    rfl
  rw [Shared.put_put, stored]
  exact .create place (cell_length view.shared)

theorem runs_onComplete {id : CoroId} {error : Option Error} (outside : view.thread.coro = none)
    (waiting : Waiting (view.shared.cell id)) {post : PUnit → View Code Error → Prop}
    (reached : ∀ coro, view.shared.cell id = some coro →
      post ⟨⟩ ⟨{ view.thread with coro := some id, error := error, place := .inside id },
        view.shared.put id (some { coro with
          running := true, savedContext := some ⟨view.thread.coro, false⟩ })⟩) :
    Runs (onComplete id error) view post := by
  simp only [onComplete, runs_bind, runs_verifyInsideCoro, runs_writeThread, outside]
  refine ⟨rfl, ?_⟩
  apply runs_resume
  · exact waiting
  · intro coro found
    simpa only [outside] using reached coro found

theorem runs_perform {task : Task Code Error} (place : view.thread.place = .run)
    (outside : view.thread.coro = none) (suits : Suits (.task task) (task.coro.bind view.shared.cell)) :
    Runs (perform task) view fun _ after =>
      Trade behaviour none (.task task :: view.parties) view.shared.store
        after.parties after.shared.store := by
  cases task with
  | create handler => exact runs_create handler place
  | onComplete id error =>
      refine runs_onComplete outside suits fun coro found => ?_
      refine ⟨[.thread view.thread, .task (.onComplete id error)],
        .thread { view.thread with coro := some id, error := error, place := .inside id } ::
          List.map .task [], view.shared.parties, List.Perm.swap _ _ _, Perm.refl _, ?_⟩
      rw [Shared.store_put found]
      exact .resume place found (.inl ⟨rfl, rfl⟩)
  | onCompleteGo id handler error =>
      cases error with
      | some error =>
          change Runs (onComplete id (some error)) view _
          refine runs_onComplete outside suits fun coro found => ?_
          refine ⟨[.thread view.thread, .task (.onCompleteGo id handler (some error))],
            .thread { view.thread with coro := some id, error := some error, place := .inside id } ::
              List.map .task [], view.shared.parties, List.Perm.swap _ _ _, Perm.refl _, ?_⟩
          rw [Shared.store_put found]
          exact .resume place found (.inr ⟨handler, rfl, rfl⟩)
      | none =>
          change Runs (go handler >>= fun _ => onComplete id none) view _
          rw [runs_bind, runs_go]
          apply runs_onComplete
          · exact outside
          · exact suits
          intro coro found
          refine ⟨[.thread view.thread, .task (.onCompleteGo id handler none)],
            .thread { view.thread with coro := some id, error := none, place := .inside id } ::
              List.map .task [.create handler], view.shared.parties, List.Perm.swap _ _ _,
            (parties_post (view.shared.put id _) _).cons _, ?_⟩
          have found' : view.shared.cell id = some coro := found
          change Trades behaviour _ _ _ _ (view.shared.put id _).store
          rw [Shared.store_put found']
          exact .resume place found' (.inr ⟨handler, rfl, rfl⟩)

/-- A thread takes a task. -/
theorem runs_takeTask (index : Nat)
    (suits : SuitsThread view.thread (view.thread.place.coro.bind view.shared.cell))
    (tasks : ∀ task ∈ view.shared.ready, Suits (.task task) (task.coro.bind view.shared.cell)) :
    Runs (takeTask index) view fun _ after => after = view ∨
      Trade behaviour none view.parties view.shared.store after.parties after.shared.store := by
  rw [takeTask, runs_bind, runs_get]
  cases place : view.thread.place with
  | inside | completing | deferring | deferred | ended => exact (runs_pure ..).mpr (.inl rfl)
  | run =>
      simp only [SuitsThread, place] at suits
      obtain ⟨outside, -⟩ := suits
      cases chosen : view.shared.ready[index]? with
      | none => exact (runs_pure ..).mpr (.inl rfl)
      | some task =>
          rw [runs_bind, runs_set]
          have suited := tasks task (List.mem_of_getElem? chosen)
          let taken : View Code Error :=
            ⟨view.thread, { view.shared with ready := view.shared.ready.eraseIdx index }⟩
          have performs := @runs_perform _ _ behaviour taken task place outside suited
          refine performs.mono fun _ after traded => ?_
          obtain ⟨old, new, rest, before, reached, trades⟩ := traded
          refine .inr ⟨old, new, rest, Perm.trans ?_ before, reached, trades⟩
          exact ((parties_take chosen).cons _).trans (Perm.swap ..)

end Steps

end PersistentBTree.Coroutines
