import Mathlib.Logic.Function.Basic
import PersistentBTree.Coroutines.Coro
import PersistentBTree.Imperative.Ownership

/-! Who holds a coroutine: the thread on its stack or in its completion, the operation that
it waits for, or the task that will resume it. A step of the threads lets a few of these
parties trade; `Trades` lists what they can do, with every guard and with what is seen of it. -/

set_option autoImplicit false

namespace PersistentBTree.Coroutines

open Imperative
open List (Perm)

variable {Code Error : Type}

inductive Party (Code Error : Type) where
  | thread (thread : Thread Error)
  | pending (pending : Pending Code)
  | task (task : Task Code Error)

def Place.coro : Place → Option CoroId
  | .inside id | .completing id | .deferring id => some id
  | .run | .deferred | .ended => none

def Pending.coro : Pending Code → CoroId
  | .transfer id _ _ | .accept id _ _ => id

def Task.coro : Task Code Error → Option CoroId
  | .create _ => none
  | .onComplete id _ | .onCompleteGo id _ _ => some id

def Party.coro : Party Code Error → Option CoroId
  | .thread worker => worker.place.coro
  | .pending waiting => some waiting.coro
  | .task posted => posted.coro

@[simp] theorem Pending.coro_task (pending : Pending Code) (error : Option Error) :
    (pending.task error).coro = some pending.coro := by
  cases pending <;> rfl

/-! ## What a party knows of its coroutine -/

/-- A thread is on the stack of the coroutine. -/
structure Inside (coro : Coro Code) : Prop where
  started : coro.started = true
  running : coro.running = true
  noException : coro.exc = false
  context : ∃ constructing, coro.savedContext = some ⟨none, constructing⟩

/-- The coroutine has called `defer`. -/
structure Suspended (call : Call Code) (coro : Coro Code) : Prop where
  started : coro.started = true
  running : coro.running = false
  noException : coro.exc = false
  called : coro.call = some call

/-- The handler of the coroutine has returned. -/
structure Finished (coro : Coro Code) : Prop where
  started : coro.started = false
  running : coro.running = false
  noException : coro.exc = false

def SuitsThread (thread : Thread Error) (cell : Option (Coro Code)) : Prop :=
  match thread.place with
  | .run => thread.coro = none ∧ thread.deferHandler = none
  | .inside id =>
      thread.coro = some id ∧ thread.deferHandler = none ∧ ∃ coro, cell = some coro ∧ Inside coro
  | .completing id => thread.coro = none ∧
      ((thread.deferHandler = none ∧ ∃ coro, cell = some coro ∧ Finished coro) ∨
        ∃ call, thread.deferHandler = some ⟨id, call.number⟩ ∧
          ∃ coro, cell = some coro ∧ Suspended call coro)
  | .deferring id => thread.coro = none ∧ ∃ call,
      thread.deferHandler = some ⟨id, call.number⟩ ∧ ∃ coro, cell = some coro ∧ Suspended call coro
  | .deferred => thread.coro = none
  | .ended => thread.coro = none

def Waiting (cell : Option (Coro Code)) : Prop :=
  ∃ coro, cell = some coro ∧ ∃ call, Suspended call coro

/-- The operation is the one that the handler starts. -/
def Starts : Operation Code → Pending Code → Prop
  | .transfer socket request, pending => pending = .transfer pending.coro socket request
  | .goAccept handler, pending => ∃ socket, pending = .accept pending.coro socket (handler socket)

def Suits : Party Code Error → Option (Coro Code) → Prop
  | .thread thread, cell => SuitsThread thread cell
  | .pending pending, cell =>
      ∃ coro, cell = some coro ∧ ∃ call, Suspended call coro ∧ Starts call.handler pending
  | .task (.create _), _ => True
  | .task (.onComplete _ _), cell | .task (.onCompleteGo _ _ _), cell => Waiting cell

private theorem some_of_suits {party : Party Code Error} {id : CoroId}
    (holds : party.coro = some id) : ¬ Suits party none := by
  intro suits
  cases party with
  | thread thread =>
      change thread.place.coro = _ at holds
      change SuitsThread thread none at suits
      unfold SuitsThread at suits
      cases place : thread.place with
      | run | deferred | ended =>
          rw [place] at holds
          cases holds
      | inside | completing | deferring =>
          rw [place] at suits
          simp at suits
  | pending pending =>
      obtain ⟨coro, found, -⟩ := suits
      cases found
  | task task =>
      cases task with
      | create handler => cases holds
      | onComplete | onCompleteGo =>
          obtain ⟨coro, found, -⟩ := suits
          cases found

/-- A coroutine has to be held unless an exception has left it. -/
def ownership (Code Error : Type) : Ownership (Party Code Error) CoroId (Coro Code) where
  holds := Party.coro
  suits := Suits
  live := fun coro => coro.exc = false
  some_of_suits := some_of_suits

def Shared.parties (shared : Shared Code Error) : List (Party Code Error) :=
  shared.pending.map .pending ++ shared.ready.map .task

def Machine.parties (machine : Machine Code Error) : List (Party Code Error) :=
  machine.threads.map .thread ++ machine.shared.parties

/-- Every coroutine is held by exactly one party, which it suits. -/
def Machine.Owned (machine : Machine Code Error) : Prop :=
  Imperative.Owned (ownership Code Error) machine.parties machine.shared.cell

/-! ## What is seen of an event -/

/-- The code that goes on, and how its operation has ended. -/
inductive Label (Code Error : Type) where
  | acts (code : Code)
  | transferred (code : Code) (socket : SocketId) (request : Request) (error : Option Error)
  | accepted (code : Code) (socket : SocketId) (error : Option Error)

def Pending.label (pending : Pending Code) (code : Code) (error : Option Error) :
    Label Code Error :=
  match pending with
  | .transfer _ socket request => .transferred code socket request error
  | .accept _ socket _ => .accepted code socket error

/-- The code inside a coroutine acts, unless a `defer` has to return first. -/
def Thread.label (thread : Thread Error) (cell : Option (Coro Code)) : Option (Label Code Error) :=
  match thread.place, cell with
  | .inside _, some coro => if coro.call.isNone then some (.acts coro.code) else none
  | _, _ => none

def Machine.label (machine : Machine Code Error) : Event Error → Option (Label Code Error)
  | .run thread => machine.threads[thread]?.bind fun worker =>
      worker.label (worker.place.coro.bind machine.shared.cell)
  | .take _ _ => none
  | .ended operation error => machine.shared.pending[operation]?.bind fun pending =>
      (machine.shared.cell pending.coro).map fun coro => pending.label coro.code error

/-! ## The trades -/

/-- What the threads share, apart from the parties. -/
structure Store (Code : Type) where
  cells : CoroId → Option (Coro Code)
  sockets : Nat

def Store.put (store : Store Code) (id : CoroId) (cell : Option (Coro Code)) : Store Code :=
  { store with cells := Function.update store.cells id cell }

def Shared.store (shared : Shared Code Error) : Store Code := ⟨shared.cell, shared.sockets⟩

/-- What is seen of a step, what the parties that take part in it become, and what becomes of
the store. -/
inductive Trades (behaviour : Behaviour Code Error) : Option (Label Code Error) →
    List (Party Code Error) → Store Code → List (Party Code Error) → Store Code → Prop
  | create {thread : Thread Error} {handler : Code} {store : Store Code} {id : CoroId}
      (place : thread.place = .run) (fresh : store.cells id = none) :
      Trades behaviour none [.thread thread, .task (.create handler)] store
        [.thread { thread with coro := some id, place := .inside id }]
        (store.put id (some ⟨true, true, false, some ⟨thread.coro, true⟩, handler, none, 0⟩))
  | resume {thread : Thread Error} {task : Task Code Error} {posted : List (Task Code Error)}
      {error : Option Error} {store : Store Code} {id : CoroId} {coro : Coro Code}
      (place : thread.place = .run) (found : store.cells id = some coro)
      (completes : (task = .onComplete id error ∧ posted = []) ∨
        ∃ handler, task = .onCompleteGo id handler error ∧
          posted = if error.isNone then [.create handler] else []) :
      Trades behaviour none [.thread thread, .task task] store
        (.thread { thread with coro := some id, error := error, place := .inside id } ::
          posted.map .task)
        (store.put id (some { coro with running := true, savedContext := some ⟨thread.coro, false⟩ }))
  | deferReturns {thread : Thread Error} {store : Store Code} {id : CoroId} {coro : Coro Code}
      {call : Call Code} (place : thread.place = .inside id) (found : store.cells id = some coro)
      (called : coro.call = some call) :
      Trades behaviour none [.thread thread] store [.thread thread] (store.put id
        (some { coro with call := none, code := behaviour.resume coro.code thread.error }))
  | finish {thread : Thread Error} {store : Store Code} {id : CoroId} {coro : Coro Code}
      (place : thread.place = .inside id) (found : store.cells id = some coro)
      (idle : coro.call = none) (acts : behaviour.act coro.code = .finish) :
      Trades behaviour (some (.acts coro.code)) [.thread thread] store
        [.thread { thread with coro := none, place := .completing id }]
        (store.put id (some { coro with started := false, running := false }))
  | raise {thread : Thread Error} {store : Store Code} {id : CoroId} {coro : Coro Code}
      {constructing : Bool} (place : thread.place = .inside id)
      (found : store.cells id = some coro) (idle : coro.call = none)
      (acts : behaviour.act coro.code = .raise) :
      Trades behaviour (some (.acts coro.code)) [.thread thread] store
        [.thread { thread with coro := none, place := .ended }]
        (store.put id (if constructing then none
          else some { coro with started := false, exc := true, running := false }))
  | go {thread : Thread Error} {store : Store Code} {id : CoroId} {coro : Coro Code}
      {handler next : Code} (place : thread.place = .inside id)
      (found : store.cells id = some coro) (idle : coro.call = none)
      (acts : behaviour.act coro.code = .go handler next) :
      Trades behaviour (some (.acts coro.code)) [.thread thread] store
        [.thread thread, .task (.create handler)]
        (store.put id (some { coro with code := next }))
  | defer {thread : Thread Error} {store : Store Code} {id : CoroId} {coro : Coro Code}
      {operation : Operation Code} (place : thread.place = .inside id)
      (found : store.cells id = some coro) (idle : coro.call = none)
      (acts : behaviour.act coro.code = .defer operation) :
      Trades behaviour (some (.acts coro.code)) [.thread thread] store
        [.thread { thread with
          coro := none, deferHandler := some ⟨id, coro.calls⟩, place := .completing id }]
        (store.put id (some { coro with
          call := some ⟨coro.calls, operation⟩, calls := coro.calls + 1, running := false }))
  | completeDeferred {thread : Thread Error} {store : Store Code} {id : CoroId}
      {pointer : HandlerPointer} (place : thread.place = .completing id)
      (pointed : thread.deferHandler = some pointer) :
      Trades behaviour none [.thread thread] store
        [.thread { thread with place := .deferring id }] store
  | completeFinished {thread : Thread Error} {store : Store Code} {id : CoroId}
      (place : thread.place = .completing id) (pointed : thread.deferHandler = none) :
      Trades behaviour none [.thread thread] store [.thread { thread with place := .run }]
        (store.put id none)
  | transfer {thread : Thread Error} {store : Store Code} {id : CoroId} {coro : Coro Code}
      {call : Call Code} {socket : SocketId} {request : Request}
      (place : thread.place = .deferring id) (found : store.cells id = some coro)
      (called : coro.call = some call) (handler : call.handler = .transfer socket request) :
      Trades behaviour none [.thread thread] store
        [.thread { thread with place := .deferred }, .pending (.transfer id socket request)] store
  | accept {thread : Thread Error} {store : Store Code} {id : CoroId} {coro : Coro Code}
      {call : Call Code} {handler : SocketId → Code}
      (place : thread.place = .deferring id) (found : store.cells id = some coro)
      (called : coro.call = some call) (accepts : call.handler = .goAccept handler) :
      Trades behaviour none [.thread thread] store
        [.thread { thread with place := .deferred },
          .pending (.accept id store.sockets (handler store.sockets))]
        { store with sockets := store.sockets + 1 }
  | deferHandlerReturns {thread : Thread Error} {store : Store Code}
      (place : thread.place = .deferred) :
      Trades behaviour none [.thread thread] store
        [.thread { thread with deferHandler := none, place := .run }] store
  | ended {pending : Pending Code} {error : Option Error} {store : Store Code} {coro : Coro Code}
      (found : store.cells pending.coro = some coro) :
      Trades behaviour (some (pending.label coro.code error)) [.pending pending] store
        [.task (pending.task error)] store

/-- Some parties trade while the rest does nothing. -/
def Trade (behaviour : Behaviour Code Error) (label : Option (Label Code Error))
    (parties : List (Party Code Error)) (store : Store Code) (parties' : List (Party Code Error))
    (store' : Store Code) : Prop :=
  ∃ old new rest, Perm parties (old ++ rest) ∧ Perm parties' (new ++ rest) ∧
    Trades behaviour label old store new store'

def Machine.Trades (behaviour : Behaviour Code Error) (label : Option (Label Code Error))
    (machine machine' : Machine Code Error) : Prop :=
  Trade behaviour label machine.parties machine.shared.store machine'.parties machine'.shared.store

end PersistentBTree.Coroutines
