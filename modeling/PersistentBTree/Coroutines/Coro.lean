import PersistentBTree.Imperative.Runs
import PersistentBTree.Sockets.ReadUntil

/-! The coroutines of the server and the threads that run them. Every thread of `dispatch`
takes tasks from one `io_service`; a task creates a coroutine or resumes one, and a coroutine
that has to wait for an operation hands its thread back with `defer`. The coroutines, the
operations under way and the tasks are shared, while `t_coro`, `t_deferHandler` and `t_error`
belong to a thread.

A thread runs in steps, between which others may run. The code inside a coroutine returns,
throws, calls `go` or waits for an operation of a socket. It is given by which of these it does
next and by how it goes on after a `defer`. Code that calls `yield`, `run` or `dispatch`, that
makes a `Coro` itself or gives `defer` a handler of its own is not covered. -/

set_option autoImplicit false

namespace PersistentBTree.Coroutines

open Imperative

abbrev Buffer := Sockets.Buffer
abbrev CoroId := Nat
abbrev SocketId := Nat

inductive Request where
  | readSome
  | readUntil (until_ : Buffer)
  | write (buffer : Buffer)

/-- The handlers that are given to `defer`. -/
inductive Operation (Code : Type) where
  | transfer (socket : SocketId) (request : Request)
  | goAccept (handler : SocketId → Code)

inductive Action (Code : Type) where
  /-- The handler of the coroutine returns. -/
  | finish
  /-- An exception leaves the handler. -/
  | raise
  | go (handler next : Code)
  | defer (operation : Operation Code)

/-- The code inside coroutines. After a `defer` it goes on according to the error, with
which the operation has ended and which `defer` throws. -/
structure Behaviour (Code Error : Type) where
  act : Code → Action Code
  resume : Code → Option Error → Code

/-! ## The state -/

/-- A call of `defer` that has not returned, with its parameter. -/
structure Call (Code : Type) where
  number : Nat
  handler : Operation Code

/-- Where `yield0` jumps to: `jump0`, called by the constructor or by `resume`. -/
structure SavedContext where
  old : Option CoroId
  constructing : Bool

structure Coro (Code : Type) where
  started : Bool
  running : Bool
  /-- An exception is kept in `exc`. -/
  exc : Bool
  savedContext : Option SavedContext
  /-- What its stack is about to run. -/
  code : Code
  call : Option (Call Code)
  calls : Nat

/-- A pointer to the parameter of a call of `defer`. -/
structure HandlerPointer where
  coro : CoroId
  number : Nat

inductive Place where
  /-- In `io_service::run`, between two tasks. -/
  | run
  /-- On the stack of a coroutine. -/
  | inside (coro : CoroId)
  /-- In `onCoroComplete`. -/
  | completing (coro : CoroId)
  /-- In the handler that was deferred, which has not started the operation. -/
  | deferring (coro : CoroId)
  /-- In the handler that was deferred, which has started the operation. -/
  | deferred
  /-- An exception has left `io_service::run`. -/
  | ended

structure Thread (Error : Type) where
  coro : Option CoroId
  deferHandler : Option HandlerPointer
  error : Option Error
  place : Place

/-- What the `io_service` calls. -/
inductive Task (Code Error : Type) where
  | create (handler : Code)
  | onComplete (coro : CoroId) (error : Option Error)
  | onCompleteGo (coro : CoroId) (handler : Code) (error : Option Error)

/-- An operation under way, with the coroutine that waits for it. -/
inductive Pending (Code : Type) where
  | transfer (coro : CoroId) (socket : SocketId) (request : Request)
  | accept (coro : CoroId) (socket : SocketId) (handler : Code)

/-- Coroutines that were deleted are `none`. -/
structure Shared (Code Error : Type) where
  coros : List (Option (Coro Code))
  pending : List (Pending Code)
  ready : List (Task Code Error)
  sockets : Nat

/-- What a thread reads and writes. -/
structure View (Code Error : Type) where
  thread : Thread Error
  shared : Shared Code Error

inductive Fault where
  /-- `VERIFY` fails. -/
  | verify (text : String)
  /-- A coroutine is used that was deleted. -/
  | deleted
  /-- The handler is called that `t_deferHandler` points to, and was destroyed. -/
  | destroyed
  /-- A coroutine yields that was never jumped to. -/
  | noContext
  deriving DecidableEq

abbrev Step (Code Error : Type) := Program (View Code Error) Fault

variable {Code Error : Type}

def Operation.name : Operation Code → String
  | .transfer _ .readSome => "readSome"
  | .transfer _ (.readUntil _) => "readUntil"
  | .transfer _ (.write _) => "write"
  | .goAccept _ => "goAccept"

/-- The handler that the operation calls when it has ended. -/
def Pending.task (error : Option Error) : Pending Code → Task Code Error
  | .transfer coro _ _ => .onComplete coro error
  | .accept coro _ handler => .onCompleteGo coro handler error

def Shared.cell (shared : Shared Code Error) (id : CoroId) : Option (Coro Code) :=
  shared.coros[id]?.join

/-- The parameter that the pointer refers to, while it exists. -/
def Coro.parameter (coro : Coro Code) (number : Nat) : Option (Operation Code) :=
  match coro.call with
  | some call => if call.number = number then some call.handler else none
  | none => none

def Coro.isStarted (coro : Coro Code) : Bool := coro.started || coro.running

/-! ## The steps of a thread -/

def verify (condition : Bool) (text : String) : Step Code Error Unit :=
  if condition then pure () else throw (.verify text)

def readCoro (id : CoroId) : Step Code Error (Coro Code) := do
  let view ← get
  orFault .deleted (view.shared.cell id)

def writeCoro (id : CoroId) (coro : Option (Coro Code)) : Step Code Error Unit :=
  modify fun view => { view with
    shared := { view.shared with coros := view.shared.coros.set id coro } }

def writeThread (change : Thread Error → Thread Error) : Step Code Error Unit :=
  modify fun view => { view with thread := change view.thread }

def post (task : Task Code Error) : Step Code Error Unit :=
  modify fun view => { view with
    shared := { view.shared with ready := view.shared.ready ++ [task] } }

/-- `isInsideCoro` has this value. -/
def verifyInsideCoro (inside : Bool) (text : String) : Step Code Error Unit := do
  let view ← get
  verify (view.thread.coro.isSome == inside) text

/-- `jump0` up to the jump. -/
def jump0 (id : CoroId) (constructing : Bool) : Step Code Error Unit := do
  let view ← get
  let coro ← readCoro id
  writeThread fun thread => { thread with coro := some id, place := .inside id }
  writeCoro id (some { coro with
    running := true, savedContext := some ⟨view.thread.coro, constructing⟩ })

/-- `jump0` from where `yield0` jumps to. An exception leaves the constructor, which deletes
the coroutine, or `resume`. -/
def yield0 (id : CoroId) : Step Code Error Unit := do
  let coro ← readCoro id
  let context ← orFault .noContext coro.savedContext
  if coro.exc then
    writeThread fun thread => { thread with coro := context.old, place := .ended }
    writeCoro id (if context.constructing then none else some { coro with running := false })
  else
    writeThread fun thread => { thread with coro := context.old, place := .completing id }
    writeCoro id (some { coro with running := false })

def yield : Step Code Error Unit := do
  verifyInsideCoro true "yield() outside coro"
  let view ← get
  match view.thread.coro with
  | some id => yield0 id
  | none => pure ()

/-- `start`, and the statements of `starter0` before the handler is called. -/
def start (id : CoroId) (handler : Code) : Step Code Error Unit := do
  let coro ← readCoro id
  verify (!coro.isStarted) "Trying to start already started coro"
  writeCoro id (some { coro with code := handler, started := true, exc := false })
  jump0 id true

def resume (id : CoroId) : Step Code Error Unit := do
  let coro ← readCoro id
  verify coro.started "Cannot resume: not started"
  verify (!coro.running) "Cannot resume: in running state"
  jump0 id false

/-- `defer` up to where the coroutine `id`, whose code calls it, is suspended. -/
def defer (id : CoroId) (operation : Operation Code) : Step Code Error Unit := do
  verifyInsideCoro true "defer() outside coro"
  let view ← get
  verify view.thread.deferHandler.isNone "There is unexecuted defer handler"
  let coro ← readCoro id
  writeCoro id (some { coro with call := some ⟨coro.calls, operation⟩, calls := coro.calls + 1 })
  writeThread fun thread => { thread with deferHandler := some ⟨id, coro.calls⟩ }
  yield

/-- `defer` from where it was suspended, with the exception that `handleError` may throw. -/
def deferReturns (behaviour : Behaviour Code Error) (id : CoroId) : Step Code Error Unit := do
  let view ← get
  let coro ← readCoro id
  writeCoro id (some { coro with
    call := none, code := behaviour.resume coro.code view.thread.error })

/-- `readSome`, `readUntil`, `write` or `goAccept`. -/
def request (id : CoroId) (operation : Operation Code) : Step Code Error Unit := do
  verifyInsideCoro true (operation.name ++ " must be called inside coro")
  defer id operation

def go (handler : Code) : Step Code Error Unit := post (.create handler)

/-- The next thing that the code inside a coroutine does. -/
def runInside (behaviour : Behaviour Code Error) (id : CoroId) : Step Code Error Unit := do
  let coro ← readCoro id
  match coro.call with
  | some _ => deferReturns behaviour id
  | none =>
      match behaviour.act coro.code with
      | .finish =>
          writeCoro id (some { coro with started := false })
          yield0 id
      | .raise =>
          writeCoro id (some { coro with started := false, exc := true })
          yield0 id
      | .go handler next =>
          writeCoro id (some { coro with code := next })
          go handler
      | .defer operation => request id operation

/-- `onCoroComplete` up to the call of the handler that was deferred. -/
def onCoroComplete (id : CoroId) : Step Code Error Unit := do
  verifyInsideCoro false "Complete inside coro"
  let view ← get
  let coro ← readCoro id
  verify (coro.isStarted == view.thread.deferHandler.isSome)
    "Unexpected condition in defer/started state"
  match view.thread.deferHandler with
  | some _ => writeThread fun thread => { thread with place := .deferring id }
  | none =>
      writeCoro id none
      writeThread fun thread => { thread with place := .run }

/-- What the handler that was deferred starts. An accept takes a new socket. -/
def begin_ (id : CoroId) : Operation Code → Step Code Error Unit
  | .transfer socket request =>
      modify fun view => { view with shared := { view.shared with
        pending := view.shared.pending ++ [.transfer id socket request] } }
  | .goAccept handler =>
      modify fun view => { view with shared := { view.shared with
        pending := view.shared.pending ++ [.accept id view.shared.sockets (handler view.shared.sockets)]
        sockets := view.shared.sockets + 1 } }

/-- The handler that `t_deferHandler` points to, up to the start of the operation. -/
def callDeferHandler (id : CoroId) : Step Code Error Unit := do
  let view ← get
  match view.thread.deferHandler with
  | some pointer =>
      let coro ← readCoro pointer.coro
      let operation ← orFault .destroyed (coro.parameter pointer.number)
      verifyInsideCoro false (operation.name ++ " completion must be called outside coro")
      begin_ id operation
      writeThread fun thread => { thread with place := .deferred }
  | none => throw .destroyed

/-- The handler has returned. -/
def deferHandlerReturns : Step Code Error Unit :=
  writeThread fun thread => { thread with deferHandler := none, place := .run }

/-- `onComplete` up to where the coroutine goes on. -/
def onComplete (id : CoroId) (error : Option Error) : Step Code Error Unit := do
  verifyInsideCoro false "Completion inside coro"
  writeThread fun thread => { thread with error := error }
  resume id

def perform : Task Code Error → Step Code Error Unit
  | .create handler => do
      let view ← get
      let id := view.shared.coros.length
      modify fun view => { view with shared := { view.shared with
        coros := view.shared.coros ++ [some ⟨false, false, false, none, handler, none, 0⟩] } }
      start id handler
  | .onComplete id error => onComplete id error
  | .onCompleteGo id handler error => do
      if error.isNone then go handler
      onComplete id error

/-- The next thing that a thread does. -/
def runThread (behaviour : Behaviour Code Error) : Step Code Error Unit := do
  let view ← get
  match view.thread.place with
  | .run => pure ()
  | .inside id => runInside behaviour id
  | .completing id => onCoroComplete id
  | .deferring id => callDeferHandler id
  | .deferred => deferHandlerReturns
  | .ended => pure ()

/-- A thread that has nothing else to do takes one of the tasks. -/
def takeTask (index : Nat) : Step Code Error Unit := do
  let view ← get
  match view.thread.place with
  | .run =>
      match view.shared.ready[index]? with
      | some task =>
          set { view with shared := { view.shared with ready := view.shared.ready.eraseIdx index } }
          perform task
      | none => pure ()
  | _ => pure ()

/-! ## The threads together -/

structure Machine (Code Error : Type) where
  threads : List (Thread Error)
  shared : Shared Code Error

inductive Event (Error : Type) where
  | run (thread : Nat)
  | take (thread task : Nat)
  /-- An operation ends. -/
  | ended (operation : Nat) (error : Option Error)

/-- One thread makes a step. -/
def Machine.withThread (machine : Machine Code Error) (index : Nat)
    (step : Step Code Error Unit) : Except Fault (Machine Code Error) :=
  match machine.threads[index]? with
  | some thread => do
      let (_, view) ← step.run ⟨thread, machine.shared⟩
      return ⟨machine.threads.set index view.thread, view.shared⟩
  | none => .ok machine

def Shared.ended (shared : Shared Code Error) (index : Nat) (error : Option Error) :
    Shared Code Error :=
  match shared.pending[index]? with
  | some pending => { shared with
      pending := shared.pending.eraseIdx index, ready := shared.ready ++ [pending.task error] }
  | none => shared

/-- Events that cannot happen change nothing. -/
def Machine.step (behaviour : Behaviour Code Error) (machine : Machine Code Error) :
    Event Error → Except Fault (Machine Code Error)
  | .run thread => machine.withThread thread (runThread behaviour)
  | .take thread task => machine.withThread thread (takeTask task)
  | .ended operation error => .ok { machine with shared := machine.shared.ended operation error }

def Machine.run (behaviour : Behaviour Code Error) (machine : Machine Code Error)
    (events : List (Event Error)) : Except Fault (Machine Code Error) :=
  events.foldlM (Machine.step behaviour) machine

/-- The threads that `dispatch` has in `run`, its own among them. -/
def dispatch (threadCount : Int) (hardwareConcurrency : Nat) : Nat :=
  let threads := if 0 < threadCount then threadCount.toNat else hardwareConcurrency
  (threads - 1) + 1

/-- `dispatch` has been called after `go` for each of the handlers. -/
def dispatched (handlers : List Code) (threadCount : Int) (hardwareConcurrency : Nat) :
    Machine Code Error where
  threads := List.replicate (dispatch threadCount hardwareConcurrency) ⟨none, none, none, .run⟩
  shared := ⟨[], [], handlers.map .create, 0⟩

end PersistentBTree.Coroutines
