import Mathlib.Data.Multiset.Basic
import Mathlib.Data.Set.Insert
import PersistentBTree.Coroutines.Parties

/-! What the coroutines are for: code that may wait for operations, written as if every
process simply blocked. There are no threads, tasks or completions here. `Machine.world` says
which processes the coroutines stand for. -/

set_option autoImplicit false

namespace PersistentBTree.Coroutines

variable {Code Error : Type}

inductive Process (Code : Type) where
  | runs (code : Code)
  | blocked (operation : Operation Code) (code : Code)

/-- The processes, the sockets that accepts have used up, and how many processes an exception
has left. -/
structure World (Code : Type) where
  processes : Multiset (Process Code)
  taken : Set SocketId
  raised : Nat

/-- A step, with what is seen of it. -/
inductive World.Steps (behaviour : Behaviour Code Error) :
    World Code → Label Code Error → World Code → Prop
  | finish {code : Code} {rest : Multiset (Process Code)} {taken : Set SocketId} {raised : Nat}
      (acts : behaviour.act code = .finish) :
      Steps behaviour ⟨.runs code ::ₘ rest, taken, raised⟩ (.acts code) ⟨rest, taken, raised⟩
  | raise {code : Code} {rest : Multiset (Process Code)} {taken : Set SocketId} {raised : Nat}
      (acts : behaviour.act code = .raise) :
      Steps behaviour ⟨.runs code ::ₘ rest, taken, raised⟩ (.acts code) ⟨rest, taken, raised + 1⟩
  | go {code handler next : Code} {rest : Multiset (Process Code)} {taken : Set SocketId}
      {raised : Nat} (acts : behaviour.act code = .go handler next) :
      Steps behaviour ⟨.runs code ::ₘ rest, taken, raised⟩ (.acts code)
        ⟨.runs next ::ₘ .runs handler ::ₘ rest, taken, raised⟩
  | defer {code : Code} {operation : Operation Code} {rest : Multiset (Process Code)}
      {taken : Set SocketId} {raised : Nat} (acts : behaviour.act code = .defer operation) :
      Steps behaviour ⟨.runs code ::ₘ rest, taken, raised⟩ (.acts code)
        ⟨.blocked operation code ::ₘ rest, taken, raised⟩
  | transferred {socket : SocketId} {request : Request} {code : Code} {error : Option Error}
      {rest : Multiset (Process Code)} {taken : Set SocketId} {raised : Nat} :
      Steps behaviour ⟨.blocked (.transfer socket request) code ::ₘ rest, taken, raised⟩
        (.transferred code socket request error)
        ⟨.runs (behaviour.resume code error) ::ₘ rest, taken, raised⟩
  | accepted {handler : SocketId → Code} {socket : SocketId} {code : Code}
      {rest : Multiset (Process Code)} {taken : Set SocketId} {raised : Nat}
      (fresh : socket ∉ taken) :
      Steps behaviour ⟨.blocked (.goAccept handler) code ::ₘ rest, taken, raised⟩
        (.accepted code socket none)
        ⟨.runs (behaviour.resume code none) ::ₘ .runs (handler socket) ::ₘ rest,
          insert socket taken, raised⟩
  | notAccepted {handler : SocketId → Code} {socket : SocketId} {code : Code} {error : Error}
      {rest : Multiset (Process Code)} {taken : Set SocketId} {raised : Nat}
      (fresh : socket ∉ taken) :
      Steps behaviour ⟨.blocked (.goAccept handler) code ::ₘ rest, taken, raised⟩
        (.accepted code socket (some error))
        ⟨.runs (behaviour.resume code (some error)) ::ₘ rest, insert socket taken, raised⟩

inductive World.Runs (behaviour : Behaviour Code Error) (start : World Code) :
    List (Label Code Error) → World Code → Prop
  | nil : Runs behaviour start [] start
  | snoc {labels : List (Label Code Error)} {label : Label Code Error} {world world' : World Code}
      (runs : Runs behaviour start labels world) (steps : World.Steps behaviour world label world') :
      Runs behaviour start (labels ++ [label]) world'

/-- The processes make the step of which this is seen. Where nothing is seen they do nothing. -/
def World.Follows (behaviour : Behaviour Code Error) (before : World Code) :
    Option (Label Code Error) → World Code → Prop
  | some label, after => World.Steps behaviour before label after
  | none, after => after = before

theorem World.Runs.follows {behaviour : Behaviour Code Error} {start world world' : World Code}
    {labels : List (Label Code Error)} {label : Option (Label Code Error)}
    (runs : World.Runs behaviour start labels world)
    (follows : World.Follows behaviour world label world') :
    World.Runs behaviour start (labels ++ label.toList) world' := by
  cases label with
  | some label => exact runs.snoc follows
  | none =>
      have same : world' = world := follows
      rw [Option.toList_none, List.append_nil, same]
      exact runs

/-- One process for each of the handlers. -/
def World.start (handlers : List Code) : World Code :=
  ⟨(handlers.map Process.runs : List (Process Code)), ∅, 0⟩

/-! ## What the coroutines stand for -/

/-- What stands on the stack of the coroutine, for a thread with this `t_error`. -/
def Coro.process (behaviour : Behaviour Code Error) (error : Option Error) (coro : Coro Code) :
    Process Code :=
  match coro.call with
  | some _ => .runs (behaviour.resume coro.code error)
  | none => .runs coro.code

/-- The process of a coroutine that waits. -/
def Coro.blocked (coro : Coro Code) : List (Process Code) :=
  match coro.call with
  | some call => [.blocked call.handler coro.code]
  | none => []

def Thread.processes (behaviour : Behaviour Code Error) (thread : Thread Error)
    (cell : Option (Coro Code)) : List (Process Code) :=
  match thread.place, cell with
  | .inside _, some coro => [coro.process behaviour thread.error]
  | .completing _, some coro => if thread.deferHandler.isSome then coro.blocked else []
  | .deferring _, some coro => coro.blocked
  | _, _ => []

def Task.processes (behaviour : Behaviour Code Error) (task : Task Code Error)
    (cell : Option (Coro Code)) : List (Process Code) :=
  match task, cell with
  | .create handler, _ => [.runs handler]
  | .onComplete _ error, some coro => [.runs (behaviour.resume coro.code error)]
  | .onCompleteGo _ handler none, some coro =>
      [.runs (behaviour.resume coro.code none), .runs handler]
  | .onCompleteGo _ _ (some error), some coro => [.runs (behaviour.resume coro.code (some error))]
  | _, none => []

def Party.processes (behaviour : Behaviour Code Error) (party : Party Code Error)
    (cell : Option (Coro Code)) : List (Process Code) :=
  match party, cell with
  | .thread worker, cell => worker.processes behaviour cell
  | .pending _, some coro => coro.blocked
  | .pending _, none => []
  | .task posted, cell => posted.processes behaviour cell

/-- The socket that an accept under way will use. -/
def Party.accepting : Party Code Error → Option SocketId
  | .pending (.accept _ socket _) => some socket
  | _ => none

def Party.raised : Party Code Error → Bool
  | .thread worker => match worker.place with
    | .ended => true
    | _ => false
  | _ => false

def processesOf (behaviour : Behaviour Code Error) (cells : CoroId → Option (Coro Code))
    (parties : List (Party Code Error)) : List (Process Code) :=
  parties.flatMap fun party => party.processes behaviour (party.coro.bind cells)

/-- The sockets that were used up. -/
def takenOf (parties : List (Party Code Error)) (sockets : Nat) : Set SocketId :=
  { socket | socket < sockets ∧ socket ∉ parties.filterMap Party.accepting }

def worldOf (behaviour : Behaviour Code Error) (parties : List (Party Code Error))
    (store : Store Code) : World Code where
  processes := processesOf behaviour store.cells parties
  taken := takenOf parties store.sockets
  raised := parties.countP Party.raised

def Machine.world (behaviour : Behaviour Code Error) (machine : Machine Code Error) : World Code :=
  worldOf behaviour machine.parties machine.shared.store

end PersistentBTree.Coroutines
