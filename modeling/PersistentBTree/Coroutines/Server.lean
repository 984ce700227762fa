import PersistentBTree.Coroutines.Coro
import PersistentBTree.Sockets.Responses

/-! `Server::bind`. One coroutine accepts connections for ever, and every connection has a
coroutine of its own that answers each request with the same page. -/

set_option autoImplicit false

namespace PersistentBTree.Coroutines

open Sockets (httpContent httpDelimBody)

inductive ServerCode where
  /-- Before `acceptor.goAccept`. -/
  | accepting
  /-- `goAccept` has thrown, and nothing catches it. -/
  | thrown
  /-- Before `socket.readUntil`. -/
  | reading (socket : SocketId)
  /-- Before `socket.write`. -/
  | writing (socket : SocketId)
  /-- An exception was caught. -/
  | caught (socket : SocketId)
  deriving DecidableEq

def page : Buffer := "<h1>Hello synca!</h1>".toList

variable {Error : Type}

def server : Behaviour ServerCode Error where
  act
    | .accepting => .defer (.goAccept .reading)
    | .thrown => .raise
    | .reading socket => .defer (.transfer socket (.readUntil httpDelimBody))
    | .writing socket => .defer (.transfer socket (.write (httpContent page)))
    | .caught _ => .finish
  resume
    | .accepting, none => .accepting
    | .accepting, some _ => .thrown
    | .reading socket, none => .writing socket
    | .reading socket, some _ => .caught socket
    | .writing socket, none => .reading socket
    | .writing socket, some _ => .caught socket
    | .thrown, _ => .thrown
    | .caught socket, _ => .caught socket

/-- `bind` on a machine with so many processors. -/
def bind (hardwareConcurrency : Nat) : Machine ServerCode Error :=
  dispatched [.accepting] 0 hardwareConcurrency

end PersistentBTree.Coroutines
