import PersistentBTree.Imperative.Cutting
import PersistentBTree.Sockets.Responses

/-! A connection of the server. The handler that `Server::bind` gives to `goAccept` reads
up to a delimiter into a buffer that it keeps, and writes a response, again and again; an
error of a read or of a write is an exception that ends it. -/

set_option autoImplicit false

namespace PersistentBTree.Sockets

open Imperative

variable {Error : Type}

/-- What the handler waits for. -/
inductive Phase (Error : Type) where
  /-- `socket.readUntil`. -/
  | reading (offer : Offer) (handler : UntilHandler)
  /-- `socket.write`; `readUntil` has left this buffer. -/
  | writing (buffer : Buffer)
  | failed (error : Error)

structure Connection (Error : Type) where
  phase : Phase Error
  /-- The responses that were written. -/
  sent : List Buffer

abbrev Serving (Error α : Type) := Program (Connection Error) Fault α

/-- The response to every request. -/
def hello : Buffer := httpContent "<h1>Hello synca!</h1>".toList

/-- Where the coroutine stops after a part of `readUntil`. -/
def Progress.phase (handler : UntilHandler) : Progress Error → Phase Error
  | .reading offer => .reading offer handler
  | .complete none => .writing handler.buffer
  | .complete (some error) => .failed error

/-- The beginning of the loop. The buffer has what the last request has left in it. -/
def nextRequest (buffer : Buffer) : Except Fault (Phase Error) := do
  let (progress, handler) ← readUntil.run ⟨0, resize buffer 4000, httpDelimBody⟩
  pure (progress.phase handler)

/-- The handler, up to its first read. -/
def startHandler : Except Fault (Connection Error) := do
  let phase ← nextRequest []
  pure ⟨phase, []⟩

/-- An operation of the socket ends. -/
inductive Event (Error : Type) where
  | read (completion : Completion Error)
  | written
  | notWritten (error : Error)

/-- The operation is under way; a read stores at least one byte and at most as many as it
was offered. -/
def Event.Valid : Phase Error → Event Error → Prop
  | .reading offer _, .read (.received data) => data ≠ [] ∧ data.length ≤ offer.size
  | .reading _ _, .read (.failed _) => True
  | .writing _, .written | .writing _, .notWritten _ => True
  | _, _ => False

instance Event.decidableValid : (phase : Phase Error) → (event : Event Error) →
    Decidable (event.Valid phase)
  | .reading _ _, .read (.received _) => inferInstanceAs (Decidable (_ ∧ _))
  | .reading _ _, .read (.failed _) => .isTrue trivial
  | .writing _, .written | .writing _, .notWritten _ => .isTrue trivial
  | .reading _ _, .written | .reading _ _, .notWritten _ => .isFalse id
  | .writing _, .read _ | .failed _, _ => .isFalse id

def Event.perform (event : Event Error) : Serving Error Unit := do
  let connection ← get
  match connection.phase, event with
  | .reading offer handler, .read completion => do
      let (progress, handler) ← runOn (deliver offer completion) handler
      set { connection with phase := progress.phase handler }
  | .writing buffer, .written => do
      let phase ← nextRequest buffer
      set (⟨phase, connection.sent ++ [hello]⟩ : Connection Error)
  | .writing _, .notWritten error => set { connection with phase := .failed error }
  | _, _ => pure ()

def Event.stored : Event Error → Option Buffer
  | .read (.received data) => some data
  | _ => none

/-- What the reads among these events have stored. -/
def received (events : List (Event Error)) : List Buffer := events.filterMap Event.stored

/-- The connection is what these events have made of it since its handler was called. -/
inductive Connection.After : List (Event Error) → Connection Error → Prop where
  | started {connection : Connection Error}
      (returned : startHandler = .ok connection) : After [] connection
  | event {events : List (Event Error)} {before connection : Connection Error}
      {event : Event Error} (earlier : After events before) (valid : event.Valid before.phase)
      (returned : event.perform.run before = .ok ((), connection)) :
      After (events ++ [event]) connection

/-! ## What the handler is for -/

/-- The response does not depend on the request. -/
def responsesTo (requests : List Buffer) : List Buffer := requests.map fun _ => hello

/-- The requests are cut off the stream behind each read with which a delimiter has
arrived, and each gets a response; the last of them while it is being written. -/
def Connection.Answers (connection : Connection Error) (requests : Cuts Char) : Prop :=
  match connection.phase with
  | .reading offer handler => connection.sent = responsesTo requests.parts ∧
      handler.buffer.take offer.start = requests.pending
  | .writing buffer => ∃ answered, requests = ⟨answered ++ [buffer], []⟩ ∧
      connection.sent = responsesTo answered
  | .failed _ => connection.sent = responsesTo requests.parts ∨
      ∃ answered buffer, requests = ⟨answered ++ [buffer], []⟩ ∧
        connection.sent = responsesTo answered

end PersistentBTree.Sockets
