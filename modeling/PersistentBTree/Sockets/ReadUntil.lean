import PersistentBTree.Imperative.Occurrence
import PersistentBTree.Imperative.Runs

/-! `Socket::readUntil`. A read is started with `async_read_some`, which is offered a part
of the buffer; when it has ended the handler is called, which either completes or starts
the next read. Memory is taken to be unbounded, so that `resize` succeeds. -/

set_option autoImplicit false

namespace PersistentBTree.Sockets

open Imperative

abbrev Buffer := List Char

/-- `b.rfind(end, pos)`. -/
def rfind (b end_ : Buffer) (pos : Nat) : Option Nat :=
  if end_.length ≤ b.length then lastOccurrence b end_ (min pos (b.length - end_.length)) else none

/-- `b.resize(size)`. -/
def resize (b : Buffer) (size : Nat) : Buffer :=
  b.take size ++ List.replicate (size - b.length) '\x00'

def hasEnd (posEnd : Nat) (b end_ : Buffer) : Bool :=
  decide (end_.length ≤ posEnd) && (rfind b end_ (posEnd - end_.length)).isSome

/-- The handler, with the buffer that it refers to. -/
structure UntilHandler where
  offset : Nat
  buffer : Buffer
  until_ : Buffer

inductive Fault where
  /-- `VERIFY` fails. -/
  | assertion
  /-- `operator[]` beyond the end of the buffer. -/
  | outOfBounds
  deriving DecidableEq

abbrev Handling (α : Type) := Program UntilHandler Fault α

/-- The part of the buffer that a read may write to. -/
structure Offer where
  start : Nat
  size : Nat

inductive Progress (Error : Type) where
  /-- A read is under way. -/
  | reading (offer : Offer)
  /-- The handler of the caller was called. -/
  | complete (error : Option Error)

variable {Error : Type}

namespace UntilHandler

def read : Handling Offer := do
  let handler ← get
  if handler.offset ≤ handler.buffer.length then
    pure ⟨handler.offset, handler.buffer.length - handler.offset⟩
  else throw .outOfBounds

/-- `operator()`. -/
def call (error : Option Error) (bytes : Nat) : Handling (Progress Error) :=
  match error with
  | some error => pure (.complete (some error))
  | none => do
      modify fun handler => { handler with offset := handler.offset + bytes }
      let handler ← get
      if handler.offset ≤ handler.buffer.length then
        if hasEnd handler.offset handler.buffer handler.until_ then
          modify fun handler => { handler with buffer := resize handler.buffer handler.offset }
          pure (.complete none)
        else
          if handler.offset = handler.buffer.length then
            modify fun handler => { handler with buffer := resize handler.buffer (handler.buffer.length * 2) }
          let offer ← read
          pure (.reading offer)
      else throw .assertion

end UntilHandler

/-- The first read. -/
def readUntil : Handling (Progress Error) := do
  let handler ← get
  if handler.until_.length ≤ handler.buffer.length then
    let offer ← UntilHandler.read
    pure (.reading offer)
  else throw .assertion

/-- How `async_read_some` ends: with the bytes that it has stored, or with an error. -/
inductive Completion (Error : Type) where
  | received (data : Buffer)
  | failed (error : Error)

/-- The socket stores the bytes where the read was offered room, and calls the handler. -/
def deliver (offer : Offer) : Completion Error → Handling (Progress Error)
  | .received data => do
      modify fun handler => { handler with
        buffer := handler.buffer.take offer.start ++ data ++ handler.buffer.drop (offer.start + data.length) }
      UntilHandler.call none data.length
  | .failed error => UntilHandler.call (some error) 0

/-- What the operation has come to after the reads, each of which has stored at least one
byte and at most as many as it was offered. -/
inductive Receives (buffer until_ : Buffer) : List Buffer → Progress Error → UntilHandler → Prop
  | start {progress : Progress Error} {handler : UntilHandler}
      (returned : readUntil.run ⟨0, buffer, until_⟩ = .ok (progress, handler)) :
      Receives buffer until_ [] progress handler
  | read {reads : List Buffer} {offer : Offer} {progress : Progress Error}
      {before handler : UntilHandler} {data : Buffer}
      (reading : Receives buffer until_ reads (.reading offer : Progress Error) before)
      (some_ : data ≠ []) (fits : data.length ≤ offer.size)
      (returned : (deliver offer (.received data)).run before = .ok (progress, handler)) :
      Receives buffer until_ (reads ++ [data]) progress handler

end PersistentBTree.Sockets
