import PersistentBTree.Sockets.Connection
import PersistentBTree.Sockets.ReadUntilGuarantees

/-! The handler of a connection answers what arrives: one response for each part that is
cut off the stream. A client that waits for the response before it sends more gets one
for each request; what arrives in the same read behind a delimiter is not answered. -/

set_option autoImplicit false

namespace PersistentBTree.Sockets

open Imperative

variable {Error : Type} {connection : Connection Error} {requests : Cuts Char}

/-! ## The invariant -/

/-- While a read is under way, the handler of `readUntil` has what is pending. -/
def Connection.Serves (connection : Connection Error) (requests : Cuts Char) : Prop :=
  match connection.phase with
  | .reading offer handler => connection.sent = responsesTo requests.parts ∧
      Waits httpDelimBody requests.pending offer handler
  | .writing buffer => ∃ answered, requests = ⟨answered ++ [buffer], []⟩ ∧
      connection.sent = responsesTo answered
  | .failed _ => connection.sent = responsesTo requests.parts ∨
      ∃ answered buffer, requests = ⟨answered ++ [buffer], []⟩ ∧
        connection.sent = responsesTo answered

theorem Connection.Serves.answers (serves : connection.Serves requests) :
    connection.Answers requests := by
  unfold Connection.Serves at serves
  unfold Connection.Answers
  cases phase : connection.phase with
  | reading offer handler =>
      rw [phase] at serves
      obtain ⟨sent, waits⟩ := serves
      refine ⟨sent, ?_⟩
      rw [waits.offered]
      exact waits.kept
  | writing buffer =>
      rw [phase] at serves
      exact serves
  | failed error =>
      rw [phase] at serves
      exact serves

theorem responsesTo_concat (answered : List Buffer) (buffer : Buffer) :
    responsesTo (answered ++ [buffer]) = responsesTo answered ++ [hello] := by
  rw [responsesTo, List.map_append]
  rfl

/-! ## Steps -/

/-- Whatever the last request has left in the buffer, the next one begins with none of it. -/
theorem exists_nextRequest (buffer : Buffer) : ∃ offer handler,
    nextRequest buffer = .ok (.reading offer handler : Phase Error) ∧
      Waits httpDelimBody [] offer handler := by
  have room : httpDelimBody.length ≤ (resize buffer 4000).length := by
    rw [length_resize]
    decide
  obtain ⟨progress, handler, returned, reading, reached⟩ :=
    @readUntil_runs Error _ httpDelimBody (by decide) room
  obtain ⟨offer, isReading⟩ := reading
  rw [isReading] at returned reached
  refine ⟨offer, handler, ?_, reached⟩
  unfold nextRequest
  rw [returned]
  rfl

theorem exists_startHandler : ∃ connection : Connection Error,
    startHandler = .ok connection ∧ connection.Serves (cut httpDelimBody []) := by
  obtain ⟨offer, handler, returned, waits⟩ := @exists_nextRequest Error []
  refine ⟨⟨.reading offer handler, []⟩, ?_, rfl, waits⟩
  unfold startHandler
  rw [returned]
  rfl

/-- What a read stores is pending, until a delimiter has arrived. -/
theorem perform_received {offer : Offer} {handler : UntilHandler} {data : Buffer}
    (serves : connection.Serves requests) (reading : connection.phase = .reading offer handler)
    (some_ : data ≠ []) (fits : data.length ≤ offer.size) :
    Runs (Event.read (.received data)).perform connection fun _ after =>
      after.Serves (requests.push httpDelimBody data) := by
  unfold Connection.Serves at serves
  rw [reading] at serves
  obtain ⟨sent, waits⟩ := serves
  unfold Event.perform
  rw [runs_bind, runs_get, reading]
  dsimp only
  rw [runs_bind, runs_runOn]
  apply (@deliver_runs Error _ _ _ _ _ waits some_ fits).mono
  intro progress after reached
  rw [runs_set]
  cases progress with
  | reading next =>
      rw [Cuts.push_of_not_infix reached.absent]
      exact ⟨sent, reached⟩
  | complete error =>
      obtain ⟨succeeded, delivered, found⟩ := reached
      rw [succeeded, Cuts.push_of_infix found]
      refine ⟨requests.parts, ?_, sent⟩
      rw [delivered]

theorem perform_readFailed {offer : Offer} {handler : UntilHandler} {error : Error}
    (serves : connection.Serves requests) (reading : connection.phase = .reading offer handler) :
    Runs (Event.read (.failed error)).perform connection fun _ after => after.Serves requests := by
  unfold Connection.Serves at serves
  rw [reading] at serves
  unfold Event.perform
  rw [runs_bind, runs_get, reading]
  dsimp only
  rw [runs_bind, runs_runOn, deliver, UntilHandler.call, runs_pure, runs_set]
  exact .inl serves.1

theorem perform_written {buffer : Buffer} (serves : connection.Serves requests)
    (writing : connection.phase = .writing buffer) :
    Runs Event.written.perform connection fun _ after => after.Serves requests := by
  unfold Connection.Serves at serves
  rw [writing] at serves
  obtain ⟨answered, isRequests, sent⟩ := serves
  obtain ⟨offer, handler, returned, waits⟩ := @exists_nextRequest Error buffer
  unfold Event.perform
  rw [runs_bind, runs_get, writing]
  dsimp only
  rw [runs_bind, runs_liftM, returned]
  refine ⟨_, rfl, ?_⟩
  rw [runs_set, isRequests]
  refine ⟨?_, waits⟩
  rw [responsesTo_concat, sent]

theorem perform_notWritten {buffer : Buffer} {error : Error} (serves : connection.Serves requests)
    (writing : connection.phase = .writing buffer) :
    Runs (Event.notWritten error).perform connection fun _ after => after.Serves requests := by
  unfold Connection.Serves at serves
  rw [writing] at serves
  obtain ⟨answered, isRequests, sent⟩ := serves
  unfold Event.perform
  rw [runs_bind, runs_get, writing]
  dsimp only
  rw [runs_set]
  exact .inr ⟨answered, buffer, isRequests, sent⟩

theorem received_concat_some (events : List (Event Error)) {event : Event Error} {data : Buffer}
    (stores : event.stored = some data) : received (events ++ [event]) = received events ++ [data] := by
  rw [received, List.filterMap_append, List.filterMap_cons_some stores]
  rfl

theorem received_concat_none (events : List (Event Error)) {event : Event Error}
    (nothing : event.stored = none) : received (events ++ [event]) = received events := by
  rw [received, List.filterMap_append, List.filterMap_cons_none nothing]
  exact List.append_nil _

/-- What is under way when a read may end. -/
theorem Event.Valid.reading {phase : Phase Error} {completion : Completion Error}
    (valid : (Event.read completion).Valid phase) :
    ∃ offer handler, phase = .reading offer handler := by
  cases phase with
  | reading offer handler => exact ⟨offer, handler, rfl⟩
  | writing => exact valid.elim
  | failed => exact valid.elim

theorem Event.Valid.writing {phase : Phase Error} {event : Event Error} (valid : event.Valid phase)
    (noRead : ∀ completion, event ≠ .read completion) : ∃ buffer, phase = .writing buffer := by
  cases phase with
  | reading =>
      cases event with
      | read completion => exact absurd rfl (noRead completion)
      | written => exact valid.elim
      | notWritten => exact valid.elim
  | writing buffer => exact ⟨buffer, rfl⟩
  | failed => exact valid.elim

theorem Event.Valid.stored_ne_nil {phase : Phase Error} {event : Event Error} {data : Buffer}
    (valid : event.Valid phase) (stores : event.stored = some data) : data ≠ [] := by
  cases event with
  | read completion =>
      obtain ⟨offer, handler, reading⟩ := valid.reading
      rw [reading] at valid
      cases completion with
      | received stored =>
          cases stores
          exact valid.1
      | failed error => cases stores
  | written => cases stores
  | notWritten error => cases stores

theorem Event.Valid.perform_runs {events : List (Event Error)} {event : Event Error}
    (valid : event.Valid connection.phase)
    (serves : connection.Serves (cut httpDelimBody (received events))) :
    Runs event.perform connection fun _ after =>
      after.Serves (cut httpDelimBody (received (events ++ [event]))) := by
  cases event with
  | read completion =>
      obtain ⟨offer, handler, reading⟩ := valid.reading
      rw [reading] at valid
      cases completion with
      | received data =>
          rw [received_concat_some events rfl, cut_concat]
          exact perform_received serves reading valid.1 valid.2
      | failed error =>
          rw [received_concat_none events rfl]
          exact perform_readFailed serves reading
  | written =>
      obtain ⟨buffer, writing⟩ := valid.writing fun _ same => by cases same
      rw [received_concat_none events rfl]
      exact perform_written serves writing
  | notWritten error =>
      obtain ⟨buffer, writing⟩ := valid.writing fun _ same => by cases same
      rw [received_concat_none events rfl]
      exact perform_notWritten serves writing

namespace Connection.After

variable {events : List (Event Error)}

theorem serves (after : connection.After events) :
    connection.Serves (cut httpDelimBody (received events)) := by
  induction after with
  | started returned =>
      obtain ⟨started, isStarted, serves⟩ := @exists_startHandler Error
      rw [isStarted] at returned
      cases returned
      exact serves
  | event earlier valid returned ih => exact (valid.perform_runs ih).holds returned

/-- Every read stores something. -/
theorem received_ne_nil (after : connection.After events) :
    ∀ data ∈ received events, data ≠ [] := by
  induction after with
  | started => exact fun _ member => absurd member List.not_mem_nil
  | @event events before connection event earlier valid returned ih =>
      intro data member
      cases stores : event.stored with
      | none =>
          rw [received_concat_none events stores] at member
          exact ih data member
      | some last =>
          rw [received_concat_some events stores, List.mem_append] at member
          cases member with
          | inl old => exact ih data old
          | inr new =>
              rw [List.mem_singleton.mp new]
              exact valid.stored_ne_nil stores

end Connection.After

/-! ## Runs -/

/-- The events are valid when they happen, one after the other. -/
def Connection.Admits : List (Event Error) → Connection Error → Prop
  | [], _ => True
  | event :: rest, connection => event.Valid connection.phase ∧
      match event.perform.run connection with
      | .ok (_, after) => Admits rest after
      | .error _ => False

instance Connection.decidableAdmits : (events : List (Event Error)) →
    (connection : Connection Error) → Decidable (connection.Admits events)
  | [], _ => .isTrue trivial
  | event :: rest, connection =>
      letI : Decidable (match event.perform.run connection with
          | .ok (_, after) => Admits rest after
          | .error _ => False) :=
        match event.perform.run connection with
        | .ok (_, after) => decidableAdmits rest after
        | .error _ => .isFalse id
      inferInstanceAs (Decidable (_ ∧ _))

/-- The same of a connection that a call may return. -/
def AdmitsFrom (events : List (Event Error)) : Except Fault (Connection Error) → Prop
  | .ok connection => connection.Admits events
  | .error _ => False

instance decidableAdmitsFrom (events : List (Event Error)) :
    (outcome : Except Fault (Connection Error)) → Decidable (AdmitsFrom events outcome)
  | .ok connection => Connection.decidableAdmits events connection
  | .error _ => .isFalse id

theorem Connection.After.exists_append {events rest : List (Event Error)}
    (after : connection.After events) (admits : connection.Admits rest) :
    ∃ final : Connection Error, final.After (events ++ rest) := by
  induction rest generalizing connection events with
  | nil => exact ⟨connection, by rwa [List.append_nil]⟩
  | cons event rest ih =>
      obtain ⟨valid, admits⟩ := admits
      cases returned : event.perform.run connection with
      | error fault =>
          rw [returned] at admits
          exact admits.elim
      | ok result =>
          rw [returned] at admits
          obtain ⟨final, reached⟩ := ih (.event after valid returned) admits
          rw [List.append_assoc] at reached
          exact ⟨final, reached⟩

theorem exists_after {events : List (Event Error)} {outcome : Except Fault (Connection Error)}
    (isOutcome : startHandler = outcome) (admits : AdmitsFrom events outcome) :
    ∃ connection : Connection Error, connection.After events := by
  cases outcome with
  | error fault => exact admits.elim
  | ok connection => exact (Connection.After.started isOutcome).exists_append admits

/-- Two requests, of which the first ends in the read that brings the whole second one. -/
def pipelined : List (Event Unit) :=
  [.read (.received ['a', '\r', '\n']),
    .read (.received (['\r', '\n', 'b'] ++ httpDelimBody)), .written]

private theorem exists_after_pipelined :
    ∃ connection : Connection Unit, connection.After pipelined :=
  exists_after rfl (by decide +kernel)

/-! ## What is answered -/

/-- In every run the handler answers what is cut off the stream, and no operation that
ends stops it otherwise than by an exception. -/
theorem connection_answers {events : List (Event Error)} (after : connection.After events) :
    connection.Answers (cut httpDelimBody (received events)) ∧
      ∀ event : Event Error, event.Valid connection.phase →
        Runs event.perform connection fun _ _ => True := by
  constructor
  · exact after.serves.answers
  · intro event valid
    exact (valid.perform_runs after.serves).mono fun _ _ _ => trivial

theorem connection_answers_pipelined : ∃ connection : Connection Unit,
    connection.After pipelined ∧ connection.Answers (cut httpDelimBody (received pipelined)) ∧
      ∀ event : Event Unit, event.Valid connection.phase →
        Runs event.perform connection fun _ _ => True := by
  obtain ⟨connection, after⟩ := exists_after_pipelined
  exact ⟨connection, after, connection_answers after⟩

/-- Only the first of the two requests is answered. -/
example : (cut httpDelimBody (received pipelined)).parts.length = 1 := by decide

theorem Connection.Answers.length_sent_le (answers : connection.Answers requests) :
    connection.sent.length ≤ requests.parts.length := by
  unfold Connection.Answers at answers
  cases phase : connection.phase with
  | reading offer handler =>
      rw [phase] at answers
      rw [answers.1, responsesTo, List.length_map]
  | writing buffer =>
      rw [phase] at answers
      obtain ⟨answered, isRequests, sent⟩ := answers
      simp [sent, isRequests, responsesTo]
  | failed error =>
      rw [phase] at answers
      cases answers with
      | inl all => rw [all, responsesTo, List.length_map]
      | inr butLast =>
          obtain ⟨answered, buffer, isRequests, sent⟩ := butLast
          simp [sent, isRequests, responsesTo]

/-- A client that sends messages, each up to its first delimiter, gets at most one response
for each, however they arrive; and one for each, if no read goes beyond the message that
it has begun, as when the client waits for the response. -/
theorem connection_answers_messages {events : List (Event Error)}
    (after : connection.After events) :
    (∀ messages : List Buffer, (∀ message ∈ messages, EndsAt httpDelimBody message) →
      (received events).flatten <+: messages.flatten →
        connection.sent.length ≤ messages.length) ∧
      ∀ messages : List (List Buffer), (∀ message ∈ messages,
        httpDelimBody <:+: message.flatten ∧ EndsAt httpDelimBody message.flatten) →
        received events = messages.flatten →
          connection.Answers ⟨messages.map List.flatten, []⟩ := by
  have answers := after.serves.answers
  have nonempty : httpDelimBody ≠ [] := by decide
  constructor
  · intro messages ends arrived
    exact answers.length_sent_le.trans (length_cut_le nonempty ends arrived)
  · intro messages complete arrived
    have some_ : ∀ message ∈ messages, ∀ data ∈ message, data ≠ [] := by
      intro message member data inside
      apply after.received_ne_nil
      rw [arrived]
      exact List.mem_flatten_of_mem member inside
    rw [arrived, cut_flatten nonempty some_ (fun message member => (complete message member).1)
      fun message member => (complete message member).2] at answers
    exact answers

theorem connection_answers_messages_pipelined : ∃ connection : Connection Unit,
    connection.After pipelined ∧ connection.sent.length ≤ 2 := by
  obtain ⟨connection, after⟩ := exists_after_pipelined
  refine ⟨connection, after, (connection_answers_messages after).1
    [['a'] ++ httpDelimBody, ['b'] ++ httpDelimBody] ?_ ?_⟩
  · unfold EndsAt
    decide
  · decide

end PersistentBTree.Sockets
