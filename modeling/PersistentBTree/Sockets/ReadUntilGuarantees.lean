import PersistentBTree.Sockets.ReadUntil

/-! `readUntil` delivers the bytes that were received, up to the first read after which
the delimiter has occurred. Whatever stood in the buffer before has no part in it. -/

set_option autoImplicit false

namespace PersistentBTree.Sockets

open Imperative

variable {Error : Type}

/-! ## The property -/

/-- What the operation guarantees, for every way the bytes are cut into reads. -/
structure DeliversReceived (Error : Type) (buffer until_ : Buffer) : Prop where
  /-- The first read is started. -/
  starts : Runs (readUntil : Handling (Progress Error)) ⟨0, buffer, until_⟩ fun progress _ =>
    ∃ offer, progress = .reading offer
  /-- No read that ends without an error stops the handler. -/
  goesOn : ∀ {reads : List Buffer} {offer : Offer} {handler : UntilHandler} {data : Buffer},
    Receives buffer until_ reads (.reading offer : Progress Error) handler → data ≠ [] →
      data.length ≤ offer.size →
      Runs (deliver offer (.received data) : Handling (Progress Error)) handler fun _ _ => True
  /-- Every read is offered room right behind the bytes received so far, which stay where
  they are. -/
  offers : ∀ {reads : List Buffer} {offer : Offer} {handler : UntilHandler},
    Receives buffer until_ reads (.reading offer : Progress Error) handler →
      0 < offer.size ∧ offer.start = reads.flatten.length ∧
        offer.start + offer.size ≤ handler.buffer.length ∧
        handler.buffer.take offer.start = reads.flatten
  /-- The operation is complete when the bytes received so far contain the delimiter. -/
  completes : ∀ {reads : List Buffer} {progress : Progress Error} {handler : UntilHandler},
    Receives buffer until_ reads progress handler →
      ((∃ error, progress = .complete error) ↔ until_ <:+: reads.flatten)
  /-- Then there was no error, and the buffer holds these bytes. -/
  delivers : ∀ {reads : List Buffer} {error : Option Error} {handler : UntilHandler},
    Receives buffer until_ reads (.complete error) handler →
      error = none ∧ handler.buffer = reads.flatten

/-! ## The search -/

/-- Only the bytes up to `posEnd` are searched. -/
theorem hasEnd_iff {posEnd : Nat} {b end_ : Buffer} (inside : posEnd ≤ b.length) :
    hasEnd posEnd b end_ = true ↔ end_ <:+: b.take posEnd := by
  rw [infix_take_iff inside, hasEnd, Bool.and_eq_true, decide_eq_true_iff]
  apply and_congr_right
  intro fits
  have most : min (posEnd - end_.length) (b.length - end_.length) = posEnd - end_.length := by omega
  rw [rfind, if_pos (Nat.le_trans fits inside), most, lastOccurrence_isSome_iff]

theorem length_resize (b : Buffer) (size : Nat) : (resize b size).length = size := by
  rw [resize, List.length_append, List.length_take, List.length_replicate]
  omega

theorem take_resize {b : Buffer} {size count : Nat} (inside : count ≤ b.length)
    (grows : count ≤ size) : (resize b size).take count = b.take count := by
  rw [resize, List.take_append_of_le_length, List.take_take, Nat.min_eq_left grows]
  rw [List.length_take]
  omega

theorem resize_of_le {b : Buffer} {size : Nat} (shrinks : size ≤ b.length) :
    resize b size = b.take size := by
  rw [resize, Nat.sub_eq_zero_of_le shrinks, List.replicate_zero, List.append_nil]

/-! ## A read -/

/-- The handler while a read is under way. -/
structure Waits (until_ received : Buffer) (offer : Offer) (handler : UntilHandler) : Prop where
  delimiter : handler.until_ = until_
  offset : handler.offset = received.length
  kept : handler.buffer.take handler.offset = received
  room : handler.offset < handler.buffer.length
  offered : offer = ⟨handler.offset, handler.buffer.length - handler.offset⟩
  absent : ¬ until_ <:+: received

/-- The handler when it has called that of its caller. -/
structure Completed (until_ received : Buffer) (error : Option Error) (handler : UntilHandler) :
    Prop where
  succeeded : error = none
  delivered : handler.buffer = received
  found : until_ <:+: received

/-- What a read leaves. -/
def Reached (until_ received : Buffer) : Progress Error → UntilHandler → Prop
  | .reading offer, handler => Waits until_ received offer handler
  | .complete error, handler => Completed until_ received error handler

theorem read_runs {handler : UntilHandler} {post : Offer → UntilHandler → Prop}
    (inside : handler.offset ≤ handler.buffer.length)
    (holds : post ⟨handler.offset, handler.buffer.length - handler.offset⟩ handler) :
    Runs UntilHandler.read handler post := by
  rw [UntilHandler.read, runs_bind, runs_get, if_pos inside, runs_pure]
  exact holds

theorem readUntil_runs {buffer until_ : Buffer} (nonempty : until_ ≠ [])
    (room : until_.length ≤ buffer.length) :
    Runs (readUntil : Handling (Progress Error)) ⟨0, buffer, until_⟩ fun progress handler =>
      (∃ offer, progress = .reading offer) ∧ Reached until_ [] progress handler := by
  have positive := List.length_pos_iff.mpr nonempty
  rw [readUntil, runs_bind, runs_get, if_pos room, runs_bind]
  apply read_runs (Nat.zero_le _)
  rw [runs_pure]
  refine ⟨⟨_, rfl⟩, rfl, rfl, rfl, Nat.lt_of_lt_of_le positive room, rfl, ?_⟩
  rw [List.infix_nil]
  exact nonempty

/-- The bytes that a read stores follow those before it. -/
theorem take_stored {buffer data : Buffer} {start : Nat} (fits : start + data.length ≤ buffer.length) :
    (buffer.take start ++ data ++ buffer.drop (start + data.length)).length = buffer.length ∧
      (buffer.take start ++ data ++ buffer.drop (start + data.length)).take (start + data.length) =
        buffer.take start ++ data := by
  have before : (buffer.take start).length = start :=
    List.length_take_of_le (Nat.le_trans (Nat.le_add_right ..) fits)
  constructor
  · simp only [List.length_append, before, List.length_drop]
    omega
  · apply List.take_left'
    rw [List.length_append, before]

theorem deliver_runs {until_ received data : Buffer} {offer : Offer} {handler : UntilHandler}
    (waits : Waits until_ received offer handler) (some_ : data ≠ [])
    (fits : data.length ≤ offer.size) :
    Runs (deliver offer (.received data)) handler
      (Reached until_ (received ++ data) : Progress Error → UntilHandler → Prop) := by
  obtain ⟨rfl, offset, kept, inside, rfl, absent⟩ := waits
  have within : handler.offset + data.length ≤ handler.buffer.length := by
    have atMost : data.length ≤ handler.buffer.length - handler.offset := fits
    omega
  obtain ⟨sameLength, stored⟩ := take_stored within
  rw [kept] at sameLength stored
  have received_ : (received ++ data).length = handler.offset + data.length := by
    rw [List.length_append, offset]
  have positive : 0 < data.length := List.length_pos_iff.mpr some_
  simp only [deliver, UntilHandler.call, runs_bind, runs_modify, runs_get, kept]
  rw [if_pos (by omega)]
  have ends := @hasEnd_iff _ _ handler.until_ (sameLength.symm ▸ within)
  rw [stored] at ends
  by_cases found : handler.until_ <:+: received ++ data
  · rw [if_pos (ends.mpr found), runs_bind, runs_modify, runs_pure]
    refine ⟨rfl, ?_, found⟩
    exact (resize_of_le (sameLength.symm ▸ within)).trans stored
  · rw [if_neg fun holds => found (ends.mp holds)]
    by_cases full : handler.offset + data.length =
        (received ++ data ++ handler.buffer.drop (handler.offset + data.length)).length
    · -- the buffer is doubled, and is not full any more
      rw [if_pos full, runs_bind, runs_modify, runs_bind]
      apply read_runs
      · simp only [length_resize]
        omega
      · rw [runs_pure]
        refine ⟨rfl, received_.symm, ?_, ?_, rfl, found⟩
        · have grows : handler.offset + data.length ≤ (received ++ data ++
              handler.buffer.drop (handler.offset + data.length)).length * 2 := by omega
          exact (take_resize (Nat.le_of_eq full) grows).trans stored
        · simp only [length_resize]
          omega
    · rw [if_neg full, runs_bind]
      apply read_runs
      · exact sameLength.symm ▸ within
      · rw [runs_pure]
        refine ⟨rfl, received_.symm, stored, ?_, rfl, found⟩
        exact Nat.lt_of_le_of_ne (sameLength.symm ▸ within) full

theorem Receives.reached {buffer until_ : Buffer} (nonempty : until_ ≠ [])
    (room : until_.length ≤ buffer.length) {reads : List Buffer} {progress : Progress Error}
    {handler : UntilHandler} (receives : Receives buffer until_ reads progress handler) :
    Reached until_ reads.flatten progress handler := by
  induction receives with
  | start returned => exact ((readUntil_runs nonempty room).holds returned).2
  | read reading some_ fits returned ih =>
      rw [List.flatten_append, List.flatten_singleton]
      exact (deliver_runs ih some_ fits).holds returned

theorem deliversReceived {buffer until_ : Buffer} (nonempty : until_ ≠ [])
    (room : until_.length ≤ buffer.length) : DeliversReceived Error buffer until_ where
  starts := (readUntil_runs nonempty room).mono fun _ _ => And.left
  goesOn receives some_ fits :=
    (deliver_runs (receives.reached nonempty room) some_ fits).mono fun _ _ _ => trivial
  offers receives := by
    obtain ⟨-, offset, kept, inside, rfl, -⟩ := receives.reached nonempty room
    exact ⟨Nat.sub_pos_of_lt inside, offset, Nat.le_of_eq (Nat.add_sub_of_le (Nat.le_of_lt inside)),
      kept⟩
  completes {reads progress handler} receives := by
    have reached := receives.reached nonempty room
    cases progress with
    | reading offer => exact iff_of_false nofun reached.absent
    | complete error => exact iff_of_true ⟨error, rfl⟩ reached.found
  delivers receives := by
    have reached := receives.reached nonempty room
    exact ⟨reached.succeeded, reached.delivered⟩

/-- A delimiter that arrives in two reads, into a buffer that ends with one and has to be
doubled in between. -/
theorem deliversReceived_straddling :
    DeliversReceived Unit ['a', '\r', '\n'] ['\r', '\n'] ∧
      Receives ['a', '\r', '\n'] ['\r', '\n'] [['b', 'c', '\r'], ['\n']]
        (.complete none : Progress Unit) ⟨4, ['b', 'c', '\r', '\n'], ['\r', '\n']⟩ := by
  refine ⟨deliversReceived (by decide) (by decide), ?_⟩
  have first : Receives ['a', '\r', '\n'] ['\r', '\n'] [] (.reading ⟨0, 3⟩ : Progress Unit)
      ⟨0, ['a', '\r', '\n'], ['\r', '\n']⟩ := .start rfl
  have second : Receives ['a', '\r', '\n'] ['\r', '\n'] [['b', 'c', '\r']]
      (.reading ⟨3, 3⟩ : Progress Unit)
      ⟨3, ['b', 'c', '\r', '\x00', '\x00', '\x00'], ['\r', '\n']⟩ :=
    .read first (by decide) (by decide) rfl
  exact .read second (by decide) (by decide) rfl

end PersistentBTree.Sockets
