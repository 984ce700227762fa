import PersistentBTree.Coroutines.Guarantees
import PersistentBTree.Coroutines.Server

/-! The handler that `defer` was given is a parameter of that call. It is destroyed when the
coroutine is resumed, and with a second thread that may be while the first one still runs it. -/

set_option autoImplicit false

namespace PersistentBTree.Coroutines

open Imperative
open List (Perm)

variable {Code Error : Type}

/-- The handler that the thread runs still exists. -/
def Thread.HandlerAlive (cells : CoroId → Option (Coro Code)) (thread : Thread Error) : Prop :=
  thread.place = .deferred → ∃ pointer, thread.deferHandler = some pointer ∧
    ∃ coro, cells pointer.coro = some coro ∧ (coro.parameter pointer.number).isSome

/-- No thread runs a handler that was destroyed. -/
def Machine.HandlersAlive (machine : Machine Code Error) : Prop :=
  ∀ thread ∈ machine.threads, thread.HandlerAlive machine.shared.cell

/-! ## One thread -/

def Party.isThread : Party Code Error → Bool
  | .thread _ => true
  | .pending _ | .task _ => false

section Alone

variable {behaviour : Behaviour Code Error} {label : Option (Label Code Error)}
  {parties parties' old new rest : List (Party Code Error)} {store store' : Store Code}

/-- At most one thread, and it runs no handler that was destroyed. -/
structure Alone (parties : List (Party Code Error)) (store : Store Code) : Prop where
  one : parties.countP Party.isThread ≤ 1
  alive : ∀ thread, .thread thread ∈ parties → thread.HandlerAlive store.cells

theorem Trades.countP_isThread (trades : Trades behaviour label old store new store') :
    new.countP Party.isThread = old.countP Party.isThread := by
  cases trades with
  | @resume thread task posted =>
      have noThread : (posted.map Party.task).countP (@Party.isThread Code Error) = 0 := by
        rw [List.countP_map, List.countP_eq_zero]
        exact fun _ _ => Bool.false_ne_true
      rw [List.countP_cons, noThread]
      rfl
  | create | deferReturns | finish | raise | go | defer | completeDeferred | completeFinished
  | transfer | accept | deferHandlerReturns | ended => rfl

/-- A thread that has just started an operation runs the handler of a suspended coroutine. -/
private theorem alive_begun {thread : Thread Error} {id : CoroId} {coro : Coro Code}
    (suits : SuitsThread thread (some coro)) (place : thread.place = .deferring id)
    (found : store.cells id = some coro) :
    ({ thread with place := .deferred } : Thread Error).HandlerAlive store.cells := by
  simp only [SuitsThread, place] at suits
  obtain ⟨-, call, pointed, coro', same, suspended⟩ := suits
  cases same
  intro _
  refine ⟨⟨id, call.number⟩, pointed, coro, found, ?_⟩
  simp [Coro.parameter, suspended.called]

/-- Every thread of a trade runs a handler that exists, if it runs one at all. -/
private theorem Trades.alive (trades : Trades behaviour label old store new store')
    (suited : ∀ party ∈ old, Suits party (party.coro.bind store.cells)) :
    ∀ thread, .thread thread ∈ new → thread.HandlerAlive store'.cells := by
  intro after member
  cases trades with
  | create | finish | raise | completeDeferred | completeFinished | defer | deferHandlerReturns =>
      rw [List.mem_singleton] at member
      cases member
      intro place
      cases place
  | @resume thread task posted =>
      cases List.mem_cons.mp member with
      | inl same =>
          cases same
          intro place
          cases place
      | inr among =>
          obtain ⟨task, -, same⟩ := List.mem_map.mp among
          cases same
  | deferReturns place =>
      rw [List.mem_singleton] at member
      cases member
      intro place'
      rw [place] at place'
      cases place'
  | go place =>
      cases List.mem_cons.mp member with
      | inl same =>
          cases same
          intro place'
          rw [place] at place'
          cases place'
      | inr among => cases List.mem_singleton.mp among
  | @transfer thread store id coro call socket request place found called handler =>
      have suits := suited (.thread thread) List.mem_cons_self
      simp only [Suits, Party.coro, place, Place.coro, Option.bind_some, found] at suits
      cases List.mem_cons.mp member with
      | inl same =>
          cases same
          exact alive_begun suits place found
      | inr among => cases List.mem_singleton.mp among
  | @accept thread store id coro call handler place found called accepts =>
      have suits := suited (.thread thread) List.mem_cons_self
      simp only [Suits, Party.coro, place, Place.coro, Option.bind_some, found] at suits
      cases List.mem_cons.mp member with
      | inl same =>
          cases same
          exact alive_begun suits place found
      | inr among => cases List.mem_singleton.mp among
  | ended => cases List.mem_singleton.mp member

theorem Trades.alone (trades : Trades behaviour label old store new store')
    (owned : Imperative.Owned (ownership Code Error) parties store.cells)
    (alone : Alone parties store)
    (before : Perm parties (old ++ rest)) (after : Perm parties' (new ++ rest)) :
    Alone parties' store' := by
  obtain ⟨one, alive⟩ := alone
  have suited : ∀ party ∈ old, Suits party (party.coro.bind store.cells) :=
    fun party member => owned.suits party (before.mem_iff.mpr (List.mem_append_left rest member))
  have counted := before.countP_eq Party.isThread
  rw [List.countP_append] at counted
  refine ⟨?_, fun thread member => ?_⟩
  · rw [after.countP_eq, List.countP_append, trades.countP_isThread, ← counted]
    exact one
  · cases List.mem_append.mp (after.mem_iff.mp member) with
    | inl isNew => exact trades.alive suited thread isNew
    | inr inside =>
        have some_ : 0 < rest.countP Party.isThread :=
          List.countP_pos_iff.mpr ⟨.thread thread, inside, rfl⟩
        -- the only thread takes no part, so that an operation has ended
        have kept := alive thread (before.mem_iff.mpr (List.mem_append_right old inside))
        have noThread : old.countP Party.isThread = 0 := by omega
        cases trades with
        | ended => exact kept
        | create | resume | deferReturns | finish | raise | go | defer | completeDeferred
        | completeFinished | transfer | accept | deferHandlerReturns =>
            rw [List.countP_cons_of_pos rfl] at noThread
            cases noThread

end Alone

theorem dispatched_alone (handlers : List Code) {threadCount : Int} {hardwareConcurrency : Nat}
    (single : dispatch threadCount hardwareConcurrency = 1) :
    Alone (dispatched handlers threadCount hardwareConcurrency : Machine Code Error).parties
      ⟨fun _ => none, 0⟩ := by
  have threads : (dispatched handlers threadCount hardwareConcurrency : Machine Code Error).threads =
      [⟨none, none, none, .run⟩] := by
    rw [dispatched, single]
    rfl
  constructor
  · have others : (handlers.map fun handler => Party.task (Task.create handler)).countP
        (@Party.isThread Code Error) = 0 := by
      rw [List.countP_map, List.countP_eq_zero]
      exact fun _ _ => Bool.false_ne_true
    rw [Machine.parties, threads, List.countP_append]
    simp only [Shared.parties, dispatched, List.map_nil, List.nil_append, List.map_map]
    exact Nat.le_of_eq (congrArg (1 + ·) others)
  · intro thread member place
    cases List.mem_append.mp member with
    | inl worker =>
        rw [threads, List.map_singleton, List.mem_singleton] at worker
        cases worker
        cases place
    | inr posted =>
        cases List.mem_append.mp posted with
        | inl waiting => cases waiting
        | inr ready =>
            obtain ⟨task, -, same⟩ := List.mem_map.mp ready
            cases same

/-- With one thread a handler is not destroyed while it runs. -/
theorem handlers_alive_of_single (behaviour : Behaviour Code Error) (handlers : List Code)
    {threadCount : Int} {hardwareConcurrency : Nat}
    (single : dispatch threadCount hardwareConcurrency = 1) (events : List (Event Error)) :
    ∃ machine, (dispatched handlers threadCount hardwareConcurrency).run behaviour events =
      .ok machine ∧ machine.HandlersAlive := by
  let holds : Machine Code Error → Prop :=
    fun machine => Alone machine.parties machine.shared.store
  have keeps : ∀ (label : Option (Label Code Error)) (before after : Machine Code Error),
      before.Owned → before.Trades behaviour label after → holds before → holds after := by
    intro label before after owned traded alone
    obtain ⟨old, new, rest, split, joined, trades⟩ := traded
    exact trades.alone owned alone split joined
  have start : holds (dispatched handlers threadCount hardwareConcurrency) :=
    dispatched_alone handlers single
  obtain ⟨machine, ran, -, alone⟩ :=
    (dispatched_owned handlers threadCount hardwareConcurrency).run start keeps events
  refine ⟨machine, ran, fun thread member => ?_⟩
  exact alone.alive thread (List.mem_append_left _ (List.mem_map_of_mem member))

/-! ## The server -/

/-- The first thread has started an accept and not left the handler when it succeeds, and the
second one resumes the coroutine. -/
private theorem server_dangles (others : Nat) : ∃ machine : Machine ServerCode Error,
    (bind (others + 2)).run server [.take 0 0, .run 0, .run 0, .run 0, .ended 0 none, .take 1 0,
      .run 1] = .ok machine ∧ ¬ machine.HandlersAlive := by
  refine ⟨⟨⟨none, some ⟨0, 0⟩, none, .deferred⟩ :: ⟨some 0, none, none, .inside 0⟩ ::
    List.replicate others ⟨none, none, none, .run⟩, ⟨[some ⟨true, true, false,
      some ⟨none, false⟩, .accepting, none, 1⟩], [], [.create (.reading 0)], 1⟩⟩, rfl, ?_⟩
  intro alive
  obtain ⟨pointer, pointed, coro, found, some_⟩ := alive _ List.mem_cons_self rfl
  cases pointed
  cases found
  cases some_

/-- No thread of the server ever runs a handler that was destroyed, if and only if the machine
has one processor at most. -/
theorem server_handlers_alive_iff (hardwareConcurrency : Nat) :
    (∀ (events : List (Event Error)) (machine : Machine ServerCode Error),
      (bind hardwareConcurrency).run server events = .ok machine → machine.HandlersAlive) ↔
      hardwareConcurrency ≤ 1 := by
  constructor
  · intro alive
    by_contra several
    obtain ⟨others, rfl⟩ := Nat.exists_eq_add_of_le' (Nat.lt_of_not_le several)
    obtain ⟨machine, ran, dangles⟩ := @server_dangles Error others
    exact dangles (alive _ machine ran)
  · intro few events machine ran
    have single : dispatch 0 hardwareConcurrency = 1 := by
      rw [dispatch, if_neg (by decide)]
      omega
    obtain ⟨machine', ran', alive⟩ := handlers_alive_of_single server [.accepting] single events
    rw [bind, ran'] at ran
    cases ran
    exact alive

end PersistentBTree.Coroutines
