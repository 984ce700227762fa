import PersistentBTree.Coroutines.BlockingProperties

/-! What holds in every run of the threads, however many there are and however the operations
end, if the code inside the coroutines returns, throws, calls `go` and waits with the
operations of sockets. -/

set_option autoImplicit false

namespace PersistentBTree.Coroutines

open Imperative

variable {Code Error : Type}

/-- The coroutine exists, and no exception has left it. -/
def Shared.Lives (shared : Shared Code Error) (id : CoroId) : Prop :=
  ∃ coro, shared.cell id = some coro ∧ coro.exc = false

private theorem lives_of_suits {party : Party Code Error} {shared : Shared Code Error} {id : CoroId}
    (holds : party.coro = some id) (suits : Suits party (shared.cell id)) : shared.Lives id := by
  have waiting : Waiting (shared.cell id) → shared.Lives id := by
    intro waits
    obtain ⟨coro, found, call, suspended⟩ := waits
    exact ⟨coro, found, suspended.noException⟩
  cases party with
  | thread thread =>
      change thread.place.coro = some id at holds
      change SuitsThread thread (shared.cell id) at suits
      unfold SuitsThread at suits
      cases place : thread.place with
      | run | deferred | ended =>
          rw [place] at holds
          cases holds
      | inside =>
          rw [place] at suits
          obtain ⟨-, -, coro, found, inside⟩ := suits
          exact ⟨coro, found, inside.noException⟩
      | completing =>
          rw [place] at suits
          obtain ⟨-, ⟨-, coro, found, finished⟩ | ⟨call, -, coro, found, suspended⟩⟩ := suits
          · exact ⟨coro, found, finished.noException⟩
          · exact ⟨coro, found, suspended.noException⟩
      | deferring =>
          rw [place] at suits
          obtain ⟨-, call, -, coro, found, suspended⟩ := suits
          exact ⟨coro, found, suspended.noException⟩
  | pending pending =>
      obtain ⟨coro, found, call, suspended, -⟩ := suits
      exact ⟨coro, found, suspended.noException⟩
  | task task =>
      cases task with
      | create handler => cases holds
      | onComplete | onCompleteGo => exact waiting suits

/-! ## The run -/

theorem dispatched_socketsOwned (handlers : List Code) (threadCount : Int)
    (hardwareConcurrency : Nat) :
    SocketsOwned (dispatched handlers threadCount hardwareConcurrency : Machine Code Error).parties
      0 := by
  let start : Machine Code Error := dispatched handlers threadCount hardwareConcurrency
  have noAccept : start.parties.filterMap Party.accepting = [] := by
    apply List.filterMap_eq_nil_iff.mpr
    intro party member
    cases party with
    | thread | task => rfl
    | pending pending =>
        cases List.mem_append.mp member with
        | inl worker =>
            obtain ⟨thread, -, same⟩ := List.mem_map.mp worker
            cases same
        | inr posted =>
            obtain ⟨task, -, same⟩ := List.mem_map.mp posted
            cases same
  refine ⟨?_, ?_, fun _ _ _ lives => lives.elim⟩
  · intro party member accepts
    obtain ⟨socket, accepting⟩ := Option.isSome_iff_exists.mp accepts
    have somewhere : socket ∈ start.parties.filterMap Party.accepting :=
      List.mem_filterMap.mpr ⟨party, member, accepting⟩
    rw [noAccept] at somewhere
    cases somewhere
  · exact (show start.parties.filterMap (socketOwnership Code Error).holds = [] from noAccept) ▸
      List.nodup_nil

theorem dispatched_world (behaviour : Behaviour Code Error) (handlers : List Code)
    (threadCount : Int) (hardwareConcurrency : Nat) :
    (dispatched handlers threadCount hardwareConcurrency).world behaviour =
      World.start handlers := by
  let start : Machine Code Error := dispatched handlers threadCount hardwareConcurrency
  have processes : processesOf behaviour start.shared.cell start.parties =
      handlers.map Process.runs := by
    have workers : (start.threads.map Party.thread).flatMap (fun party =>
        party.processes behaviour (party.coro.bind start.shared.cell)) = [] := by
      apply List.flatMap_eq_nil_iff.mpr
      intro party member
      obtain ⟨thread, inside, rfl⟩ := List.mem_map.mp member
      rw [(List.mem_replicate.mp inside).2]
      rfl
    have posted : start.shared.parties = handlers.map fun handler => .task (.create handler) := by
      simp [Shared.parties, start, dispatched]
    rw [processesOf, Machine.parties, List.flatMap_append, workers, posted, List.nil_append,
      List.flatMap_map]
    exact List.map_eq_flatMap.symm
  have raised : start.parties.countP Party.raised = 0 := by
    apply List.countP_eq_zero.mpr
    intro party member
    cases List.mem_append.mp member with
    | inl worker =>
        obtain ⟨thread, inside, rfl⟩ := List.mem_map.mp worker
        rw [(List.mem_replicate.mp inside).2]
        exact Bool.false_ne_true
    | inr posted =>
        cases party with
        | thread =>
            cases List.mem_append.mp posted with
            | inl waiting =>
                obtain ⟨pending, -, same⟩ := List.mem_map.mp waiting
                cases same
            | inr ready =>
                obtain ⟨task, -, same⟩ := List.mem_map.mp ready
                cases same
        | pending | task => exact Bool.false_ne_true
  have taken : takenOf start.parties 0 = ∅ :=
    Set.eq_empty_of_forall_notMem fun socket used => Nat.not_lt_zero socket used.1
  change (⟨(processesOf behaviour start.shared.cell start.parties : List (Process Code)),
    takenOf start.parties 0, start.parties.countP Party.raised⟩ : World Code) = _
  rw [processes, taken, raised]
  rfl

/-- The processes that a state stands for make the step that is seen of a trade. -/
theorem Machine.Trades.follows {behaviour : Behaviour Code Error}
    {label : Option (Label Code Error)} {before after : Machine Code Error}
    (trades : before.Trades behaviour label after) (owned : before.Owned)
    (sockets : SocketsOwned before.parties before.shared.sockets) :
    SocketsOwned after.parties after.shared.sockets ∧
      World.Follows behaviour (before.world behaviour) label (after.world behaviour) := by
  obtain ⟨old, new, rest, split, joined, trades⟩ := trades
  have simulated := trades.simulated owned sockets split
  rw [← worldOf_perm split, ← worldOf_perm joined] at simulated
  exact ⟨trades.socketsOwned sockets split joined, simulated⟩

/-- A run is a run of the processes, of which the same is seen. -/
theorem run_simulated (behaviour : Behaviour Code Error) (handlers : List Code) (threadCount : Int)
    (hardwareConcurrency : Nat) (events : List (Event Error)) :
    ∃ machine, (dispatched handlers threadCount hardwareConcurrency).run behaviour events =
        .ok machine ∧ machine.Owned ∧ SocketsOwned machine.parties machine.shared.sockets ∧
      World.Runs behaviour (World.start handlers)
        ((dispatched handlers threadCount hardwareConcurrency).labels behaviour events)
        (machine.world behaviour) := by
  let simulated (seen : List (Label Code Error)) (machine : Machine Code Error) : Prop :=
    SocketsOwned machine.parties machine.shared.sockets ∧
      World.Runs behaviour (World.start handlers) seen (machine.world behaviour)
  have start : simulated [] (dispatched handlers threadCount hardwareConcurrency) := by
    refine ⟨dispatched_socketsOwned .., ?_⟩
    rw [dispatched_world]
    exact .nil
  have keeps : ∀ (seen : List (Label Code Error)) (label : Option (Label Code Error))
      (before after : Machine Code Error), before.Owned → before.Trades behaviour label after →
        simulated seen before → simulated (seen ++ label.toList) after := by
    intro seen label before after owned trades kept
    obtain ⟨sockets, runs⟩ := kept
    obtain ⟨sockets', follows⟩ := trades.follows owned sockets
    exact ⟨sockets', runs.follows follows⟩
  exact (dispatched_owned handlers threadCount hardwareConcurrency).run_labels start keeps events

/-! ## The guarantees -/

section Guarantees

variable (behaviour : Behaviour Code Error) (handlers : List Code) (threadCount : Int)
  (hardwareConcurrency : Nat) (events : List (Event Error))

/-- No `VERIFY` fails in any run, and no thread uses a coroutine or a handler that is gone. -/
theorem run_returns : ∃ machine,
    (dispatched handlers threadCount hardwareConcurrency).run behaviour events = .ok machine := by
  obtain ⟨machine, ran, -⟩ :=
    run_simulated behaviour handlers threadCount hardwareConcurrency events
  exact ⟨machine, ran⟩

/-- In every state reached, a coroutine that lives is with one thread, with one operation under
way or with one task, and no other coroutine is with any. -/
theorem coro_held_once : ∃ machine,
    (dispatched handlers threadCount hardwareConcurrency).run behaviour events = .ok machine ∧
      ∀ id, (machine.parties.filterMap Party.coro).count id ≤ 1 ∧
        ((machine.parties.filterMap Party.coro).count id = 1 ↔ machine.shared.Lives id) := by
  obtain ⟨machine, ran, owned, -⟩ :=
    run_simulated behaviour handlers threadCount hardwareConcurrency events
  refine ⟨machine, ran, fun id => ?_⟩
  have unique : (machine.parties.filterMap Party.coro).Nodup := owned.exclusive
  have once := List.nodup_iff_count_le_one.mp unique id
  refine ⟨once, ?_⟩
  constructor
  · intro counted
    have member : id ∈ machine.parties.filterMap Party.coro :=
      List.count_pos_iff.mp (counted ▸ Nat.one_pos)
    obtain ⟨party, inside, holds⟩ := List.mem_filterMap.mp member
    have suits : Suits party (party.coro.bind machine.shared.cell) := owned.suits party inside
    rw [holds] at suits
    exact lives_of_suits holds suits
  · intro lives
    obtain ⟨coro, found, noException⟩ := lives
    have member : id ∈ machine.parties.filterMap Party.coro := owned.covers id coro found noException
    exact Nat.le_antisymm once (List.count_pos_iff.mpr member)

/-- A run is a run of processes that block, and an event is one step of theirs or none. The end
of an operation is the step of a process that waits for this operation with the code of the
coroutine that waits, and the process goes on with the error of the event. -/
theorem run_refines_blocking : ∃ machine,
    (dispatched handlers threadCount hardwareConcurrency).run behaviour events = .ok machine ∧
      World.Runs behaviour (World.start handlers)
        ((dispatched handlers threadCount hardwareConcurrency).labels behaviour events)
        (machine.world behaviour) ∧
      ∀ event, ∃ next, machine.step behaviour event = .ok next ∧
        World.Follows behaviour (machine.world behaviour) (machine.label event)
          (next.world behaviour) := by
  obtain ⟨machine, ran, owned, sockets, runs⟩ :=
    run_simulated behaviour handlers threadCount hardwareConcurrency events
  refine ⟨machine, ran, runs, fun event => ?_⟩
  obtain ⟨next, stepped, moved⟩ := owned.step behaviour event
  refine ⟨next, stepped, ?_⟩
  cases moved with
  | inl unchanged =>
      obtain ⟨same, unseen⟩ := unchanged
      rw [same, unseen]
      exact rfl
  | inr trades => exact (trades.follows owned sockets).2

end Guarantees

end PersistentBTree.Coroutines
